import Mathlib
import NewtonSolver.Derivative.FiniteDifference
import NewtonSolver.Proofs.Arithmetic.Valued
import NewtonSolver.Proofs.Configuration.Backends
import NewtonSolver.Proofs.Sparsity.Compression

/-! What differences divide by. Every length is the step times a positive number, so one can divide by it
just where one can divide by the step. Nothing is asked of the step when options are read. -/
namespace NewtonSolver

open ExactScalar

namespace PartialReal

variable {a b : PartialReal}

/-- A number other than zero. -/
def IsDivisor (a : PartialReal) : Prop := ∃ h : ℝ, real? a = some h ∧ h ≠ 0

theorem isDivisor_of_pos {k : ℝ} (ha : real? a = some k) (hk : 0 < k) : a.IsDivisor := ⟨k, ha, hk.ne'⟩

theorem not_isDivisor_zero : ¬ IsDivisor 0 := by
  rintro ⟨h, h0, hne⟩
  rw [real?_zero] at h0
  exact hne (Option.some.inj h0).symm

theorem IsDivisor.of_mul (h : (a * b).IsDivisor) : b.IsDivisor := by
  obtain ⟨_, hab, hne⟩ := h
  rw [real?_mul, Option.map₂_eq_some_iff] at hab
  obtain ⟨x, y, -, hy, rfl⟩ := hab
  exact ⟨y, hy, right_ne_zero_of_mul hne⟩

theorem real?_mul_eq {y : ℝ} (hb : real? b = some y) : real? (a * b) = (real? a).map (· * y) := by
  rw [real?_mul, hb]
  exact Option.map₂_coe_right _ _ _

theorem real?_div_eq {y : ℝ} (hb : real? b = some y) (hy : y ≠ 0) :
    real? (a / b) = (real? a).map (· / y) := by
  obtain rfl : b = some y := hb
  exact if_neg hy

/-- Without a divisor no quotient has a result. -/
theorem real?_div_of_not (hb : ¬ b.IsDivisor) : real? (a / b) = none := by
  cases b with
  | none => rfl
  | some y =>
    have hy : y = 0 := by
      by_contra hne
      exact hb ⟨y, rfl, hne⟩
    exact if_pos hy

/-- The first value is the second one times a positive number, and is none where that is none. -/
def IsMultiple (b a : PartialReal) : Prop := ∃ k : ℝ, 0 < k ∧ real? b = (real? a).map (· * k)

theorem IsMultiple.isDivisor (h : b.IsMultiple a) : b.IsDivisor ↔ a.IsDivisor := by
  obtain ⟨k, hk, hb⟩ := h
  simp only [IsDivisor, hb, Option.map_eq_some_iff]
  constructor
  · rintro ⟨_, ⟨x, hx, rfl⟩, hne⟩
    exact ⟨x, hx, left_ne_zero_of_mul hne⟩
  · rintro ⟨x, hx, hne⟩
    exact ⟨x * k, ⟨x, hx, rfl⟩, mul_ne_zero hne hk.ne'⟩

theorem IsMultiple.real?_zero (h : b.IsMultiple a) (ha : real? a = some 0) : real? b = some 0 := by
  obtain ⟨k, -, hb⟩ := h
  rw [hb, ha, Option.map_some, zero_mul]

end PartialReal

open PartialReal

namespace DifferenceScheme

variable {S : DifferenceScheme PartialReal} {m n : Nat} {x v : Vec PartialReal n} {h : PartialReal}

theorem isDivisor_defaultStep (central : Bool) : (defaultStep central : PartialReal).IsDivisor := by
  cases central with
  | true => exact isDivisor_of_pos (real?_decimal _ _) (by positivity)
  | false =>
    have hpos : (0 : ℝ) < (Nat.pow 2 26 : Nat) := by norm_num
    exact isDivisor_of_pos (real?_div real?_one (real?_natCast _) hpos.ne') (one_div_pos.mpr hpos)

theorem real?_extent (hx : x.allFinite = true) : ∃ p : ℝ, 0 < p ∧ real? (1 + x.norm) = some p := by
  obtain ⟨s, h0, hs⟩ := real?_sumSquares hx
  exact ⟨1 + √s, by positivity, real?_add_of real?_one (real?_norm hs h0)⟩

/-- The length of a vector, or one in its place. -/
theorem real?_guarded (hv : v.allFinite = true) :
    ∃ q : ℝ, 0 < q ∧ real? (if 0 < v.norm then v.norm else 1) = some q := by
  obtain ⟨s, h0, hs⟩ := real?_sumSquares hv
  have hnorm := real?_norm hs h0
  split
  · next h => exact ⟨√s, (lt_iff real?_zero hnorm).mp h, hnorm⟩
  · exact ⟨1, one_pos, real?_one⟩

theorem length_isMultiple (hx : x.allFinite = true) (hv : v.allFinite = true) :
    (S.length x v).IsMultiple S.step := by
  obtain ⟨p, hp, hextent⟩ := real?_extent hx
  obtain ⟨q, hq, hguarded⟩ := real?_guarded hv
  refine ⟨p / q, div_pos hp hq, ?_⟩
  rw [length, real?_div_eq hguarded hq.ne', real?_mul_eq hextent, Option.map_map]
  exact congrArg (Option.map · _) (funext fun s => mul_div_assoc s p q)

theorem coordinateLength_isMultiple (hx : x.allFinite = true) (j : Fin n) :
    (S.coordinateLength x j).IsMultiple S.step := by
  obtain ⟨a, ha⟩ : ∃ a, real? (x.get j) = some a :=
    isFinite_iff.mp (Vector.all_eq_true.mp hx j j.isLt)
  have habs : real? (Scalar.abs (x.get j)) = some |a| := congrArg (Option.map _) ha
  exact ⟨max 1 |a|, lt_max_of_lt_left one_pos, real?_mul_eq (real?_atLeast real?_one habs)⟩

theorem allFinite_seed (c : Coloring n) (color : Nat) :
    (c.seed color : Vec PartialReal n).allFinite = true := by
  refine Vector.all_eq_true.mpr ?_
  intro j hj
  have hget : (c.seed color : Vec PartialReal n)[j] =
      if c.colors.get ⟨j, hj⟩ = color then 1 else 0 := Compression.seed_get color ⟨j, hj⟩
  rw [hget]
  split <;> rfl

/-- The lengths that differences from finite points take: along a vector, along all unknowns of a color
and along a single one. -/
inductive Takes (S : DifferenceScheme PartialReal) : PartialReal → Prop
  | along {n : Nat} {x v : Vec PartialReal n} (hx : x.allFinite = true) (hv : v.allFinite = true) :
    Takes S (S.length x v)
  | color {n : Nat} {x : Vec PartialReal n} (hx : x.allFinite = true) (c : Coloring n) (color : Nat) :
    Takes S (S.length x (c.seed color))
  | coordinate {n : Nat} {x : Vec PartialReal n} (hx : x.allFinite = true) (j : Fin n) :
    Takes S (S.coordinateLength x j)

theorem Takes.isMultiple (hh : S.Takes h) : h.IsMultiple S.step := by
  cases hh with
  | along hx hv => exact length_isMultiple hx hv
  | color hx c color => exact length_isMultiple hx (allFinite_seed c color)
  | coordinate hx j => exact coordinateLength_isMultiple hx j

/-- Without a divisor no component of a difference has a result. -/
theorem real?_quotient (hh : ¬ h.IsDivisor) (F : Vec PartialReal n → Vec PartialReal m)
    (fx : Vec PartialReal m) (x d : Vec PartialReal n) (i : Fin m) :
    real? ((S.quotient F fx x d h).get i) = none := by
  unfold quotient
  split
  · rw [Vector.get_map]
    refine real?_div_of_not ?_
    intro htwice
    exact hh htwice.of_mul
  · rw [Vector.get_map]
    exact real?_div_of_not hh

/-- Whatever the function, no product and no entry by differences from finite points has a result. -/
structure Spoils (S : DifferenceScheme PartialReal) : Prop where
  product {m n : Nat} (F : Vec PartialReal n → Vec PartialReal m) (fx : Vec PartialReal m)
    {x v : Vec PartialReal n} (hx : x.allFinite = true) (hv : v.allFinite = true) (i : Fin m) :
    real? ((S.product F fx x v).get i) = none
  jacobian {m n : Nat} (F : Vec PartialReal n → Vec PartialReal m) (fx : Vec PartialReal m)
    {x : Vec PartialReal n} (hx : x.allFinite = true) (i : Fin m) (j : Fin n) :
    real? ((S.jacobian F fx x).entry i j) = none

theorem spoils_of_not_isDivisor (hs : ¬ S.step.IsDivisor) : S.Spoils where
  product F fx x v hx hv i :=
    real?_quotient ((length_isMultiple hx hv).isDivisor.not.mpr hs) F fx x _ i
  jacobian F fx x hx i j := by
    rw [jacobian, Mat.entry_ofColumns, Vector.get_ofFn]
    exact real?_quotient ((coordinateLength_isMultiple hx j).isDivisor.not.mpr hs) F fx x _ i

end DifferenceScheme

/-- A step that differences can be taken with: the default, or a number other than zero. -/
def Setting.IsStep (s : Setting PartialReal) : Prop := s = .none ∨ ∃ a, s.number = .ok a ∧ a.IsDivisor

namespace DifferenceScheme

variable {S : DifferenceScheme PartialReal} {scheme step : Setting PartialReal}

theorem exists_ofFields (scheme : Setting PartialReal) (hstep : step.IsStep) :
    ∃ S, ofFields scheme step = .ok S := by
  rcases hstep with rfl | ⟨a, ha, -⟩
  · exact ⟨_, rfl⟩
  · cases step with
    | none => exact ⟨_, rfl⟩
    | _ => exact ⟨⟨isCentral scheme, a⟩, by simp [ofFields, Setting.numberOr_eq_ok.mpr ha]⟩

theorem isDivisor_step (hS : ofFields scheme step = .ok S) : S.step.IsDivisor ↔ step.IsStep := by
  cases step with
  | none =>
    cases hS
    exact iff_of_true (isDivisor_defaultStep _) (.inl rfl)
  | _ =>
    obtain ⟨a, ha, hS⟩ := Outcome.bind_eq_ok.mp hS
    cases hS
    simp [Setting.IsStep, Setting.numberOr_eq_ok.mp ha]

end DifferenceScheme

namespace Options

variable {o : Options PartialReal} {kind : Setting PartialReal} {built : ConfigurationBuild PartialReal}
  {b : Backend PartialReal}

/-- Where accepted options ask for differences, every length is a number other than zero if nothing is
written for the step or such a number is. With any other step no length is one, and nothing that is found by
differences has a result. -/
theorem build_divisors (h : o.build kind = .ok built)
    (hb : built.configuration.jacobianBackend = some b ∨ built.configuration.transposedBackend = some b)
    (hmode : b.mode = .finite) :
    ∃ scheme step, (o.autodiff.AsksDifferences scheme step ∨ o.vjpAutodiff.AsksDifferences scheme step) ∧
      b.underlying = .finite scheme step ∧
      (step.IsStep → ∃ S, DifferenceScheme.ofFields scheme step = .ok S ∧ ∀ h, S.Takes h → h.IsDivisor) ∧
      ∀ S, DifferenceScheme.ofFields scheme step = .ok S → ¬ step.IsStep →
        (∀ h, S.Takes h → ¬ h.IsDivisor) ∧ S.Spoils := by
  obtain ⟨scheme, step, hasks, hunderlying⟩ := build_asksDifferences h hb hmode
  refine ⟨scheme, step, hasks, hunderlying, ?_, ?_⟩
  · intro hstep
    obtain ⟨S, hS⟩ := DifferenceScheme.exists_ofFields scheme hstep
    exact ⟨S, hS, fun h hh => hh.isMultiple.isDivisor.mpr ((DifferenceScheme.isDivisor_step hS).mpr hstep)⟩
  · intro S hS hstep
    have hnot := (DifferenceScheme.isDivisor_step hS).not.mpr hstep
    exact ⟨fun h hh => hh.isMultiple.isDivisor.not.mpr hnot, DifferenceScheme.spoils_of_not_isDivisor hnot⟩

/-- Compressed central differences that start behind the point. -/
noncomputable def backwardStep : Options PartialReal :=
  { Options.defaults with
    autodiff := .tag .autoSparse [.tag .autoFiniteDiff [.text "central", .whole (-2)]] }

theorem backwardStep_divisors :
    (∃ built, backwardStep.build (.text "gauss_newton") = .ok built ∧
      built.configuration.jacobianBackend = some (.sparse (.finite (.text "central") (.whole (-2))))) ∧
      (Backend.sparse (.finite (.text "central") (.whole (-2))) : Backend PartialReal).mode = .finite ∧
      (.whole (-2) : Setting PartialReal).IsStep ∧
      ∃ S, DifferenceScheme.ofFields (.text "central") (.whole (-2)) = .ok S ∧
        ∀ h, S.Takes h → h.IsDivisor := by
  have hstep : (.whole (-2) : Setting PartialReal).IsStep :=
    .inr ⟨_, rfl, -2, by simpa using real?_intCast (R := PartialReal) (-2), by norm_num⟩
  have hbuild : backwardStep.build (.text "gauss_newton") = .ok _ := rfl
  obtain ⟨scheme, step, -, hb, hdivides, -⟩ := build_divisors hbuild (.inl rfl) rfl
  cases hb
  exact ⟨⟨_, hbuild, rfl⟩, rfl, hstep, hdivides hstep⟩

/-- Differences over no distance. -/
noncomputable def zeroStep : Options PartialReal :=
  { Options.defaults with autodiff := .tag .autoFiniteDiff [.text "forward", .real 0] }

/-- They are accepted, lengths are zero along a vector and along a coordinate, and nothing comes of them. -/
theorem zeroStep_accepted :
    (∃ built, zeroStep.build (.text "newton") = .ok built ∧
      built.configuration.jacobianBackend = some (.dense (.finite (.text "forward") (.real 0)))) ∧
      ∃ S : DifferenceScheme PartialReal,
        DifferenceScheme.ofFields (.text "forward") (.real 0) = .ok S ∧
          real? (S.length (#v[1] : Vec PartialReal 1) #v[1]) = some 0 ∧
          real? (S.coordinateLength (#v[1] : Vec PartialReal 1) 0) = some 0 ∧ S.Spoils := by
  have hone : Vec.allFinite (#v[1] : Vec PartialReal 1) = true := by
    simp [Vec.allFinite]
    rfl
  have hzero : real? (0 : PartialReal) = some 0 := real?_zero
  refine ⟨⟨_, rfl, rfl⟩, _, rfl, ?_, ?_, ?_⟩
  · exact (DifferenceScheme.length_isMultiple hone hone).real?_zero hzero
  · exact (DifferenceScheme.coordinateLength_isMultiple hone 0).real?_zero hzero
  · exact DifferenceScheme.spoils_of_not_isDivisor not_isDivisor_zero

end Options

end NewtonSolver
