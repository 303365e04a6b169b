import Mathlib
import NewtonSolver.Proofs.Arithmetic.Valued
import NewtonSolver.Proofs.LineSearch.Fields
import NewtonSolver.Proofs.LineSearch.Trials

/-! What backtracking finds: a positive step length at which the merit function has decreased enough. -/
namespace NewtonSolver

variable {R : Type} [ExactScalar R]

open ExactScalar

theorem Setting.isInsideUnit_decimal {k e : Nat} (h0 : 0 < k) (h1 : k < 10 ^ e) :
    (Setting.real (Scalar.decimal k e) : Setting R).isInsideUnit = .ok true := by
  have hpos : (0 : ℝ) < k / 10 ^ e := by positivity
  have hlt : (k : ℝ) / 10 ^ e < 1 := (div_lt_one (by positivity)).mpr (by exact_mod_cast h1)
  have hlow : (0 : R) < Scalar.decimal k e := (lt_iff real?_zero (real?_decimal k e)).mpr hpos
  have hhigh : (Scalar.decimal k e : R) < 1 := (lt_iff (real?_decimal k e) real?_one).mpr hlt
  simp [isInsideUnit, numberOr, number?, liftFault, hlow, hhigh]

theorem Setting.isBelow_one {i : Int} (h : 1 ≤ i) :
    (Setting.whole i : Setting R).isBelow 1 = .ok false := by
  have hnot : ¬ (i : R) < 1 := by
    rw [lt_iff (real?_intCast i) real?_one, not_lt]
    exact_mod_cast h
  simp [isBelow, numberOr, number?, liftFault, hnot]

theorem Setting.real?_number {s : Setting R} {i : Int} (h : s.wholeNumber = .ok i) :
    ∃ x, s.number = .ok x ∧ real? x = some (i : ℝ) := by
  cases s with
  | flag b =>
    cases h
    cases b
    · exact ⟨0, rfl, by simp [real?_zero]⟩
    · exact ⟨1, rfl, by simp [real?_one]⟩
  | whole j =>
    cases h
    exact ⟨i, rfl, real?_intCast i⟩
  | _ => cases h

/-- The fields as they are when all of them are left out. -/
def BacktrackingFields.standard : BacktrackingFields R :=
  ⟨.real (Scalar.decimal 1 4), .real (Scalar.decimal 5 1), .whole 20, .whole 2⟩

/-- They are usable. -/
theorem LineSearchStrategy.recognize_standard :
    recognize (Tag.backtrackingLineSearch.setting fun _ => none) =
      .ok (.backtracking (.standard : BacktrackingFields R)) :=
  recognize_defaults (Setting.isInsideUnit_decimal (by decide) (by decide))
    (Setting.isInsideUnit_decimal (by decide) (by decide)) (Setting.isBelow_one (by decide))

theorem LineSearchStrategy.validate_standard :
    (backtracking (.standard : BacktrackingFields R)).validate = .ok () := by
  obtain ⟨⟨⟩, hvalidated, -⟩ := Outcome.bind_eq_ok.mp (recognize_standard (R := R))
  exact hvalidated

end NewtonSolver

namespace NewtonSolver.LineSearch

variable {R : Type} [ExactScalar R]

open ExactScalar

/-- The slope is negative, and the merit function has a value at zero. -/
structure Merit.Descends (merit : Merit R) (phi fall : ℝ) : Prop where
  valueAtZero : real? merit.valueAtZero = some phi
  slopeAtZero : real? merit.slopeAtZero = some fall
  slope_neg : fall < 0

/-- The parts of a search as numbers. -/
structure Backtracking.Values (s : Backtracking R) (d c : ℝ) : Prop where
  decrease : real? s.decrease = some d
  contraction : real? s.contraction = some c
  decrease_pos : 0 < d
  decrease_lt_one : d < 1
  contraction_pos : 0 < c

theorem isDescent_iff {slope : R} :
    isDescent slope = true ↔ ∃ x, real? slope = some x ∧ x < 0 := by
  rw [isDescent, Bool.and_eq_true, isFinite_iff, Bool.not_eq_true', decide_eq_false_iff_not]
  constructor
  · rintro ⟨⟨x, hx⟩, h⟩
    exact ⟨x, hx, not_le.mp ((le_iff real?_zero hx).not.mp h)⟩
  · rintro ⟨x, hx, hneg⟩
    exact ⟨⟨x, hx⟩, (le_iff real?_zero hx).not.mpr (not_le.mpr hneg)⟩

namespace Backtracking

variable {s : Backtracking R} {merit : Merit R} {alpha : R} {phi fall d c : ℝ}

theorem IsProper.exists_values (h : s.IsProper) : ∃ d c, s.Values d c := by
  obtain ⟨d, hd⟩ := real?_between real?_zero real?_one h.decrease_pos h.decrease_lt_one
  obtain ⟨c, hc⟩ := real?_between real?_zero real?_one h.contraction_pos h.contraction_lt_one
  exact ⟨d, c, hd, hc, (lt_iff real?_zero hd).mp h.decrease_pos,
    (lt_iff hd real?_one).mp h.decrease_lt_one, (lt_iff real?_zero hc).mp h.contraction_pos⟩

theorem exists_ofFields {fields : BacktrackingFields R} {budget : Int}
    (hv : (LineSearchStrategy.backtracking fields).validate = .ok ())
    (hbudget : fields.maxSteps.wholeNumber = .ok budget) : ∃ s, ofFields fields = .ok s := by
  obtain ⟨hdecrease, hcontraction, -⟩ := LineSearchStrategy.validate_backtracking hv
  obtain ⟨x, hx, -⟩ := Setting.isInsideUnit_eq_true hdecrease
  obtain ⟨y, hy, -⟩ := Setting.isInsideUnit_eq_true hcontraction
  refine ⟨⟨x, y, budget.toNat, fields.order.same (.whole 2)⟩, ?_⟩
  simp only [ofFields, Setting.wholeNumberOr_eq_ok.mpr hbudget, hx, hy, Outcome.ok_bind,
    Outcome.pure_eq]

/-- At least one step is tried. -/
theorem one_le_maxSteps {fields : BacktrackingFields R}
    (hv : (LineSearchStrategy.backtracking fields).validate = .ok ())
    (hs : ofFields fields = .ok s) : 1 ≤ s.maxSteps := by
  obtain ⟨-, -, hbelow⟩ := LineSearchStrategy.validate_backtracking hv
  obtain ⟨-, -, i, hi, hsteps⟩ := ofFields_eq_ok hs
  obtain ⟨x, hx, hreal⟩ := Setting.real?_number hi
  have hone : ¬ x < 1 := by
    simpa [Setting.isBelow, Setting.numberOr_eq_ok.mpr hx, liftFault] using hbelow
  rw [lt_iff hreal real?_one, not_lt] at hone
  have hle : (1 : ℤ) ≤ i := by exact_mod_cast hone
  omega

theorem maxSteps_eq {fields : BacktrackingFields R} {budget : Int}
    (hv : (LineSearchStrategy.backtracking fields).validate = .ok ())
    (hs : ofFields fields = .ok s) (hbudget : fields.maxSteps.wholeNumber = .ok budget) :
    (s.maxSteps : Int) = budget := by
  have hone := one_le_maxSteps hv hs
  obtain ⟨-, -, i, hi, hsteps⟩ := ofFields_eq_ok hs
  obtain rfl : i = budget := Except.ok.inj (hi.symm.trans hbudget)
  omega

theorem IsProper.contraction_lt (h : s.IsProper) (hc : real? s.contraction = some c) : c < 1 :=
  (lt_iff hc real?_one).mp h.contraction_lt_one

/-- The decrease that is asked for, as numbers. -/
theorem real?_bound (hs : s.Values d c) (hm : merit.Descends phi fall) {a : ℝ}
    (ha : real? alpha = some a) :
    real? (merit.valueAtZero + s.decrease * alpha * merit.slopeAtZero) =
      some (phi + d * a * fall) :=
  real?_add_of hm.valueAtZero (real?_mul_of (real?_mul_of hs.decrease ha) hm.slopeAtZero)

/-- What the interpolated step is divided by. -/
def divisor (merit : Merit R) (alpha : R) : R :=
  ((2 : Nat) : R) * (merit.value alpha - merit.valueAtZero - merit.slopeAtZero * alpha)

/-- Where too little decrease is left, the value lies above the tangent, so that the quadratic through it
opens upward. -/
theorem divisor_pos (hs : s.Values d c) (hm : merit.Descends phi fall) {a : ℝ}
    (ha : real? alpha = some a) (hpos : 0 < a) (hfinite : Scalar.isFinite (merit.value alpha) = true)
    (hno : ¬ s.Enough merit alpha) : ∃ x, real? (divisor merit alpha) = some x ∧ 0 < x := by
  obtain ⟨v, hv⟩ := isFinite_iff.mp hfinite
  have hhigh : phi + d * a * fall < v := by
    refine not_le.mp ?_
    intro hle
    exact hno ⟨hfinite, (le_iff hv (real?_bound hs hm ha)).mpr hle⟩
  have htangent : fall * a < d * a * fall := by
    nlinarith [mul_pos hpos (neg_pos.mpr hm.slope_neg), hs.decrease_lt_one]
  have hcurvature : 0 < v - phi - fall * a := by linarith
  refine ⟨2 * (v - phi - fall * a), ?_, by positivity⟩
  exact real?_mul_of (real?_natCast 2)
    (real?_sub_of (real?_sub_of hv hm.valueAtZero) (real?_mul_of hm.slopeAtZero ha))

theorem real?_interpolate (hm : merit.Descends phi fall) {a x : ℝ} (ha : real? alpha = some a)
    (hx : real? (divisor merit alpha) = some x) (hne : x ≠ 0) :
    real? (interpolate merit alpha (merit.value alpha)) = some (-fall * (a * a) / x) :=
  real?_div (real?_mul_of (real?_neg_of hm.slopeAtZero) (real?_mul_of ha ha)) hx hne

/-- The step `a` at `alpha` is shortened to `z` within bounds, and by the contraction alone where the order
is not two or the merit function has no value. What an interpolation divides by is positive. -/
structure Shortens (s : Backtracking R) (merit : Merit R) (c : ℝ) (alpha : R) (a z : ℝ) : Prop where
  lower : min (1 / 10) c * a ≤ z
  upper : z ≤ c * a
  contracted : s.quadratic = false ∨ Scalar.isFinite (merit.value alpha) = false → z = c * a
  divisor_pos : s.quadratic = true → Scalar.isFinite (merit.value alpha) = true →
    ∃ x, real? (divisor merit alpha) = some x ∧ 0 < x

theorem shorten_shortens (hs : s.Values d c) (hm : merit.Descends phi fall) {a : ℝ}
    (ha : real? alpha = some a) (hpos : 0 < a) (hno : ¬ s.Enough merit alpha) :
    ∃ z, real? (s.shorten merit alpha (merit.value alpha)) = some z ∧
      s.Shortens merit c alpha a z := by
  have hcontracted := real?_mul_of hs.contraction ha
  have htenth : real? (Scalar.decimal 1 1 * alpha) = some (1 / 10 * a) := by
    have h := real?_mul_of (real?_decimal 1 1) ha
    norm_num at h ⊢
    exact h
  have hlower : min (1 / 10) c * a ≤ c * a :=
    mul_le_mul_of_nonneg_right (min_le_right _ _) hpos.le
  have hlower' : min (1 / 10) c * a ≤ 1 / 10 * a :=
    mul_le_mul_of_nonneg_right (min_le_left _ _) hpos.le
  unfold shorten
  split
  · next hq =>
    rw [Bool.and_eq_true] at hq
    obtain ⟨hquadratic, hfinite⟩ := hq
    obtain ⟨x, hx, hxpos⟩ := divisor_pos hs hm ha hpos hfinite hno
    have hz := real?_interpolate hm ha hx hxpos.ne'
    refine ⟨_, real?_atMost (real?_atLeast hz htenth) hcontracted, ?_, ?_, ?_, ?_⟩
    · exact le_min (hlower'.trans (le_max_right _ _)) hlower
    · exact min_le_right _ _
    · simp [hquadratic, hfinite]
    · exact fun _ _ => ⟨x, hx, hxpos⟩
  · next hq =>
    refine ⟨_, hcontracted, hlower, le_rfl, fun _ => rfl, ?_⟩
    intro hquadratic hfinite
    exact absurd (Bool.and_eq_true_iff.mpr ⟨hquadratic, hfinite⟩) hq

/-- Every step that is tried is positive and no longer than the full one. -/
theorem real?_trial (hs : s.Values d c) (hc : c < 1) (hm : merit.Descends phi fall) {k : Nat}
    (h : s.RejectsBefore merit k) : ∃ a, real? (s.trial merit k) = some a ∧ 0 < a ∧ a ≤ 1 := by
  induction k with
  | zero => exact ⟨1, real?_one, one_pos, le_rfl⟩
  | succ k ih =>
    have hbefore : s.RejectsBefore merit k := fun j hj => h j (Nat.lt_succ_of_lt hj)
    obtain ⟨a, ha, hpos, hle⟩ := ih hbefore
    obtain ⟨z, hz, hshort⟩ := shorten_shortens hs hm ha hpos (h k k.lt_succ_self)
    have hpart : 0 < min (1 / 10) c := lt_min (by norm_num) hs.contraction_pos
    refine ⟨z, hz, (mul_pos hpart hpos).trans_le hshort.lower, ?_⟩
    nlinarith [hshort.upper]

end Backtracking

/-- A step length at which the merit function has gone down as far as is asked for. -/
structure Backtracking.Finds (s : Backtracking R) (merit : Merit R) (alpha : R) : Prop where
  slope_neg : merit.slopeAtZero < 0
  pos : 0 < alpha
  decrease : merit.value alpha ≤ merit.valueAtZero + s.decrease * alpha * merit.slopeAtZero
  lower : ∃ phi e, real? merit.valueAtZero = some phi ∧ real? (merit.value alpha) = some e ∧ e < phi

theorem Backtracking.finds_of_enough {s : Backtracking R} {merit : Merit R} {phi fall d c : ℝ}
    {k : Nat} (hs : s.Values d c) (hc : c < 1) (hm : merit.Descends phi fall)
    (hbefore : s.RejectsBefore merit k) (henough : s.Enough merit (s.trial merit k)) :
    s.Finds merit (s.trial merit k) := by
  obtain ⟨a, ha, hpos, -⟩ := real?_trial hs hc hm hbefore
  obtain ⟨e, he⟩ := isFinite_iff.mp henough.finite
  have hbound := (le_iff he (real?_bound hs hm ha)).mp henough.decrease
  have hfall : d * a * fall < 0 :=
    mul_neg_of_pos_of_neg (mul_pos hs.decrease_pos hpos) hm.slope_neg
  exact ⟨(lt_iff hm.slopeAtZero real?_zero).mpr hm.slope_neg, (lt_iff real?_zero ha).mpr hpos,
    henough.decrease, phi, e, hm.valueAtZero, he, by linarith⟩

/-- With fields that were looked at, only such step lengths are found. -/
theorem backtrack_finds {fields : BacktrackingFields R} {merit : Merit R} {alpha : R} {phi : ℝ}
    (hv : (LineSearchStrategy.backtracking fields).validate = .ok ())
    (hphi : real? merit.valueAtZero = some phi) (h : (backtrack fields merit).step = .ok alpha) :
    ∃ s, Backtracking.ofFields fields = .ok s ∧ s.Finds merit alpha := by
  by_cases hdescent : isDescent merit.slopeAtZero = true
  · obtain ⟨fall, hfall, hneg⟩ := isDescent_iff.mp hdescent
    cases hs : Backtracking.ofFields fields with
    | error f => simp [backtrack, hdescent, hs] at h
    | ok s =>
      have hproper := Backtracking.isProper hv hs
      obtain ⟨d, c, hvalues⟩ := hproper.exists_values
      have hselects := backtrack_selects hs hdescent
      generalize backtrack fields merit = selection at h hselects
      cases hselects with
      | taken within before enough =>
        cases h
        exact ⟨s, rfl, Backtracking.finds_of_enough hvalues
          (hproper.contraction_lt hvalues.contraction) ⟨hphi, hfall, hneg⟩ before enough⟩
      | exhausted before => cases h
  · simp [backtrack, hdescent] at h

/-- What backtracking tries and what it selects. A slope that does not go down is refused before any value
is looked at; else the steps start at one, are shortened within bounds as long as too little decrease is
left, and the first with enough is taken. -/
structure Backtracking.Governs (s : Backtracking R) (merit : Merit R) (budget : Setting R)
    (selection : Selection R) : Prop where
  refuses : (¬ ∃ fall, real? merit.slopeAtZero = some fall ∧ fall < 0) →
    selection = ⟨.error (.lineSearch (.notDescent merit.slopeAtZero)), 0, []⟩
  selects : (∃ fall, real? merit.slopeAtZero = some fall ∧ fall < 0) → s.Selects merit budget selection
  first : s.trial merit 0 = 1
  tries : ∀ phi fall, merit.Descends phi fall → ∃ c, real? s.contraction = some c ∧
    ∀ k, s.RejectsBefore merit k → ∃ a, real? (s.trial merit k) = some a ∧ 0 < a ∧ a ≤ 1 ∧
      (¬ s.Enough merit (s.trial merit k) → ∃ z, real? (s.trial merit (k + 1)) = some z ∧
        s.Shortens merit c (s.trial merit k) a z)

theorem backtrack_governed {fields : BacktrackingFields R} {budget : Int}
    (hv : (LineSearchStrategy.backtracking fields).validate = .ok ())
    (hbudget : fields.maxSteps.wholeNumber = .ok budget) (merit : Merit R) :
    ∃ s, Backtracking.ofFields fields = .ok s ∧ (s.maxSteps : Int) = budget ∧
      s.Governs merit fields.maxSteps (backtrack fields merit) := by
  obtain ⟨s, hs⟩ := Backtracking.exists_ofFields hv hbudget
  have hproper := Backtracking.isProper hv hs
  obtain ⟨d, c, hvalues⟩ := hproper.exists_values
  have hc := hproper.contraction_lt hvalues.contraction
  refine ⟨s, hs, Backtracking.maxSteps_eq hv hs hbudget, ?_, ?_, rfl, ?_⟩
  · intro hnot
    have hrefused := isDescent_iff.not.mpr hnot
    simp [backtrack, hrefused]
  · intro hdescent
    exact backtrack_selects hs (isDescent_iff.mpr hdescent)
  · intro phi fall hm
    refine ⟨c, hvalues.contraction, ?_⟩
    intro k hbefore
    obtain ⟨a, ha, hpos, hle⟩ := Backtracking.real?_trial hvalues hc hm hbefore
    exact ⟨a, ha, hpos, hle, Backtracking.shorten_shortens hvalues hm ha hpos⟩

/-- The logarithm from one, along a direction whose full step leaves the positive numbers. -/
noncomputable def overshooting : Merit PartialReal where
  value alpha := Scalar.log (1 - Scalar.decimal 15 1 * alpha)
  slope alpha := -Scalar.decimal 15 1 / (1 - Scalar.decimal 15 1 * alpha)
  slopeCost := 1
  valueAtZero := Scalar.log 1
  slopeAtZero := -Scalar.decimal 15 1

theorem overshooting_governed :
    (LineSearchStrategy.backtracking (.standard : BacktrackingFields PartialReal)).validate = .ok () ∧
      (BacktrackingFields.standard (R := PartialReal)).maxSteps.wholeNumber = .ok 20 ∧
      Scalar.isFinite (overshooting.value 1) = false ∧
      ∃ s, Backtracking.ofFields .standard = .ok s ∧ (s.maxSteps : Int) = 20 ∧
        s.Governs overshooting (.whole 20) (backtrack .standard overshooting) := by
  have hv := LineSearchStrategy.validate_standard (R := PartialReal)
  have houtside : (1 : ℝ) - Scalar.decimal 15 1 * 1 ≤ 0 := by
    change (1 : ℝ) - ((15 : ℕ) : ℝ) / 10 ^ 1 * 1 ≤ 0
    norm_num
  have hundefined : overshooting.value 1 = none := if_pos houtside
  refine ⟨hv, rfl, ?_, backtrack_governed hv rfl overshooting⟩
  rw [hundefined]
  rfl

end NewtonSolver.LineSearch
