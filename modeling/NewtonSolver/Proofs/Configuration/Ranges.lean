import NewtonSolver.Proofs.Arithmetic.Order
import NewtonSolver.Proofs.Configuration.Validation
import NewtonSolver.Run.Trace

/-! The ranges of numeric options in double precision. A bound that is tested by what lies below it lets
through what is no number, and apart from that a field is accepted just where it should be. -/
namespace NewtonSolver

open Check (Answers FirstFails)

/-- What the field is meant to hold, as comparisons that are true. -/
def Range.Contains (s : Setting Float) : Range → Prop
  | notBelowZero | notNegative => ∃ x, s.number? = some x ∧ 0 ≤ x
  | notBelowOne | atLeastOne => ∃ x, s.number? = some x ∧ 1 ≤ x
  | positive => ∃ x, s.number? = some x ∧ 0 < x
  | insideUnit => ∃ x, s.number? = some x ∧ 0 < x ∧ x < 1
  | oneOrTwo => s = .whole 1 ∨ s = .whole 2 ∨ s = .flag true ∨ ∃ x, s = .real x ∧ (x == 1 ∨ x == 2)

/-- The field holds what compares false with the bound, and is tested by what lies below the bound. -/
inductive Range.Overlooks : Setting Float → Range → Prop
  | zero {x : Float} (h : x.isNaN = true) : Overlooks (.real x) .notBelowZero
  | realZero {x : Float} (h : x.isNaN = true) : Overlooks (.real x) .notNegative
  | one {x : Float} (h : x.isNaN = true) : Overlooks (.real x) .notBelowOne

namespace Range

variable {s : Setting Float} {r : Range} {x bound : Float}

/-- Only what is given as a real number can be no number. -/
theorem real_of_isNaN (hs : s.number? = some x) (h : x.isNaN = true) : s = .real x := by
  cases s with
  | real y =>
    cases hs
    rfl
  | whole i =>
    cases hs
    exact absurd h (Bool.eq_false_iff.mp (Double.ofInt_isNaN i))
  | flag b =>
    cases hs
    cases b <;> exact absurd h (by decide +kernel)
  | _ => cases hs

theorem not_below_iff (hb : Double.parts bound ≠ .notANumber) :
    (∃ x, s.number? = some x ∧ ¬ x < bound) ↔
      (∃ x, s.number? = some x ∧ bound ≤ x) ∨ ∃ x, s = .real x ∧ x.isNaN = true := by
  constructor
  · rintro ⟨x, hx, hlt⟩
    rcases (Double.not_lt_iff hb).mp hlt with hle | hnan
    · exact .inl ⟨x, hx, hle⟩
    · exact .inr ⟨x, real_of_isNaN hx hnan, hnan⟩
  · rintro (⟨x, hx, hle⟩ | ⟨x, rfl, hnan⟩)
    · exact ⟨x, hx, (Double.not_lt_iff hb).mpr (.inl hle)⟩
    · exact ⟨x, rfl, (Double.not_lt_iff hb).mpr (.inr hnan)⟩

/-- What is tested by what lies below the bound. -/
theorem overlooks_iff (hr : r = .notBelowZero ∨ r = .notNegative ∨ r = .notBelowOne) :
    r.Overlooks s ↔ ∃ x, s = .real x ∧ x.isNaN = true := by
  constructor
  · rintro (h | h | h) <;> exact ⟨_, rfl, h⟩
  · rintro ⟨x, rfl, h⟩
    rcases hr with rfl | rfl | rfl
    · exact .zero h
    · exact .realZero h
    · exact .one h

theorem admits_oneOrTwo : oneOrTwo.Admits s ↔ oneOrTwo.Contains s := by
  have hone : ((1 : Int) : Float) = 1 := rfl
  have htwo : ((2 : Int) : Float) = 2 := by decide +kernel
  cases s with
  | whole i => simp [Admits, Contains, Setting.same]
  | real x => simp [Admits, Contains, Setting.same, Setting.number?, hone, htwo]
  | flag b => cases b <;> simp [Admits, Contains] <;> decide +kernel
  | _ => simp [Admits, Contains, Setting.same, Setting.number?]

/-- A field passes its test if it is in its range, or if the test overlooks it. -/
theorem admits_iff : r.Admits s ↔ r.Contains s ∨ r.Overlooks s := by
  have hzero : Double.parts (0 : Float) ≠ .notANumber := by simp [Double.parts_zero]
  have hone : Double.parts (1 : Float) ≠ .notANumber := by simp [Double.parts_one]
  cases r with
  | notBelowZero =>
    rw [overlooks_iff (.inl rfl)]
    exact not_below_iff hzero
  | notNegative =>
    rw [overlooks_iff (.inr (.inl rfl))]
    exact not_below_iff hzero
  | notBelowOne =>
    rw [overlooks_iff (.inr (.inr rfl))]
    exact not_below_iff hone
  | oneOrTwo => exact admits_oneOrTwo.trans ⟨.inl, fun h => h.resolve_right nofun⟩
  | _ => exact ⟨.inl, fun h => h.resolve_right nofun⟩

/-- What is overlooked is outside of the range. -/
theorem Overlooks.not_contains (h : r.Overlooks s) : ¬ r.Contains s := by
  have hnan {x bound : Float} (hx : x.isNaN = true) : ¬ bound ≤ x := fun hle =>
    (Double.number_of_le hle).2 (Double.isNaN_iff.mp hx)
  rcases h with hx | hx | hx <;>
    rintro ⟨y, ⟨⟩, hy⟩ <;>
    exact hnan hx hy

end Range

namespace Check

/-- Accepted fields are in their ranges but for those that are overlooked, and a field that is neither is
refused, as a wrong option where all fields can be compared. -/
structure KeepsRanges {α : Type} (cs : List (Check Float)) (x : Except (Failure Float) α) : Prop where
  accepted : ∀ a, x = .ok a → ∀ s r, .field s r ∈ cs → (r.Contains s ↔ ¬ r.Overlooks s)
  refused : (∀ c ∈ cs, ¬ c.IsUnreadable) → ∀ s r, .field s r ∈ cs → ¬ r.Contains s →
    ¬ r.Overlooks s → ∃ f, x = .error (.configuration f)

theorem Answers.keepsRanges {α : Type} {cs : List (Check Float)} {x : Except (Failure Float) α}
    (hx : Answers cs x) : KeepsRanges cs x where
  accepted a ha s r hr := by
    have hadmits : r.Admits s := hx.exists_ok_iff.mp ⟨a, ha⟩ _ hr
    rcases Range.admits_iff.mp hadmits with h | h
    · exact iff_of_true h fun ho => ho.not_contains h
    · exact iff_of_false h.not_contains (not_not_intro h)
  refused hread s r hr hc ho := by
    have hadmits : ¬ r.Admits s := fun h => (Range.admits_iff.mp h).elim hc ho
    cases hx with
    | passed a h => exact absurd (h _ hr) hadmits
    | refused f h hc => exact ⟨f, rfl⟩
    | unfit h hc => exact absurd (isUnreadable_iff.mpr ⟨_, hc⟩) (hread _ h.mem)

/-- What is done after the checks keeps the ranges too. -/
theorem KeepsRanges.bind {α β : Type} {cs : List (Check Float)} {x : Except (Failure Float) α}
    (hx : KeepsRanges cs x) (f : α → Except (Failure Float) β) : KeepsRanges cs (x >>= f) where
  accepted b hb := by
    obtain ⟨a, ha, -⟩ := Outcome.bind_eq_ok.mp hb
    exact hx.accepted a ha
  refused hread s r hr hc ho := by
    obtain ⟨g, hg⟩ := hx.refused hread s r hr hc ho
    exact ⟨g, by rw [hg, Outcome.error_bind]⟩

end Check

/-- The checks of the parts that a configuration has. -/
def Configuration.checks {R : Type} (c : Configuration R) : List (Check R) :=
  c.linearSolver.elim [] LinearSolver.checks ++
    (c.preconditioner.elim [] PreconditionerSpec.checks ++ c.lineSearch.checks)

namespace Options

section Fields

variable {R : Type} [Scalar R] {o : Options R} {kind s : Setting R} {r : Range}
  {built : ConfigurationBuild R}

theorem solver_field {needsMatrix : Option Bool} {found : Option (LinearSolver R)}
    (h : o.solver needsMatrix = .ok found) :
    .field s r ∈ found.elim [] LinearSolver.checks ↔ .field s r ∈ o.solverChecks := by
  unfold solverChecks
  rw [Check.mem_ifGiven, Check.mem_named]
  unfold solver at h
  split at h
  case h_1 hnone =>
    cases h
    simp [hnone]
  case h_2 hne =>
    have hgiven : o.linearSolver ≠ .none := hne
    obtain ⟨solver, hsolver, h⟩ := Outcome.bind_eq_ok.mp h
    obtain ⟨⟨⟩, -, h⟩ := Outcome.bind_eq_ok.mp h
    cases h
    unfold LinearSolver.recognize at hsolver
    split at hsolver
    · cases hsolver
    · obtain ⟨⟨⟩, -, hsolver⟩ := Outcome.bind_eq_ok.mp hsolver
      cases hsolver
      simp [*]

theorem preconditioner_field {found : Option (PreconditionerSpec R)}
    (h : o.preconditionerSpec = .ok found) :
    .field s r ∈ found.elim [] PreconditionerSpec.checks ↔ .field s r ∈ o.preconditionerChecks := by
  unfold preconditionerChecks
  rw [Check.mem_ifGiven, Check.mem_named]
  obtain ⟨accepted, -, h⟩ := Outcome.bind_eq_ok.mp h
  obtain ⟨⟨⟩, -, h⟩ := Outcome.bind_eq_ok.mp h
  by_cases hne : o.preconditioner = .none
  · rw [hne] at h
    cases h
    simp [hne]
  · rw [PreconditionerSpec.recognize_of_ne hne] at h
    split at h
    · cases h
    · cases h
      simp [*]

theorem strategy_field {lineSearch : LineSearchStrategy R} {notices : List Notice}
    (h : o.strategy = .ok (lineSearch, notices)) :
    .field s r ∈ lineSearch.checks ↔ .field s r ∈ o.strategyChecks := by
  unfold strategy at h
  unfold strategyChecks
  split at h
  · cases h
    simp [*, LineSearchStrategy.checks]
  · cases h
    simp [*, LineSearchStrategy.checks]
  · obtain ⟨found, hfound, h⟩ := Outcome.bind_eq_ok.mp h
    cases h
    unfold LineSearchStrategy.recognize at hfound
    split at hfound
    · cases hfound
    · obtain ⟨⟨⟩, -, hfound⟩ := Outcome.bind_eq_ok.mp hfound
      cases hfound
      simp [*, Check.mem_named]

omit [Scalar R] in
theorem field_backendChecks {t : Setting R} : .field s r ∉ backendChecks t := by
  unfold backendChecks
  rw [Check.mem_ifGiven, Check.mem_named]
  simp

/-- The fields of an accepted configuration are the fields of its options. -/
theorem build_field (h : o.build kind = .ok built) :
    .field s r ∈ built.configuration.checks ↔ .field s r ∈ o.checks kind := by
  have hsupplies := build_supplies h
  simp only [Configuration.checks, checks, List.mem_append, List.mem_singleton, reduceCtorEq,
    false_or, field_backendChecks, solver_field hsupplies.solver,
    preconditioner_field hsupplies.preconditioner, strategy_field hsupplies.strategy]

end Fields

/-- The fields of options, of the configuration that is made of them, and of the limits of a run. -/
theorem build_ranges (o : Options Float) (kind : Setting Float) :
    Check.KeepsRanges (o.checks kind) (o.build kind) ∧
      (∀ built, o.build kind = .ok built → ∀ s r,
        .field s r ∈ built.configuration.checks ↔ .field s r ∈ o.checks kind) ∧
      ∀ K F x c, ∀ limits : LimitOptions Float,
        Check.KeepsRanges limits.checks (Formulation.iterate K F x c limits) :=
  ⟨(o.build_answers kind).keepsRanges, fun _ h _ _ => build_field h,
    fun _ _ _ _ limits => limits.validate_answers.keepsRanges.bind _⟩

/-- A tolerance below zero. -/
def negativeTolerance : Options Float :=
  { defaults with linearSolver := .tag .krylovCG [.real (-1), .real 0, .none] }

theorem negativeTolerance_refused :
    ∃ f, negativeTolerance.build (.text "newton") = .error (.configuration f) := by
  have hread : ∀ c ∈ negativeTolerance.checks (.text "newton"), ¬ c.IsUnreadable := by
    simp [checks, solverChecks, preconditionerChecks, backendChecks, strategyChecks, negativeTolerance,
      defaults, Check.ifGiven, Check.named, LinearSolver.ofSetting?, LinearSolver.checks,
      KrylovMethod.checks, Check.IsUnreadable, Range.Reads, Setting.number?]
  have hfield : .field (.real (-1)) .notBelowZero ∈ negativeTolerance.checks (.text "newton") := by
    simp [checks, solverChecks, negativeTolerance, Check.ifGiven, Check.named, LinearSolver.ofSetting?,
      LinearSolver.checks]
  have hbelow : ¬ (0 : Float) ≤ -1 := by decide +kernel
  have hnumber : ¬ (-1 : Float).isNaN = true := by decide +kernel
  refine (build_ranges negativeTolerance (.text "newton")).1.refused hread _ _ hfield ?_ ?_
  · simpa [Range.Contains, Setting.number?] using hbelow
  · rintro ⟨hnan⟩
    exact hnumber hnan

/-- A tolerance that is no number. -/
def undefinedTolerance : Options Float :=
  { defaults with linearSolver := .tag .krylovCG [.real (0 / 0), .real 0, .none] }

theorem undefinedTolerance_accepted : ∃ built, undefinedTolerance.build (.text "newton") = .ok built ∧
    .field (.real (0 / 0)) .notBelowZero ∈ built.configuration.checks ∧
    ¬ Range.notBelowZero.Contains (.real (0 / 0)) := by
  refine ⟨⟨⟨none, .newton, some (.krylov .cg ⟨.real (0 / 0), .real 0, .none⟩), none,
    .fullStep (.text "no_line_search"), none, none, .fail⟩, []⟩, ?_, ?_, ?_⟩
  · rfl
  · simp [Configuration.checks, LinearSolver.checks]
  · exact (Range.Overlooks.zero (by decide +kernel)).not_contains

end Options

end NewtonSolver
