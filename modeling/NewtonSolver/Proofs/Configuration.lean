import NewtonSolver.Configuration.Build
import NewtonSolver.Proofs.Outcome

/-! What is known of a configuration that was accepted, from the checks that its options have passed. -/
namespace NewtonSolver

variable {R : Type} [Scalar R]

theorem DescentKind.eq_newton {kind : DescentKind} (h : kind ≠ .gaussNewton) : kind = .newton := by
  cases kind with
  | newton => rfl
  | gaussNewton => exact absurd rfl h

/-- The configuration has what the options ask for, as each of them was looked at. -/
structure Options.Supplies (o : Options R) (built : ConfigurationBuild R) : Prop where
  solver : o.solver built.configuration.needsMatrix = .ok built.configuration.linearSolver
  preconditioner : o.preconditionerSpec = .ok built.configuration.preconditioner
  strategy : o.strategy = .ok (built.configuration.lineSearch, built.notices)

omit [Scalar R] in
theorem require_eq_ok {condition : Bool} {f : ConfigurationFailure R} :
    require condition f = .ok () ↔ condition = true := by
  cases condition <;> simp [require]

/-- A search with the fields that are left out is accepted if these lie where they should. -/
theorem LineSearchStrategy.recognize_defaults
    (hd : (Setting.real (Scalar.decimal 1 4) : Setting R).isInsideUnit = .ok true)
    (hc : (Setting.real (Scalar.decimal 5 1) : Setting R).isInsideUnit = .ok true)
    (hs : (Setting.whole 20 : Setting R).isBelow 1 = .ok false) :
    recognize (Tag.backtrackingLineSearch.setting fun _ => none) = .ok (.backtracking (R := R)
      ⟨.real (Scalar.decimal 1 4), .real (Scalar.decimal 5 1), .whole 20, .whole 2⟩) := by
  simp [Tag.setting, Tag.defaults, recognize, ofSetting?, validate, require, hd, hc, hs, Setting.same]

namespace Options

variable {o : Options R} {kind : Setting R} {built : ConfigurationBuild R}

/-- What the options are accepted for, option by option. -/
theorem build_eq_ok : o.build kind = .ok built ↔
    DescentKind.ofSetting kind = .ok built.configuration.kind ∧
      o.needsMatrix = .ok built.configuration.needsMatrix ∧
      o.solver built.configuration.needsMatrix = .ok built.configuration.linearSolver ∧
      o.preconditionerSpec = .ok built.configuration.preconditioner ∧
      backend .autodiff o.autodiff = .ok built.configuration.jacobianBackend ∧
      backend .vjpAutodiff o.vjpAutodiff = .ok built.configuration.transposedBackend ∧
      FailurePolicy.ofSetting o.policy = .ok built.configuration.policy ∧
      o.strategy = .ok (built.configuration.lineSearch, built.notices) := by
  constructor
  · intro h
    obtain ⟨kind, hkind, h⟩ := Outcome.bind_eq_ok.mp h
    obtain ⟨needsMatrix, hneeds, h⟩ := Outcome.bind_eq_ok.mp h
    obtain ⟨solver, hsolver, h⟩ := Outcome.bind_eq_ok.mp h
    obtain ⟨preconditioner, hpre, h⟩ := Outcome.bind_eq_ok.mp h
    obtain ⟨jacobianBackend, hj, h⟩ := Outcome.bind_eq_ok.mp h
    obtain ⟨transposedBackend, ht, h⟩ := Outcome.bind_eq_ok.mp h
    obtain ⟨policy, hp, h⟩ := Outcome.bind_eq_ok.mp h
    obtain ⟨⟨strategy, notices⟩, hs, h⟩ := Outcome.bind_eq_ok.mp h
    cases h
    exact ⟨hkind, hneeds, hsolver, hpre, hj, ht, hp, hs⟩
  · rintro ⟨hkind, hneeds, hsolver, hpre, hj, ht, hp, hs⟩
    simp [build, hkind, hneeds, hsolver, hpre, hj, ht, hp, hs]

theorem build_supplies (h : build kind o = .ok built) : o.Supplies built := by
  obtain ⟨-, -, hsolver, hpre, -, -, -, hs⟩ := build_eq_ok.mp h
  exact ⟨hsolver, hpre, hs⟩

theorem strategy_validate {lineSearch : LineSearchStrategy R} {notices : List Notice}
    (h : o.strategy = .ok (lineSearch, notices)) : lineSearch.validate = .ok () := by
  unfold strategy at h
  split at h
  · cases h
    rfl
  · cases h
    rfl
  · obtain ⟨found, hfound, h⟩ := Outcome.bind_eq_ok.mp h
    cases h
    unfold LineSearchStrategy.recognize at hfound
    split at hfound
    · cases hfound
    · obtain ⟨⟨⟩, hv, hfound⟩ := Outcome.bind_eq_ok.mp hfound
      cases hfound
      exact hv

/-- A configuration that is accepted has a search with usable fields. -/
theorem build_validate (h : build kind o = .ok built) :
    built.configuration.lineSearch.validate = .ok () :=
  strategy_validate (build_supplies h).strategy

/-- A solver that needs the entries of matrices is accepted only where these are not ruled out. -/
theorem solver_needsMatrix {needsMatrix : Option Bool} {solver : LinearSolver R}
    (h : o.solver needsMatrix = .ok (some solver)) (hneeds : solver.requiresMatrix = true) :
    needsMatrix ≠ some false := by
  rintro rfl
  unfold Options.solver at h
  split at h
  · cases h
  · obtain ⟨found, -, h⟩ := Outcome.bind_eq_ok.mp h
    obtain ⟨⟨⟩, hrequire, h⟩ := Outcome.bind_eq_ok.mp h
    cases h
    simp [require_eq_ok, hneeds] at hrequire

theorem default_requiresMatrix (kind : DescentKind) (concrete square : Bool) :
    (LinearSolver.default (R := R) kind concrete square).requiresMatrix = concrete := by
  cases concrete <;> simp only [LinearSolver.default] <;> split <;> rfl

/-- Solvers that need matrices are used only where Jacobians are matrices. -/
theorem build_concrete (h : build kind o = .ok built) {m n : Nat}
    (hneeds : (built.configuration.solverFor m n).requiresMatrix = true) :
    built.configuration.concrete = true := by
  have hsolver := (build_supplies h).solver
  cases hl : built.configuration.linearSolver with
  | none => simpa [Configuration.solverFor, hl, default_requiresMatrix] using hneeds
  | some solver =>
    rw [hl] at hsolver
    have hs : solver.requiresMatrix = true := by simpa [Configuration.solverFor, hl] using hneeds
    have hnot := solver_needsMatrix hsolver hs
    cases hm : built.configuration.needsMatrix with
    | none => simpa [Configuration.concrete, hm, hl] using hs
    | some b =>
      rw [hm] at hnot
      cases b with
      | false => exact absurd rfl hnot
      | true => simp [Configuration.concrete, hm]

end Options

end NewtonSolver
