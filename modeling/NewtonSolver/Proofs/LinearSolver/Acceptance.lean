import NewtonSolver.Descent.Direction
import NewtonSolver.Proofs.Outcome

/-! What is known of a vector that an iteration is allowed to return, and of the Newton step made of it.
The test compares once, so a residual that compares false with everything passes. -/
namespace NewtonSolver

variable {R : Type} [Scalar R] {m n : Nat} {K : Kernels R} {method : KrylovMethod R}
  {fields : KrylovFields R}

/-- A vector that is finite, and whose residual is not found to be above the slack times the bound. -/
structure Accepted (limits : Krylov.Limits R) (A : Product R n n) (b x image : Vec R n) : Prop where
  finite : x.allFinite = true
  applied : A x = .ok image
  tested : ¬ Iterative.slack * Iterative.target limits b < (image - b).norm

theorem checkFinite_ok {x y : Vec R n} (h : checkFinite x = .ok y) : y = x ∧ x.allFinite = true := by
  unfold checkFinite at h
  split at h
  case isTrue hf =>
    cases h
    exact ⟨rfl, hf⟩
  case isFalse => cases h

namespace Iterative

variable {limits : Krylov.Limits R} {system : System R n} {P : Preconditioners R n} {b x : Vec R n}

theorem checkResidual_ok {y image : Vec R n} (h : checkResidual method limits b x image = .ok y) :
    y = x ∧ ¬ slack * target limits b < (image - b).norm := by
  unfold checkResidual at h
  dsimp only at h
  split at h
  case isTrue => cases h
  case isFalse ht =>
    cases h
    exact ⟨rfl, ht⟩

theorem solve_ok (h : solve K method fields system P b = .ok x) :
    ∃ limits image, fields.limits n = .ok limits ∧ Accepted limits system.apply b x image := by
  obtain ⟨limits, hl, h⟩ := Outcome.bind_eq_ok.mp h
  obtain ⟨y, -, h⟩ := Outcome.bind_eq_ok.mp h
  obtain ⟨z, hz, h⟩ := Outcome.bind_eq_ok.mp h
  obtain ⟨image, hi, hc⟩ := Outcome.bind_eq_ok.mp h
  obtain ⟨rfl, hf⟩ := checkFinite_ok hz
  obtain ⟨rfl, ht⟩ := checkResidual_ok hc
  exact ⟨limits, image, liftFault_eq_ok.mp hl, hf, liftFault_eq_ok.mp hi, ht⟩

end Iterative

theorem KrylovFields.limits_ok {limits : Krylov.Limits R} {size : Nat}
    (h : fields.limits size = .ok limits) :
    fields.tol.number = .ok limits.tol ∧ fields.atol.number = .ok limits.atol := by
  obtain ⟨tol, ht, h⟩ := Outcome.bind_eq_ok.mp h
  obtain ⟨atol, ha, h⟩ := Outcome.bind_eq_ok.mp h
  obtain ⟨steps, -, h⟩ := Outcome.bind_eq_ok.mp h
  cases h
  exact ⟨ht, ha⟩

namespace Descent

variable {c : Configuration R} {cache : LinearCache R} {d : Vec R n}

theorem solveWith_ok {system : HeldSystem R n} {b : Vec R n} {spec : Option (PreconditionerSpec R)}
    (h : (solveWith K spec (.krylov method fields) system b cache).1 = .ok d) :
    ∃ limits image, fields.limits n = .ok limits ∧
      Accepted limits system.system.apply b d image := by
  unfold solveWith at h
  cases hp : PreconditionerSpec.build? spec system.system with
  | error f => simp [hp] at h
  | ok P =>
    simp only [hp] at h
    exact Iterative.solve_ok h

/-- The system that is solved has the products of the Jacobian. -/
theorem root_ok {J : JacobianInfo R n n} {b : Vec R n} {spec : Option (PreconditionerSpec R)}
    (h : (root K spec (.krylov method fields) J b cache).1 = .ok d) :
    ∃ limits image, fields.limits n = .ok limits ∧ Accepted limits J.apply b d image := by
  cases J with
  | matrix J => exact solveWith_ok h
  | operator J => exact solveWith_ok h

/-- A direction solves the linear model with the Jacobian that an iteration works with. -/
theorem compute_solved {solver : LinearSolver R} {J : JacobianInfo R m n} {r : Vec R m}
    (h : (compute K c solver J r cache).1 = .ok ⟨d, none⟩) :
    ∃ J', settle J = .ok J' ∧ (solveModel K c solver J' (-r) cache).1 = .ok d := by
  unfold compute at h
  split at h
  case h_1 => cases h
  case h_2 J' hs =>
    refine ⟨J', hs, ?_⟩
    split at h
    case h_1 d' _ hd =>
      cases h
      exact congrArg Prod.fst hd
    case h_2 => cases h
    case h_3 => cases h

theorem compute_of_solved {solver : LinearSolver R} {A : Mat R m n} {r : Vec R m}
    (h : (solveModel K c solver (.matrix A) (-r) cache).1 = .ok d) :
    (compute K c solver (.matrix A) r cache).1 = .ok ⟨d, none⟩ := by
  simp only [compute, settle]
  split
  case h_1 d' _ hd =>
    rw [hd] at h
    cases h
    rfl
  case h_2 hd =>
    rw [hd] at h
    cases h
  case h_3 hd =>
    rw [hd] at h
    cases h

/-- A Newton step by an iteration was accepted for the Jacobian that the iteration works with. -/
theorem compute_krylov_ok {J : JacobianInfo R n n} {r : Vec R n} (hk : c.kind = .newton)
    (h : (compute K c (.krylov method fields) J r cache).1 = .ok ⟨d, none⟩) :
    ∃ J' limits image, settle J = .ok J' ∧ fields.limits n = .ok limits ∧
      Accepted limits J'.apply (-r) d image := by
  obtain ⟨J', hs, hmodel⟩ := compute_solved h
  have hm : solveModel K c (.krylov method fields) J' (-r) cache =
      root K c.preconditioner (.krylov method fields) J' (-r) cache := by
    simp [solveModel, hk]
  rw [hm] at hmodel
  obtain ⟨limits, image, hl, ha⟩ := root_ok hmodel
  exact ⟨J', limits, image, hs, hl, ha⟩

section Operator

variable {solver : LinearSolver R} {spec : Option (PreconditionerSpec R)}

/-- Whatever solves a system from its products alone has applied it to the solution. -/
theorem solveWith_operator_ok {A : Product R n n} {b : Vec R n}
    (h : (solveWith K spec solver (.operator A) b cache).1 = .ok d) : ∃ image, A d = .ok image := by
  cases solver with
  | krylov method fields =>
    obtain ⟨limits, image, -, ha⟩ := solveWith_ok h
    exact ⟨image, ha.applied⟩
  | direct f name =>
    unfold solveWith at h
    split at h <;> cases h

/-- Products serve for the normal equations only. -/
theorem leastSquares_operator (op : JacobianOperator R m n) (b : Vec R m) (cache : LinearCache R) :
    leastSquares K spec solver (.operator op) b cache =
      normalEquations K spec solver (.operator op) b cache := by
  simp [leastSquares]

theorem leastSquares_operator_ok {op : JacobianOperator R m n} {b : Vec R m}
    (h : (leastSquares K spec solver (.operator op) b cache).1 = .ok d) :
    ∃ image, op.apply d = .ok image := by
  simp only [leastSquares_operator, normalEquations] at h
  split at h
  case h_1 => cases h
  case h_2 =>
    obtain ⟨image, hi⟩ := solveWith_operator_ok h
    obtain ⟨u, hu, -⟩ := Outcome.bind_eq_ok.mp hi
    exact ⟨u, hu⟩

/-- A direction from products that may be called was multiplied by the Jacobian. -/
theorem compute_operator_ok {op : JacobianOperator R m n} {r : Vec R m} (ht : op.traceable = true)
    (h : (compute K c solver (.operator op) r cache).1 = .ok ⟨d, none⟩) :
    ∃ image, op.apply d = .ok image := by
  obtain ⟨J', hs, hmodel⟩ := compute_solved h
  obtain rfl : JacobianInfo.operator op = J' := by simpa [settle, ht] using hs
  unfold solveModel at hmodel
  split at hmodel
  · next hmn =>
    subst hmn
    split at hmodel
    · exact solveWith_operator_ok hmodel
    · exact leastSquares_operator_ok hmodel
  · exact leastSquares_operator_ok hmodel

end Operator

end Descent

end NewtonSolver
