import NewtonSolver.LinearSolver.Handle
import NewtonSolver.LineSearch.Strategy

/-! Option values that make no configuration, and everything that can go wrong, by cause. -/
namespace NewtonSolver

/-- The two options that name a way of differentiating. -/
inductive BackendOption where
  | autodiff
  | vjpAutodiff
  deriving DecidableEq

def BackendOption.text : BackendOption → String
  | autodiff => "autodiff"
  | vjpAutodiff => "vjp_autodiff"

inductive ConfigurationFailure (R : Type) where
  | descentKind (found : Setting R)
  | concreteFlag (found : Setting R)
  | linearSolver (found : Setting R)
  | negativeTolerance (solver : LinearSolver R)
  | noIterations (solver : LinearSolver R)
  | noRestart (solver : LinearSolver R)
  | matrixForbidden (solver : LinearSolver R)
  | preconditioner (found : Setting R)
  | backend (role : BackendOption) (found : Setting R)
  | failurePolicy (found : Setting R)
  | lineSearch (found : Setting R)
  | decreaseRange (strategy : LineSearchStrategy R)
  | contractionRange (strategy : LineSearchStrategy R)
  | noTrialSteps (strategy : LineSearchStrategy R)
  | orderRange (strategy : LineSearchStrategy R)
  | noMethod (strategy : LineSearchStrategy R)
  /-- A factorization was given a system without entries. -/
  | matrixMissing (solver : LinearSolver R)
  | notLeastSquares (solver : LinearSolver R)
  | preconditionerPair
  | preconditionerSide (found : String)
  | maxItersKind (found : Setting R)
  | maxItersNegative (found : Int)
  | tolerance (found : Setting R)
  | stepTolerance (found : Setting R)
  | initialShape (found : Shape)
  | sparsityShape (found : Shape)

namespace ConfigurationFailure

variable {R : Type} [Written R]

def message : ConfigurationFailure R → String
  | descentKind v => "Unknown descent kind: " ++ v.written
  | concreteFlag v => "concrete_jac must be True, False or None, got " ++ v.written
  | linearSolver v => "Unknown linear solver: " ++ v.written
  | negativeTolerance s => "Krylov tolerances must be non-negative: " ++ s.toSetting.written
  | noIterations s => "Krylov maxiter must be positive: " ++ s.toSetting.written
  | noRestart s => "GMRES restart must be positive: " ++ s.toSetting.written
  | matrixForbidden s => s.tag.name ++ " needs a materialized Jacobian but concrete_jac=False"
  | preconditioner v => "Unknown preconditioner spec: " ++ v.written
  | backend role v => "Unknown " ++ role.text ++ " backend: " ++ v.written
  | failurePolicy v => "Unknown line_search_failure policy: " ++ v.written
  | lineSearch v => "Unknown line search: " ++ v.written
  | decreaseRange s => "c1 must lie in (0, 1): " ++ s.toSetting.written
  | contractionRange s => "rho must lie in (0, 1): " ++ s.toSetting.written
  | noTrialSteps s => "max_steps must be positive: " ++ s.toSetting.written
  | orderRange s => "order must be 1 or 2: " ++ s.toSetting.written
  | noMethod s => "LineSearchAdapter needs a callable method: " ++ s.toSetting.written
  | matrixMissing s => s.tag.name ++ " needs a materialized matrix"
  | notLeastSquares s => s.tag.name ++ " does not solve least-squares problems"
  | preconditionerPair => "preconditioner callable must return a (left, right) pair"
  | preconditionerSide found => "preconditioner must be callable or None, got " ++ found
  | maxItersKind v => "max_iters must be an int, got " ++ v.written
  | maxItersNegative i => "max_iters must be >= 0, got " ++ toString i
  | tolerance v => "tolerance must be > 0, got " ++ v.written
  | stepTolerance v => "step_tolerance must be >= 0, got " ++ v.written
  | initialShape found => "initial_x must be a vector, got shape " ++ found.text
  | sparsityShape found => "sparsity pattern must be 2D, got shape " ++ found.text

end ConfigurationFailure

inductive Failure (R : Type) where
  | configuration (f : ConfigurationFailure R)
  | differentiation (f : DifferentiationFailure)
  | linearSolve (f : LinearSolveFailure R)
  | lineSearch (f : LineSearchFailure R)
  /-- Compressed products were asked of something that is no dense backend. -/
  | sparseBackend (found : Setting R)
  /-- A linear solve was said to fail for a reason that there is not. -/
  | linearSolveReason (found : String)
  | unfit (misfit : Misfit)

namespace Failure

variable {R : Type}

def ofFault : Fault → Failure R
  | .differentiation f => differentiation f
  | .unfit m => unfit m

/-- The words of a failure, if there are any. -/
def message? [Written R] : Failure R → Option String
  | configuration f => some f.message
  | differentiation f => some f.message
  | linearSolve f => some f.message
  | lineSearch f => some f.message
  | sparseBackend found => some ("Unknown sparse backend: " ++ found.written)
  | linearSolveReason found => some ("Unknown linear solve failure: " ++ found)
  | unfit m => m.message?

end Failure

/-- The linear solve failure for a reason in words, if there is such a reason. -/
def LinearSolveFailure.ofText {R : Type} (reason detail : String) :
    Except (Failure R) (LinearSolveFailure R) :=
  match LinearSolveReason.ofText? reason with
  | some reason => .ok (.reported reason detail)
  | none => .error (.linearSolveReason reason)

/-- The result of a user supplied function, with its failure among all others. -/
def liftFault {R α : Type} : Except Fault α → Except (Failure R) α
  | .ok a => .ok a
  | .error f => .error (.ofFault f)

end NewtonSolver
