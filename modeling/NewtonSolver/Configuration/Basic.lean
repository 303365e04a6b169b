import NewtonSolver.Derivative.Backend
import NewtonSolver.LinearSolver.Handle
import NewtonSolver.LineSearch.Strategy
import NewtonSolver.Preconditioner

/-! What an algorithm is configured with. -/
namespace NewtonSolver

/-- What becomes of a run in which a line search fails. -/
inductive FailurePolicy where
  /-- The run ends. -/
  | fail
  /-- The run goes on with half the step length before. -/
  | halve
  deriving DecidableEq

def FailurePolicy.text : FailurePolicy → String
  | fail => "fail"
  | halve => "halve"

structure Configuration (R : Type) where
  /-- Whether Jacobians are matrices, where that is decided. -/
  needsMatrix : Option Bool
  kind : DescentKind
  /-- Where none is given it is chosen for each problem. -/
  linearSolver : Option (LinearSolver R)
  preconditioner : Option (PreconditionerSpec R)
  lineSearch : LineSearchStrategy R
  jacobianBackend : Option (Backend R)
  /-- How transposed products are found. -/
  transposedBackend : Option (Backend R)
  policy : FailurePolicy

namespace Configuration

variable {R : Type}

/-- The backend of the Jacobian, if it serves for products along a direction. -/
def productBackend (c : Configuration R) : Option (Backend R) :=
  c.jacobianBackend.filter (·.mode = .forward)

/-- Jacobians are matrices by decision, or because the solver needs them or is not yet chosen. -/
def concrete (c : Configuration R) : Bool :=
  c.needsMatrix.getD <| match c.linearSolver with
    | none => true
    | some s => s.requiresMatrix

/-- The solver that is given, or the one that suits the shape of the Jacobian. -/
def solverFor [Scalar R] (c : Configuration R) (m n : Nat) : LinearSolver R :=
  c.linearSolver.getD (.default c.kind c.concrete (m = n))

/-- Whether steps are taken to a least squares point. -/
def leastSquares (c : Configuration R) (m n : Nat) : Bool := c.kind = .gaussNewton || m ≠ n

end Configuration

end NewtonSolver
