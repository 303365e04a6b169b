import NewtonSolver.Jacobian.Path
import NewtonSolver.LinearSolver.Cache

/-! Where a run stands, what can be seen of it, and what it carries from one update to the next. -/
namespace NewtonSolver

/-- Why a run has failed. -/
inductive RunFailure (R : Type) where
  | nonFiniteResidual
  | differentiation (f : DifferentiationFailure)
  | linearSolve (f : LinearSolveFailure R)
  | lineSearch (f : LineSearchFailure R)
  | reported (text : String)

inductive Status (R : Type) where
  | running
  | converged
  | maxItersReached
  | failed (reason : RunFailure R)

def RunFailure.message {R : Type} [Written R] : RunFailure R → String
  | nonFiniteResidual => "non-finite residual"
  | differentiation f => "differentiation failure: " ++ f.message
  | linearSolve f => "linear solve failure: " ++ f.message
  | lineSearch f => "line search failure: " ++ f.message
  | reported text => text

namespace Status

variable {R : Type}

def code : Status R → String
  | running => "running"
  | converged => "converged"
  | maxItersReached => "max_iters_reached"
  | failed _ => "failed"

def reason [Written R] : Status R → Option String
  | failed reason => some reason.message
  | _ => none

def isTerminal : Status R → Bool
  | running => false
  | _ => true

def hasConverged : Status R → Bool
  | converged => true
  | _ => false

end Status

/-- How much work was done so far. -/
structure Stats where
  /-- Evaluations of the residual, those of line searches included. -/
  evaluations : Nat
  jacobians : Nat
  solves : Nat
  factorizations : Nat
  deriving DecidableEq

structure IterationState (R : Type) (m n : Nat) where
  x : Vec R n
  /-- The residual at `x`; there is none before the first evaluation. -/
  residual : Option (Vec R m)
  /-- The Jacobian that was acquired last. -/
  jacobian : Option (JacobianInfo R m n)
  /-- The number of updates made. -/
  iteration : Nat
  status : Status R
  /-- The step length of the last update, one before the first. -/
  stepLength : R
  stats : Stats

inductive Ending (R : Type) (m n : Nat) where
  | finished (s : IterationState R m n)
  /-- A failure that no state tells. -/
  | escaped (f : Failure R)

/-- The states of a run in their order, and how it ends. -/
structure Run (R : Type) (m n : Nat) where
  running : List (IterationState R m n)
  ending : Ending R m n

namespace Run

variable {R : Type} [Scalar R] {m n : Nat}

/-- The run that makes no update and looks at nothing. -/
def unstarted (x : Vec R n) : Run R m n :=
  ⟨[], .finished ⟨x, none, none, 0, .maxItersReached, 1, ⟨0, 0, 0, 0⟩⟩⟩

def cons (s : IterationState R m n) (r : Run R m n) : Run R m n := { r with running := s :: r.running }

end Run

structure Progress (R : Type) (m n : Nat) where
  x : Vec R n
  jacobian : Option (JacobianInfo R m n)
  iteration : Nat
  stepLength : R
  evaluations : Nat
  jacobians : Nat
  cache : LinearCache R
  /-- How Jacobians are found, once that is settled. -/
  path : Option (JacobianPath R m n)

namespace Progress

variable {R : Type} [Scalar R] {m n : Nat}

def initial (x : Vec R n) : Progress R m n := ⟨x, none, 0, 1, 0, 0, .empty, none⟩

def stats (p : Progress R m n) : Stats :=
  ⟨p.evaluations, p.jacobians, p.cache.solves, p.cache.factorizations⟩

/-- The state as it is seen from outside. -/
def state (p : Progress R m n) (residual : Vec R m) (status : Status R) : IterationState R m n :=
  ⟨p.x, some residual, p.jacobian, p.iteration, status, p.stepLength, p.stats⟩

def countEvaluations (p : Progress R m n) (count : Nat) : Progress R m n :=
  { p with evaluations := p.evaluations + count }

def acquired (p : Progress R m n) (path : JacobianPath R m n) (J : JacobianInfo R m n) :
    Progress R m n :=
  { p with path := some path, jacobian := some J, jacobians := p.jacobians + 1 }

def update (p : Progress R m n) (alpha : R) (direction : Vec R n) : Progress R m n :=
  { p with x := p.x + alpha * direction, iteration := p.iteration + 1, stepLength := alpha }

end Progress

end NewtonSolver
