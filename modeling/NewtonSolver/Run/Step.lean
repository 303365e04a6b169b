import NewtonSolver.Descent.Direction
import NewtonSolver.LineSearch.Select
import NewtonSolver.Configuration.Validation
import NewtonSolver.Run.State

/-! One update of a run, in stages that may each end it. -/
namespace NewtonSolver

structure Setup (R : Type) (m n : Nat) where
  kernels : Kernels R
  problem : Problem R m n
  configuration : Configuration R
  limits : RunLimits R

/-- A point whose residual is finite and above the bound. -/
structure Visit (R : Type) (m n : Nat) where
  progress : Progress R m n
  residual : Vec R m

/-- A visited point with a direction that is longer than the bound. -/
structure Heading (R : Type) (m n : Nat) where
  progress : Progress R m n
  residual : Vec R m
  jacobian : JacobianInfo R m n
  direction : Vec R n

variable {R : Type} [Scalar R] {m n : Nat}

/-- The result of a stage, or the end of the run. -/
abbrev Stage (R : Type) (m n : Nat) (α : Type) := Except (Ending R m n) α

def Progress.finish {α : Type} (p : Progress R m n) (residual : Vec R m) (status : Status R) :
    Stage R m n α :=
  .error (.finished (p.state residual status))

namespace Visit

def state (v : Visit R m n) : IterationState R m n := v.progress.state v.residual .running

end Visit

namespace Heading

/-- The slope of the merit function, which full steps do not need. -/
def slope (h : Heading R m n) (strategy : LineSearchStrategy R) : Except Fault R :=
  if strategy.isFullStep then .ok 0 else do return Vec.dot h.residual (← h.jacobian.apply h.direction)

end Heading

namespace Setup

/-- Evaluates the residual, and goes on if that does not end the run. -/
def visit (S : Setup R m n) (p : Progress R m n) : Stage R m n (Visit R m n) :=
  let residual := S.problem.residual.value p.x
  let p := p.countEvaluations 1
  if residual.allFinite then
    if residual.maxAbs ≤ S.limits.tolerance then p.finish residual .converged
    else .ok ⟨p, residual⟩
  else p.finish residual (.failed .nonFiniteResidual)

/-- The path of the run, which is settled at the first visited point. -/
def pathAt (S : Setup R m n) (v : Visit R m n) : Except Fault (JacobianPath R m n) :=
  match v.progress.path with
  | some path => .ok path
  | none => S.problem.resolvePath S.configuration v.progress.x

def jacobianAt (S : Setup R m n) (v : Visit R m n) :
    Except Fault (JacobianPath R m n × JacobianInfo R m n) := do
  let path ← S.pathAt v
  return (path, ← S.problem.acquire S.configuration path v.progress.x v.residual)

/-- The direction from a Jacobian of the path. The numbers of rows and columns are taken first, and a
matrix without an axis for the equations has one of them. -/
def direct (S : Setup R m n) (path : JacobianPath R m n) (J : JacobianInfo R m n) (residual : Vec R m)
    (cache : LinearCache R) : Except (Failure R) (Descent R n) × LinearCache R :=
  if path.lacksRows then (.error (.unfit (.tooFew 2 1)), cache)
  else Descent.compute S.kernels S.configuration path.linearSolver J residual cache

/-- Computes the direction, and goes on if it is longer than the bound. -/
def head (S : Setup R m n) (v : Visit R m n) (path : JacobianPath R m n) (J : JacobianInfo R m n) :
    Stage R m n (Heading R m n) :=
  let p := v.progress.acquired path J
  let (outcome, cache) := S.direct path J v.residual p.cache
  let p := { p with cache }
  match outcome with
  | .error (.differentiation f) => p.finish v.residual (.failed (.differentiation f))
  | .error f => .error (.escaped f)
  | .ok ⟨_, some f⟩ => p.finish v.residual (.failed (.linearSolve f))
  | .ok ⟨direction, none⟩ =>
    if direction.norm ≤ S.limits.stepTolerance then p.finish v.residual .converged
    else .ok ⟨p, v.residual, J, direction⟩

/-- Acquires the Jacobian and computes the direction. -/
def aim (S : Setup R m n) (v : Visit R m n) : Stage R m n (Heading R m n) :=
  match S.jacobianAt v with
  | .error (.differentiation f) =>
    v.progress.finish v.residual (.failed (.differentiation f))
  | .error (.unfit misfit) => .error (.escaped (.unfit misfit))
  | .ok (path, J) => S.head v path J

/-- What becomes of a step length that was not found. -/
def recover (S : Setup R m n) (h : Heading R m n) (p : Progress R m n) (f : LineSearchFailure R) :
    Stage R m n (Progress R m n) :=
  match S.configuration.policy with
  | .fail => p.finish h.residual (.failed (.lineSearch f))
  | .halve => .ok (p.update (Scalar.half * p.stepLength) h.direction)

/-- Selects the step length and makes the update. -/
def advance (S : Setup R m n) (h : Heading R m n) : Stage R m n (Progress R m n) :=
  match h.slope S.configuration.lineSearch with
  | .error f => .error (.escaped (.ofFault f))
  | .ok slope =>
    let selection := LineSearch.select S.configuration.lineSearch <|
      .along S.problem.residual S.problem.traceable h.progress.x h.direction h.residual slope
    let p := h.progress.countEvaluations selection.evaluations
    match selection.step with
    | .ok alpha => .ok (p.update alpha h.direction)
    | .error (.lineSearch f) => S.recover h p f
    | .error f => .error (.escaped f)

end Setup

end NewtonSolver
