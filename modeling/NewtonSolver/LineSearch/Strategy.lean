import NewtonSolver.Setting

/-! The line searches that can be asked for, and why one gives no step length. -/
namespace NewtonSolver

/-- What guides backtracking, as the caller wrote it. -/
structure BacktrackingFields (R : Type) where
  decrease : Setting R
  contraction : Setting R
  maxSteps : Setting R
  order : Setting R

inductive LineSearchStrategy (R : Type) where
  | fullStep (name : Setting R)
  | backtracking (fields : BacktrackingFields R)
  | external (method : Setting R)

namespace LineSearchStrategy

variable {R : Type}

def ofSetting? : Setting R → Option (LineSearchStrategy R)
  | .tag .noLineSearch [name] => some (fullStep name)
  | .tag .backtrackingLineSearch [c1, rho, maxSteps, order] =>
    some (backtracking ⟨c1, rho, maxSteps, order⟩)
  | .tag .lineSearchAdapter [method] => some (external method)
  | _ => none

def toSetting : LineSearchStrategy R → Setting R
  | fullStep name => .tag .noLineSearch [name]
  | backtracking f => .tag .backtrackingLineSearch [f.decrease, f.contraction, f.maxSteps, f.order]
  | external method => .tag .lineSearchAdapter [method]

def isFullStep : LineSearchStrategy R → Bool
  | fullStep _ => true
  | _ => false

end LineSearchStrategy

inductive LineSearchFailure (R : Type) where
  | notDescent (slope : R)
  | noDecrease (maxSteps : Setting R)
  | noStep
  | unusableStep (alpha : R)

def LineSearchFailure.message {R : Type} [Written R] : LineSearchFailure R → String
  | notDescent slope => "direction is not a descent direction (slope " ++ Written.brief slope ++ ")"
  | noDecrease maxSteps => "no sufficient decrease within " ++ maxSteps.written ++ " trial steps"
  | noStep => "external line search returned no step"
  | unusableStep alpha => "external line search returned step " ++ Written.text alpha

end NewtonSolver
