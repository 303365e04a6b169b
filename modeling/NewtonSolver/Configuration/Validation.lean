import NewtonSolver.Failure

/-! Which solvers, line searches and limits of a run can be used. Something that compares false with every
bound, as a value that is no number does, is refused by a test for being inside and passed by a test for being
outside. -/
namespace NewtonSolver

variable {R : Type} [Scalar R]

/-- Whether a value is below a bound that is a whole number. -/
def Setting.isBelow (s : Setting R) (bound : R) : Except (Failure R) Bool := do
  return decide ((← liftFault (s.numberOr (.unordered .less s.kind .whole))) < bound)

/-- Whether a value lies strictly between zero and one. -/
def Setting.isInsideUnit (s : Setting R) : Except (Failure R) Bool := do
  let x ← liftFault (s.numberOr (.unordered .less .real s.kind))
  return decide (0 < x) && decide (x < 1)

/-- Raises the failure unless the condition holds. -/
def require (condition : Bool) (otherwise : ConfigurationFailure R) : Except (Failure R) Unit :=
  if condition then .ok () else .error (.configuration otherwise)

namespace LinearSolver

/-- The second tolerance is looked at only when the first is not negative. -/
def hasNegativeTolerance (f : KrylovFields R) : Except (Failure R) Bool := do
  if ← f.tol.isBelow 0 then return true else f.atol.isBelow 0

def hasNoIterations (f : KrylovFields R) : Except (Failure R) Bool :=
  match f.maxiter with
  | .none => .ok false
  | s => s.isBelow 1

def hasNoRestart : KrylovMethod R → Except (Failure R) Bool
  | .gmres restart => restart.isBelow 1
  | _ => .ok false

def validate (solver : LinearSolver R) : Except (Failure R) Unit :=
  match solver with
  | direct _ _ => .ok ()
  | krylov method fields => do
    require (!(← hasNegativeTolerance fields)) (.negativeTolerance solver)
    require (!(← hasNoIterations fields)) (.noIterations solver)
    require (!(← hasNoRestart method)) (.noRestart solver)

/-- What an option value asks for, with usable fields. -/
def recognize (s : Setting R) : Except (Failure R) (LinearSolver R) :=
  match ofSetting? s with
  | none => .error (.configuration (.linearSolver s))
  | some solver => do
    solver.validate
    return solver

end LinearSolver

namespace LineSearchStrategy

def validate (strategy : LineSearchStrategy R) : Except (Failure R) Unit :=
  match strategy with
  | fullStep _ => .ok ()
  | backtracking f => do
    require (← f.decrease.isInsideUnit) (.decreaseRange strategy)
    require (← f.contraction.isInsideUnit) (.contractionRange strategy)
    require (!(← f.maxSteps.isBelow 1)) (.noTrialSteps strategy)
    require (f.order.same (.whole 1) || f.order.same (.whole 2)) (.orderRange strategy)
  | external method => require method.isCallable (.noMethod strategy)

/-- What an option value asks for, with usable fields. -/
def recognize (s : Setting R) : Except (Failure R) (LineSearchStrategy R) :=
  match ofSetting? s with
  | none => .error (.configuration (.lineSearch s))
  | some strategy => do
    strategy.validate
    return strategy

end LineSearchStrategy

/-- The limits of a run as the caller writes them. -/
structure LimitOptions (R : Type) where
  maxIters : Setting R
  tolerance : Setting R
  stepTolerance : Setting R

structure RunLimits (R : Type) where
  /-- Bound on the number of updates. -/
  maxIters : Nat
  /-- Bound on the largest residual entry. -/
  tolerance : R
  /-- Bound on the length of a step. -/
  stepTolerance : R

namespace LimitOptions

def defaults : LimitOptions R := ⟨.whole 100, .real (Scalar.decimal 1 8), .none⟩

def updates (o : LimitOptions R) : Except (Failure R) Nat :=
  match o.maxIters with
  | .whole (.ofNat k) => .ok k
  | .whole i => .error (.configuration (.maxItersNegative i))
  | s => .error (.configuration (.maxItersKind s))

def residualBound (o : LimitOptions R) : Except (Failure R) R := do
  let bound ← liftFault (o.tolerance.numberOr (.unordered .greater o.tolerance.kind .real))
  require (decide (0 < bound)) (.tolerance o.tolerance)
  return bound

/-- A step bound that is left out is the bound on the residual. -/
def stepBound (o : LimitOptions R) (residualBound : R) : Except (Failure R) R :=
  match o.stepTolerance with
  | .none => .ok residualBound
  | s => do
    let bound ← liftFault (s.numberOr (.unordered .less s.kind .real))
    require (!decide (bound < 0)) (.stepTolerance s)
    return bound

def validate (o : LimitOptions R) : Except (Failure R) (RunLimits R) := do
  let maxIters ← o.updates
  let tolerance ← o.residualBound
  return ⟨maxIters, tolerance, ← o.stepBound tolerance⟩

end LimitOptions

end NewtonSolver
