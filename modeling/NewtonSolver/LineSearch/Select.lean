import NewtonSolver.Failure

/-! The step length along a direction: shortening a step until the merit function has decreased enough, and
all other strategies. -/
namespace NewtonSolver.LineSearch

structure Backtracking (R : Type) where
  /-- The part of the predicted decrease that is enough. -/
  decrease : R
  /-- The part of a step that is tried next. -/
  contraction : R
  maxSteps : Nat
  /-- Whether the next step is sought at the minimum of a quadratic. -/
  quadratic : Bool

namespace Backtracking

variable {R : Type} [Scalar R]

def ofFields (f : BacktrackingFields R) : Except Fault (Backtracking R) := do
  let maxSteps ← f.maxSteps.wholeNumberOr (.noInteger f.maxSteps.kind)
  return ⟨← f.decrease.number, ← f.contraction.number, maxSteps.toNat, f.order.same (.whole 2)⟩

/-- Enough decrease, by the slope at zero. A value that is not finite is never enough. -/
def accepts (s : Backtracking R) (merit : Merit R) (alpha value : R) : Bool :=
  Scalar.isFinite value &&
    decide (value ≤ merit.valueAtZero + s.decrease * alpha * merit.slopeAtZero)

/-- The minimizer of the quadratic with the value and slope at zero and the value at `alpha`. -/
def interpolate (merit : Merit R) (alpha value : R) : R :=
  let fall := -merit.slopeAtZero * (alpha * alpha)
  let curvature := value - merit.valueAtZero - merit.slopeAtZero * alpha
  fall / (((2 : Nat) : R) * curvature)

/-- The step to try after `alpha`, between a tenth of it and the contracted one. -/
def shorten (s : Backtracking R) (merit : Merit R) (alpha value : R) : R :=
  if s.quadratic && Scalar.isFinite value then
    Scalar.atMost (Scalar.atLeast (interpolate merit alpha value) (Scalar.decimal 1 1 * alpha))
      (s.contraction * alpha)
  else s.contraction * alpha

/-- The first step that is accepted, with the number of values looked at. -/
def search (s : Backtracking R) (merit : Merit R) : Nat → R → Option R × Nat
  | 0, _ => (none, 0)
  | steps + 1, alpha =>
    let value := merit.value alpha
    if s.accepts merit alpha value then (some alpha, 1)
    else
      let (found, count) := s.search merit steps (s.shorten merit alpha value)
      (found, count + 1)

end Backtracking

/-- A slope along which the merit function goes down. -/
def isDescent {R : Type} [Scalar R] (slope : R) : Bool :=
  Scalar.isFinite slope && !decide (0 ≤ slope)

/-- The step length or why there is none, and what it took to find out. -/
structure Selection (R : Type) where
  step : Except (Failure R) R
  evaluations : Nat
  /-- What a procedure of the caller asked and was told. -/
  exchanges : List (Exchange R)

variable {R : Type} [Scalar R] {m n : Nat}

def backtrack (fields : BacktrackingFields R) (merit : Merit R) : Selection R :=
  if isDescent merit.slopeAtZero then
    match Backtracking.ofFields fields with
    | .error f => ⟨.error (.ofFault f), 0, []⟩
    | .ok s =>
      match s.search merit s.maxSteps 1 with
      | (some alpha, count) => ⟨.ok alpha, count, []⟩
      | (none, count) => ⟨.error (.lineSearch (.noDecrease fields.maxSteps)), count, []⟩
  else ⟨.error (.lineSearch (.notDescent merit.slopeAtZero)), 0, []⟩

/-- Only a positive finite step can be used. -/
def usable : Option R → Except (Failure R) R
  | none => .error (.lineSearch .noStep)
  | some alpha =>
    if !Scalar.isFinite alpha || decide (alpha ≤ 0) then
      .error (.lineSearch (.unusableStep alpha))
    else .ok alpha

def consult (method : Setting R) (merit : Merit R) : Selection R :=
  match method with
  | .callable (.lineSearch _ run) =>
    let t := (run ⟨1, merit.valueAtZero, merit.slopeAtZero⟩).run merit
    ⟨usable t.step, t.evaluations, t.exchanges⟩
  | .callable _ => ⟨.error (.unfit .argument), 0, []⟩
  | method => ⟨.error (.unfit (.noFunction method.kind)), 0, []⟩

def select (strategy : LineSearchStrategy R) (merit : Merit R) : Selection R :=
  match strategy with
  | .fullStep _ => ⟨.ok 1, 0, []⟩
  | .backtracking fields => backtrack fields merit
  | .external method => consult method merit

end NewtonSolver.LineSearch
