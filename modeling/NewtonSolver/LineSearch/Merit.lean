import NewtonSolver.Problem.Basic

/-! Half the squared residual norm along a direction, and procedures that pick a step length by asking
about it. -/
namespace NewtonSolver.LineSearch

/-- A procedure that asks for values and slopes of the merit function at step lengths of its choice,
and ends with a step length or with none. -/
inductive Method (R : Type) where
  | done (step : Option R)
  | value (alpha : R) (next : R → Method R)
  | slope (alpha : R) (next : R → Method R)
  | both (alpha : R) (next : R → R → Method R)

/-- What a procedure is told at the start. -/
structure Outset (R : Type) where
  alpha : R
  value : R
  slope : R

/-- A question of a procedure with its answer. -/
inductive Exchange (R : Type) where
  | value (alpha answer : R)
  | slope (alpha answer : R)
  | both (alpha value slope : R)

structure Transcript (R : Type) where
  step : Option R
  evaluations : Nat
  exchanges : List (Exchange R)

variable {R : Type} [Scalar R] {m n k : Nat}

def halfSquare (v : Vec R m) : R := Scalar.half * v.sumSquares

/-- The merit function as a search sees it, with the slope at zero that it is told. -/
structure Merit (R : Type) where
  value : R → R
  /-- The slope at any step length but zero. -/
  slope : R → R
  /-- How many evaluations of the residual a slope takes. -/
  slopeCost : Nat
  valueAtZero : R
  slopeAtZero : R

/-- The derivative of the merit function, from a product with the Jacobian. -/
def exactSlope (F : Residual R m n) (x direction : Vec R n) (alpha : R) : R :=
  let y := x + alpha * direction
  Vec.dot (F.value y) (F.forward y direction)

/-- The difference of values a step away on both sides, by its length. -/
def differenceSlope (value : R → R) (alpha : R) : R :=
  let h := Scalar.decimal 6055454452393343 21 * Scalar.atLeast 1 (Scalar.abs alpha)
  (value (alpha + h) - value (alpha - h)) / (((2 : Nat) : R) * h)

/-- The merit function at `x`, where the residual and the slope are known. -/
def Merit.along (F : Residual R m n) (differentiable : Bool) (x direction : Vec R n)
    (residual : Vec R k) (slope : R) : Merit R :=
  let value := fun alpha => halfSquare (F.value (x + alpha * direction))
  { value
    slope := if differentiable then exactSlope F x direction else differenceSlope value
    slopeCost := if differentiable then 1 else 2
    valueAtZero := halfSquare residual
    slopeAtZero := slope }

namespace Merit

/-- The slope at zero is known. -/
def slopeOf (merit : Merit R) (alpha : R) : R :=
  if alpha == 0 then merit.slopeAtZero else merit.slope alpha

def costOfSlope (merit : Merit R) (alpha : R) : Nat :=
  if alpha == 0 then 0 else merit.slopeCost

end Merit

def Transcript.after (t : Transcript R) (exchange : Exchange R) (cost : Nat) : Transcript R :=
  { t with evaluations := cost + t.evaluations, exchanges := exchange :: t.exchanges }

def Method.run (merit : Merit R) : Method R → Transcript R
  | done step => ⟨step, 0, []⟩
  | value alpha next =>
    let v := merit.value alpha
    ((next v).run merit).after (.value alpha v) 1
  | slope alpha next =>
    let d := merit.slopeOf alpha
    ((next d).run merit).after (.slope alpha d) (merit.costOfSlope alpha)
  | both alpha next =>
    let v := merit.value alpha
    let d := merit.slopeOf alpha
    ((next v d).run merit).after (.both alpha v d) (1 + merit.costOfSlope alpha)

end NewtonSolver.LineSearch
