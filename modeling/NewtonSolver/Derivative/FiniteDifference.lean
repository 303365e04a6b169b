import NewtonSolver.Derivative.Backend
import NewtonSolver.Problem.Basic

/-! Jacobians and their products from differences of values. -/
namespace NewtonSolver

/-- How differences are taken. -/
structure DifferenceScheme (R : Type) where
  /-- Whether values on both sides are compared. -/
  central : Bool
  /-- The step relative to the point. -/
  step : R

namespace DifferenceScheme

variable {R : Type} [Scalar R] {m n : Nat}

/-- About the square root of the spacing at one, and the cube root of it for central differences. -/
def defaultStep (central : Bool) : R :=
  if central then Scalar.decimal 6055454452393343 21 else 1 / ((Nat.pow 2 26 : Nat) : R)

def forward : DifferenceScheme R := ⟨false, defaultStep false⟩

omit [Scalar R] in
/-- Any scheme but the central one compares with the value at the point. -/
def isCentral : Setting R → Bool
  | .text s => s == "central"
  | _ => false

/-- The scheme that is asked for, with its own step or the default. -/
def ofFields (scheme step : Setting R) : Except Fault (DifferenceScheme R) :=
  match step with
  | .none => .ok ⟨isCentral scheme, defaultStep (isCentral scheme)⟩
  | step => do return ⟨isCentral scheme, ← step.numberOr step.unreadable⟩

/-- The difference of values over a displacement, by its length `h`. -/
def quotient (S : DifferenceScheme R) (F : Vec R n → Vec R m) (fx : Vec R m) (x displacement : Vec R n)
    (h : R) : Vec R m :=
  if S.central then
    (F (x + displacement) - F (x - displacement)).map (· / (((2 : Nat) : R) * h))
  else (F (x + displacement) - fx).map (· / h)

/-- The step along a direction, scaled so that the length of the direction does not matter. -/
def length (S : DifferenceScheme R) (x v : Vec R n) : R :=
  S.step * (1 + x.norm) / if 0 < v.norm then v.norm else 1

/-- The product of the Jacobian with `v`. -/
def product (S : DifferenceScheme R) (F : Vec R n → Vec R m) (fx : Vec R m) (x v : Vec R n) :
    Vec R m :=
  let h := S.length x v
  S.quotient F fx x (h * v) h

/-- The step along a coordinate. -/
def coordinateLength (S : DifferenceScheme R) (x : Vec R n) (j : Fin n) : R :=
  S.step * Scalar.atLeast 1 (Scalar.abs (x.get j))

def column (S : DifferenceScheme R) (F : Vec R n → Vec R m) (fx : Vec R m) (x : Vec R n) (j : Fin n) :
    Vec R m :=
  let h := S.coordinateLength x j
  S.quotient F fx x (Vector.ofFn fun i => if i = j then h else 0) h

def jacobian (S : DifferenceScheme R) (F : Vec R n → Vec R m) (fx : Vec R m) (x : Vec R n) :
    Mat R m n :=
  Mat.ofColumns (Vector.ofFn (S.column F fx x))

end DifferenceScheme

namespace Residual

variable {R : Type} [Scalar R] {m n : Nat}

/-- Products and stacked columns need a value that is a vector. -/
def requireVector (F : Residual R m n) (otherwise : Misfit) : Except Fault Unit :=
  if F.isBare then .error (.unfit otherwise) else .ok ()

omit [Scalar R] in
theorem requireVector_ok {F : Residual R m n} (h : F.isBare = false) (otherwise : Misfit) :
    F.requireVector otherwise = .ok () := by
  simp [requireVector, h]

omit [Scalar R] in
theorem requireVector_bare {F : Residual R m n} (h : F.isBare = true) (otherwise : Misfit) :
    F.requireVector otherwise = .error (.unfit otherwise) := by
  simp [requireVector, h]

/-- The value at the point, which may be at hand. A bare number serves only where it is compared with a
value that is at hand as a vector. -/
def compared (F : Residual R m n) (S : DifferenceScheme R) (fx : Option (Vec R m)) (x : Vec R n)
    (otherwise : Misfit) : Except Fault (Vec R m) := do
  if S.central || fx.isNone then F.requireVector otherwise
  return fx.getD (F.value x)

def differenceProduct (F : Residual R m n) (S : DifferenceScheme R) (fx : Option (Vec R m))
    (x : Vec R n) : Product R n m := fun v => do
  return S.product F.value (← F.compared S fx x .argument) x v

/-- Numbers have no axis along which they could be stacked as columns. -/
def differenceJacobian (F : Residual R m n) (S : DifferenceScheme R) (fx : Option (Vec R m))
    (x : Vec R n) : Except Fault (Mat R m n) := do
  return S.jacobian F.value (← F.compared S fx x (.axis 1 1)) x

/-- The matrix is made anew for each product. -/
def differenceTransposedProduct (F : Residual R m n) (S : DifferenceScheme R) (fx : Option (Vec R m))
    (x : Vec R n) : Product R m n := fun u => do
  return (← F.differenceJacobian S fx x).vecMul u

end Residual

end NewtonSolver
