/-! The arithmetic that the solvers are written over. -/
namespace NewtonSolver

/-- The numbers a solve computes with. Comparisons are decided, and a number that compares false with
everything is allowed, so a test and the negation of the opposite test are different things. -/
class Scalar (R : Type) extends Zero R, One R, Add R, Sub R, Mul R, Div R, Neg R, LT R, LE R, BEq R,
    NatCast R, IntCast R where
  decideLt (a b : R) : Decidable (a < b)
  decideLe (a b : R) : Decidable (a ≤ b)
  /-- `decimal m e` is the number nearest to `m · 10⁻ᵉ`. -/
  decimal (m e : Nat) : R
  /-- The least whole number that is not below the argument. -/
  ceil (x : R) : Int
  isFinite (x : R) : Bool
  abs (x : R) : R
  sqrt (x : R) : R
  exp (x : R) : R
  log (x : R) : R
  sin (x : R) : R
  cos (x : R) : R
  tan (x : R) : R
  tanh (x : R) : R
  atan (x : R) : R

namespace Scalar

variable {R : Type} [Scalar R]

instance (a b : R) : Decidable (a < b) := decideLt a b
instance (a b : R) : Decidable (a ≤ b) := decideLe a b

/-- The spacing of double precision numbers at one. -/
def epsilon : R := 1 / ((Nat.pow 2 52 : Nat) : R)

def half : R := decimal 5 1

/-- The first argument unless the second is above it. -/
def atLeast (x bound : R) : R := if x < bound then bound else x

/-- The first argument unless the second is below it. -/
def atMost (x bound : R) : R := if bound < x then bound else x

/-- The larger argument, and an argument that is no number if there is one. -/
def larger (x y : R) : R := if x == x then (if y == y then atLeast x y else y) else x

/-- The smaller argument, and an argument that is no number if there is one. -/
def smaller (x y : R) : R := if x == x then (if y == y then atMost x y else y) else x

/-- A whole power, by repeated multiplication; a negative power is the reciprocal of the positive one. -/
def pow (x : R) : Int → R
  | .ofNat k => natPow x k
  | .negSucc k => 1 / natPow x (k + 1)
where
  natPow (x : R) : Nat → R
    | 0 => 1
    | 1 => x
    | k + 2 => natPow x (k + 1) * x

end Scalar

instance : Scalar Float where
  natCast := Float.ofNat
  intCast := Float.ofInt
  zero := 0.0
  one := 1.0
  decideLt := inferInstance
  decideLe := inferInstance
  decimal m e := Float.ofScientific m true e
  ceil x := x.ceil.toInt64.toInt
  isFinite := Float.isFinite
  abs := Float.abs
  sqrt := Float.sqrt
  exp := Float.exp
  log := Float.log
  sin := Float.sin
  cos := Float.cos
  tan := Float.tan
  tanh := Float.tanh
  atan := Float.atan

end NewtonSolver
