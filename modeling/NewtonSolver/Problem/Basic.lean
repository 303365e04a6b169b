import NewtonSolver.Expression.Derivative
import NewtonSolver.Operator
import NewtonSolver.Table

/-! Residuals, which are vector functions with their values and exact derivative products, and problems: a
residual with whatever is known of its derivatives. -/
namespace NewtonSolver

structure Residual (R : Type) (m n : Nat) where
  value : Vec R n → Vec R m
  /-- The Jacobian at a point times a vector. -/
  forward : Vec R n → Vec R n → Vec R m
  /-- The transposed Jacobian at a point times a vector. -/
  backward : Vec R n → Vec R m → Vec R n
  /-- The value is a bare number and no vector of length one. -/
  isBare : Bool

namespace Residual

variable {R : Type} [Scalar R] {m n : Nat}

def ofExpressions (es : Vector (Expression R (Fin n)) m) (isBare : Bool) : Residual R m n where
  value x := es.map (·.eval x.get)
  forward x v := es.map (·.forward x.get v.get)
  backward x u := (es.zipWith (fun e g => e.backward x g) u).foldl (· + ·) 0
  isBare := isBare

/-- The residual `A x - b`. -/
def affine (A : Mat R m n) (b : Vec R m) : Residual R m n where
  value x := A.mulVec x - b
  forward _ v := A.mulVec v
  backward _ u := A.vecMul u
  isBare := false

/-- The Jacobian column by column. -/
def forwardJacobian (F : Residual R m n) (x : Vec R n) : Mat R m n :=
  Mat.ofColumns (Vector.ofFn fun j => F.forward x (Vec.unit j))

/-- The Jacobian row by row. -/
def backwardJacobian (F : Residual R m n) (x : Vec R n) : Mat R m n :=
  Vector.ofFn fun i => F.backward x (Vec.unit i)

end Residual

structure Problem (R : Type) (m n : Nat) where
  residual : Residual R m n
  /-- The Jacobian at a point, which may be refused. -/
  jacobian : Option (Vec R n → Except Fault (Table R))
  /-- Products of the Jacobian at a point. -/
  products : Option (Vec R n → Product R n m)
  /-- Products of the transposed Jacobian at a point. -/
  transposedProducts : Option (Vec R n → Product R m n)
  sparsity : Option (Table Bool)
  /-- Whether the residual has automatic derivatives. -/
  traceable : Bool

end NewtonSolver
