import NewtonSolver.Jacobian.Products

/-! What is known of a Jacobian at one point, and how the Jacobians of one run are found, which is settled at
its first point. -/
namespace NewtonSolver

structure JacobianOperator (R : Type) (m n : Nat) where
  apply : Product R n m
  applyTranspose : Product R m n
  /-- Whether an iteration may call the products as it goes, or gets a matrix made from them. -/
  traceable : Bool

inductive JacobianInfo (R : Type) (m n : Nat) where
  | matrix (J : Mat R m n)
  | operator (J : JacobianOperator R m n)

structure JacobianPath (R : Type) (m n : Nat) where
  linearSolver : LinearSolver R
  source : JacobianSource
  /-- The matrix at a point; a path without gives products only. -/
  materialize : Option (Materializer R m n)
  /-- Whether the steps of the run need transposed products. -/
  needsTranspose : Bool
  /-- Whether the matrices come without an axis for the equations, as their only row. -/
  lacksRows : Bool

variable {R : Type} [Scalar R] {m n : Nat}

namespace JacobianInfo

def apply : JacobianInfo R m n → Product R n m
  | matrix J => fun v => .ok (J.mulVec v)
  | operator J => J.apply

end JacobianInfo

namespace JacobianOperator

/-- The matrix, column by column. -/
def columns (J : JacobianOperator R m n) : Except Fault (Mat R m n) := do
  return Mat.ofColumns (← (Vector.ofFn Vec.unit).mapM J.apply)

end JacobianOperator

namespace Problem

/-- Settles the path. A pattern is looked for at the given point. Automatic derivatives of a bare number
have an axis for the unknowns only. -/
def resolvePath (P : Problem R m n) (c : Configuration R) (x : Vec R n) :
    Except Fault (JacobianPath R m n) :=
  if c.concrete then do
    let (materialize, source) ← P.materializer c.jacobianBackend x
    return ⟨c.solverFor m n, source, some materialize, c.leastSquares m n,
      P.residual.isBare && source.isAutomatic⟩
  else .ok ⟨c.solverFor m n, .products, none, c.leastSquares m n, false⟩

/-- Stands in where nobody is going to ask for transposed products. -/
def missingTranspose : Product R m n := fun _ => .error (.differentiation .transposeMissing)

/-- The products at a point. -/
def operatorAt (P : Problem R m n) (c : Configuration R) (needsTranspose : Bool) (x : Vec R n)
    (fx : Vec R m) : Except Fault (JacobianOperator R m n) := do
  let apply ← P.productsAt c x fx
  match ← P.transposedProductsAt c x fx with
  | some applyTranspose => return ⟨apply, applyTranspose, P.traceable⟩
  | none =>
    if needsTranspose then .error (.differentiation .transposeNeeded)
    else return ⟨apply, missingTranspose, P.traceable⟩

/-- What the path tells about the Jacobian at a point with the given residual. A matrix has to be
finite. -/
def acquire (P : Problem R m n) (c : Configuration R) (path : JacobianPath R m n) (x : Vec R n)
    (fx : Vec R m) : Except Fault (JacobianInfo R m n) := do
  match path.materialize with
  | some materialize => do
    let J ← materialize x
    if J.allFinite then return .matrix J else .error (.differentiation .nonFiniteJacobian)
  | none => return .operator (← P.operatorAt c path.needsTranspose x fx)

end Problem

end NewtonSolver
