import NewtonSolver.Configuration.Basic
import NewtonSolver.Jacobian.Materialize

/-! The ways of getting products with a Jacobian and with its transpose. -/
namespace NewtonSolver.Problem

variable {R : Type} [Scalar R] {m n : Nat}

def automaticProducts (P : Problem R m n) (x : Vec R n) : Product R n m := fun v => do
  P.residual.requireVector .argument
  return P.residual.forward x v

def automaticTransposedProducts (P : Problem R m n) (x : Vec R n) : Product R m n := fun u => do
  P.residual.requireVector .argument
  return P.residual.backward x u

/-- Products from differences. -/
def differenceProducts (P : Problem R m n) (scheme : Except Fault (DifferenceScheme R)) (x : Vec R n)
    (fx : Vec R m) : Product R n m := fun v => do
  P.residual.differenceProduct (← scheme) (some fx) x v

/-- Transposed products with the matrix of differences, which is made first. -/
def differenceTransposedProducts (P : Problem R m n) (scheme : Except Fault (DifferenceScheme R))
    (x : Vec R n) (fx : Vec R m) : Except Fault (Product R m n) := do
  let J ← P.residual.differenceJacobian (← scheme) (some fx) x
  return fun u => .ok (J.vecMul u)

/-- The scheme of a backend; one that takes no differences leaves the default. -/
def schemeOf (b : Option (Backend R)) : Except Fault (DifferenceScheme R) :=
  match b.map Backend.underlying with
  | some (.finite scheme step) => DifferenceScheme.ofFields scheme step
  | _ => .ok .forward

/-- Products with the Jacobian at a point: those that the problem states, then those with the matrix it
states, then automatic ones, then differences. -/
def productsAt (P : Problem R m n) (c : Configuration R) (x : Vec R n) (fx : Vec R m) :
    Except Fault (Product R n m) :=
  match P.products, P.jacobian with
  | some products, _ => .ok (products x)
  | none, some jacobian => do
    let J : Mat R m n ← analytical jacobian x
    return fun v => .ok (J.mulVec v)
  | none, none =>
    match c.jacobianBackend.map Backend.mode with
    | some .forward => do
      P.requireTraceable .forwardProducts
      return P.automaticProducts x
    | some .reverse => do
      P.requireTraceable .reverseProducts
      return P.automaticProducts x
    | some .finite => .ok (P.differenceProducts (schemeOf c.jacobianBackend) x fx)
    | none =>
      if P.traceable then .ok (P.automaticProducts x)
      else .ok (P.differenceProducts (.ok .forward) x fx)

/-- Products with the transposed Jacobian at a point, if there is a way to them. -/
def transposedProductsAt (P : Problem R m n) (c : Configuration R) (x : Vec R n) (fx : Vec R m) :
    Except Fault (Option (Product R m n)) :=
  match P.transposedProducts, P.jacobian with
  | some products, _ => .ok (some (products x))
  | none, some jacobian => do
    let J : Mat R m n ← analytical jacobian x
    return some fun u => .ok (J.vecMul u)
  | none, none =>
    match c.transposedBackend.map Backend.mode with
    | some .forward | some .reverse => do
      P.requireTraceable .transposedProducts
      return some (P.automaticTransposedProducts x)
    | some .finite => do
      return some (← P.differenceTransposedProducts (schemeOf c.transposedBackend) x fx)
    | none =>
      if P.traceable then .ok (some (P.automaticTransposedProducts x))
      else match c.jacobianBackend.map Backend.mode with
        | none | some .finite => do
          return some (← P.differenceTransposedProducts (schemeOf c.jacobianBackend) x fx)
        | some .forward | some .reverse => .ok none

end NewtonSolver.Problem
