import NewtonSolver.Problem.Basic

/-! Problems as they are written down, before the number of unknowns is known. -/
namespace NewtonSolver

/-- The vectors that a formula of a problem may speak of. -/
inductive Symbol where
  /-- An entry of the point. -/
  | point (i : Nat)
  /-- An entry of the vector that the Jacobian is applied to. -/
  | vector (i : Nat)
  /-- An entry of the vector that the transposed Jacobian is applied to. -/
  | covector (i : Nat)
  deriving DecidableEq

abbrev Formula (R : Type) := Expression R Symbol

inductive ResidualForm (R : Type) where
  | entries (es : List (Formula R))
  | number (e : Formula R)
  | affine (A : Table R) (b : List R)

inductive ProductForm (R : Type) where
  | entries (es : List (Formula R))
  /-- Gives up on every vector, with these words. -/
  | fails (text : String)

structure Formulation (R : Type) where
  residual : ResidualForm R
  jacobian : Option (List (List (Formula R)))
  products : Option (ProductForm R)
  transposedProducts : Option (ProductForm R)
  sparsity : Option (Table Bool)
  traceable : Bool

variable {R : Type} [Scalar R] {m n : Nat}

def Symbol.point? (n : Nat) : Symbol → Option (Fin n)
  | point i => if h : i < n then some ⟨i, h⟩ else none
  | _ => none

def Symbol.pointOrVector? (n : Nat) : Symbol → Option (Fin n ⊕ Fin n)
  | point i => if h : i < n then some (.inl ⟨i, h⟩) else none
  | vector i => if h : i < n then some (.inr ⟨i, h⟩) else none
  | covector _ => none

def Symbol.pointOrCovector? (m n : Nat) : Symbol → Option (Fin n ⊕ Fin m)
  | point i => if h : i < n then some (.inl ⟨i, h⟩) else none
  | covector i => if h : i < m then some (.inr ⟨i, h⟩) else none
  | vector _ => none

def ResidualForm.size : ResidualForm R → Nat
  | entries es => es.length
  | number _ => 1
  | affine A _ => A.rows

namespace ResidualForm

/-- The residual with `m` entries; those that are not written down are zero. -/
def ofFormulas? (m n : Nat) (es : List (Formula R)) (isBare : Bool) : Option (Residual R m n) := do
  let es ← es.mapM (·.rename? (Symbol.point? n))
  return .ofExpressions (Vector.ofFn fun i => (es[i]?).getD (.constant 0)) isBare

def residual? (m n : Nat) : ResidualForm R → Option (Residual R m n)
  | entries es => ofFormulas? m n es false
  | number e => ofFormulas? m n [e] true
  | affine A b => do return .affine (← A.fit? m n) (← Vec.ofList? m b)

end ResidualForm

/-- The values of formulas as a vector of length `k`, which has to be their number. -/
def Expression.evalAll {ι : Type} (k : Nat) (es : List (Expression R ι)) (assign : ι → R) :
    Except Fault (Vec R k) :=
  match Vec.ofList? k (es.map (·.eval assign)) with
  | some w => .ok w
  | none => .error (.unfit .argument)

/-- The product as a function of what the variables stand for. -/
def ProductForm.product? {ι : Type} (name? : Symbol → Option ι) (k : Nat) :
    ProductForm R → Option ((ι → R) → Except Fault (Vec R k))
  | entries es => do
    let es ← es.mapM (·.rename? name?)
    return Expression.evalAll k es
  | fails text => some fun _ => .error (.differentiation (.reported text))

namespace Formulation

def size (F : Formulation R) : Nat := F.residual.size

/-- The Jacobian as a function of the point. -/
def jacobian? (n : Nat) (rows : List (List (Formula R))) : Option (Vec R n → Table R) := do
  let rows ← rows.mapM (·.mapM (·.rename? (Symbol.point? n)))
  let table ← Table.ofRows? rows
  return fun x => ⟨table.rows, table.cols, table.entries.map (Vector.map (·.eval x.get))⟩

/-- The problem with `m` equations in `n` unknowns, if the formulas speak of no others. -/
def problem? (F : Formulation R) (m n : Nat) : Option (Problem R m n) := do
  let products ← F.products.mapM (ProductForm.product? (Symbol.pointOrVector? n) m)
  let transposed ← F.transposedProducts.mapM (ProductForm.product? (Symbol.pointOrCovector? m n) n)
  return {
    residual := ← F.residual.residual? m n
    jacobian := (← F.jacobian.mapM (jacobian? n)).map fun J x => .ok (J x)
    products := products.map fun f x v => f (Sum.elim x.get v.get)
    transposedProducts := transposed.map fun f x u => f (Sum.elim x.get u.get)
    sparsity := F.sparsity
    traceable := F.traceable }

end Formulation

end NewtonSolver
