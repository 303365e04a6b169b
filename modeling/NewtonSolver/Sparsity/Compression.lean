import NewtonSolver.Derivative.FiniteDifference
import NewtonSolver.Sparsity.Pattern

/-! Jacobians from few products, by columns or rows that share a color. -/
namespace NewtonSolver

/-- A coloring of the columns or of the rows of a matrix. -/
inductive Compression (m n : Nat) where
  | columns (c : Coloring n)
  | rows (c : Coloring m)

variable {R : Type} [Scalar R] {m n : Nat}

namespace Compression

def count : Compression m n → Nat
  | columns c => c.count
  | rows c => c.count

def colors : Compression m n → List Nat
  | columns c => c.colors.toList
  | rows c => c.colors.toList

/-- The product for each of so many colors, in order of the colors. -/
def products {k l : Nat} (apply : Product R k l) (c : Coloring k) (count : Nat) :
    Except Fault (List (Vec R l)) :=
  (List.range count).mapM fun color => apply (c.seed color)

/-- The entry read off the products, if the pattern has it. -/
def value (products : List (Vec R m)) (color : Nat) (i : Fin m) (present : Bool) : R :=
  ((products[color]?.map (·.get i)).getD 0) * if present then 1 else 0

/-- The matrix with the pattern, from the products with the seeds of the column colors. -/
def expandColumns (P : Pattern m n) (c : Coloring n) (count : Nat) (apply : Product R n m) :
    Except Fault (Mat R m n) := do
  let products ← products apply c count
  return Mat.ofFn fun i j => value products (c.colors.get j) i (P.entry i j)

/-- The matrix with the pattern, from the transposed products with the seeds of the row colors. -/
def expandRows (P : Pattern m n) (c : Coloring m) (count : Nat) (applyTranspose : Product R m n) :
    Except Fault (Mat R m n) := do
  let products ← products applyTranspose c count
  return Mat.ofFn fun i j => value products (c.colors.get i) j (P.entry i j)

/-- Rows are colored where transposed products are at hand, and columns otherwise. -/
def greedy (mode : DerivativeMode) (P : Pattern m n) : Compression m n :=
  match mode with
  | .reverse => rows (.greedy P.transpose)
  | .forward | .finite => columns (.greedy P)

/-- Given colors, if they are as many as there are rows or columns. -/
def ofColors? (mode : DerivativeMode) (colors : List Nat) : Option (Compression m n) :=
  match mode with
  | .reverse => (Vec.ofList? m colors).map fun c => rows ⟨c⟩
  | .forward | .finite => (Vec.ofList? n colors).map fun c => columns ⟨c⟩

end Compression

namespace Residual

/-- The Jacobian at a point from so many products, which are to be more than the largest color. -/
def coloredJacobian (F : Residual R m n) (d : DenseBackend R) (P : Pattern m n)
    (c : Compression m n) (count : Nat) (x : Vec R n) : Except Fault (Mat R m n) := do
  F.requireVector .argument
  match d, c with
  | .forward _, .columns c => Compression.expandColumns P c count fun v => .ok (F.forward x v)
  | .reverse _, .rows c => Compression.expandRows P c count fun u => .ok (F.backward x u)
  | .finite scheme step, .columns c => do
    let S ← DifferenceScheme.ofFields scheme step
    Compression.expandColumns P c count fun v => .ok (S.product F.value (F.value x) x v)
  | _, _ => .error (.unfit .argument)

/-- The Jacobian at a point from one product for each color. -/
def compressedJacobian (F : Residual R m n) (d : DenseBackend R) (P : Pattern m n)
    (c : Compression m n) (x : Vec R n) : Except Fault (Mat R m n) :=
  F.coloredJacobian d P c c.count x

end Residual

end NewtonSolver
