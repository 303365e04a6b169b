import NewtonSolver.Mat

/-! Triangular systems, and the triangular factors of square matrices: the upper factor of a symmetric
positive definite matrix, and Gaussian elimination with row pivoting. -/
namespace NewtonSolver

section Substitution

variable {R : Type} [Scalar R] {n : Nat}

/-- What is left of entry `i` of the right side when the unknowns `known` are put in. -/
def Mat.remainder (A : Mat R n n) (b x : Vec R n) (i : Fin n) (known : List (Fin n)) : R :=
  known.foldl (fun r j => r - A.entry i j * x.get j) (b.get i)

/-- Solves from the first unknown on; entries above the diagonal are not read. -/
def Mat.solveLower (A : Mat R n n) (b : Vec R n) : Vec R n :=
  (List.finRange n).foldl
    (fun (x : Vec R n) (i : Fin n) =>
      x.put i (A.remainder b x i ((List.finRange n).filter (· < i)) / A.entry i i)) 0

/-- Solves from the last unknown back; entries below the diagonal are not read. -/
def Mat.solveUpper (A : Mat R n n) (b : Vec R n) : Vec R n :=
  (List.finRange n).reverse.foldl
    (fun (x : Vec R n) (i : Fin n) =>
      x.put i (A.remainder b x i ((List.finRange n).reverse.filter (i < ·)) / A.entry i i)) 0

end Substitution

namespace Cholesky

variable {R : Type} [Scalar R] {n : Nat}

/-- What is left of entry `(i, j)` when the rows above row `i` are put in. -/
def remainder (A U : Mat R n n) (i j : Fin n) : R :=
  ((List.finRange n).filter (· < i)).foldl
    (fun r k => r - U.entry k i * U.entry k j) (A.entry i j)

/-- Row `i` of the factor from the rows above it, unless the pivot is not positive. -/
def step (A U : Mat R n n) (i : Fin n) : Option (Mat R n n) :=
  let pivot := remainder A U i i
  if 0 < pivot then
    let root := Scalar.sqrt pivot
    some (Vec.put U i (Vector.ofFn fun j : Fin n =>
      if j < i then 0 else if j = i then root else remainder A U i j / root))
  else none

/-- The factor `U` with `Uᵀ U` equal to the matrix. Entries below the diagonal are not read. -/
def factorize (A : Mat R n n) : Option (Mat R n n) :=
  (List.finRange n).foldlM (step A) (Mat.ofFn fun _ _ => 0)

def solve (U : Mat R n n) (b : Vec R n) : Vec R n :=
  U.solveUpper (U.transpose.solveLower b)

end Cholesky

/-- The rows of a matrix in the order `rows` are the product of a unit lower and an upper factor. -/
structure LU (R : Type) (n : Nat) where
  rows : Vector (Fin n) n
  lower : Mat R n n
  upper : Mat R n n

namespace LU

variable {R : Type} [Scalar R] {n : Nat}

def solve (f : LU R n) (b : Vec R n) : Vec R n :=
  f.upper.solveUpper (f.lower.solveLower (f.rows.map b.get))

/-- Multipliers are kept below the diagonal of the columns that are done. -/
structure Elimination (R : Type) (n : Nat) where
  rows : Vector (Fin n) n
  entries : Mat R n n

/-- The first row, from `k` on, with the largest magnitude in column `k`. -/
def pivotRow (A : Mat R n n) (k : Fin n) : Fin n :=
  (List.finRange n).foldl
    (fun p i => if k < i ∧ Scalar.abs (A.entry p k) < Scalar.abs (A.entry i k) then i else p) k

/-- Subtracts multiples of row `k` from the rows below; a zero pivot leaves them. -/
def clearBelow (A : Mat R n n) (k : Fin n) : Mat R n n :=
  let pivot := A.entry k k
  if pivot == 0 then A
  else
    let pivotEntries := A.get k
    Vector.ofFn fun i : Fin n =>
      let row := A.get i
      if i ≤ k then row
      else
        let multiplier := row.get k / pivot
        Vector.ofFn fun j : Fin n =>
          if j < k then row.get j
          else if j = k then multiplier
          else row.get j - multiplier * pivotEntries.get j

def Elimination.step (s : Elimination R n) (k : Fin n) : Elimination R n :=
  let p := pivotRow s.entries k
  ⟨Vec.exchange s.rows k p, clearBelow (Vec.exchange s.entries k p) k⟩

def eliminate (A : Mat R n n) : Elimination R n :=
  (List.finRange n).foldl Elimination.step ⟨Vector.finRange n, A⟩

def factorize (A : Mat R n n) : LU R n :=
  let done := eliminate A
  { rows := done.rows
    lower := Mat.ofFn fun i j => if j < i then done.entries.entry i j else if i = j then 1 else 0
    upper := Mat.ofFn fun i j => if i ≤ j then done.entries.entry i j else 0 }

end LU

end NewtonSolver
