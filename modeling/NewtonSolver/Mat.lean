import NewtonSolver.Scalar

/-! Vectors of a fixed length, and matrices stored row by row. -/
namespace NewtonSolver

abbrev Vec (R : Type) (n : Nat) := Vector R n

namespace Vec

section Entries

variable {α : Type} {n : Nat}

/-- The vector with entry `i` replaced. -/
def put (v : Vec α n) (i : Fin n) (a : α) : Vec α n := v.set i.val a i.isLt

/-- The vector with entries `i` and `j` exchanged. -/
def exchange (v : Vec α n) (i j : Fin n) : Vec α n := v.swap i.val j.val i.isLt j.isLt

end Entries

variable {R : Type} [Scalar R] {n : Nat}

def sum (v : Vec R n) : R := v.foldl (· + ·) 0

def dot (u v : Vec R n) : R := sum (u.zipWith (· * ·) v)

def sumSquares (v : Vec R n) : R := dot v v

def norm (v : Vec R n) : R := Scalar.sqrt (sumSquares v)

/-- The vector that is one at `j` and zero elsewhere. -/
def unit (j : Fin n) : Vec R n := Vector.ofFn fun i => if i = j then 1 else 0

def allFinite (v : Vec R n) : Bool := v.all Scalar.isFinite

/-- The largest magnitude of an entry, zero for the empty vector. -/
def maxAbs (v : Vec R n) : R := v.foldl (fun m x => Scalar.atLeast m (Scalar.abs x)) 0

/-- The smallest magnitude of an entry, if there is an entry. -/
def minAbs? (v : Vec R n) : Option R :=
  v.foldl (fun m x => some <| match m with
    | none => Scalar.abs x
    | some m => Scalar.atMost m (Scalar.abs x)) none

/-- Entry by entry equality of numbers; an entry that is no number differs from itself. -/
def same (u v : Vec R n) : Bool := (u.zipWith (· == ·) v).all id

end Vec

/-- The rows are stored, so that reading an entry repeats no arithmetic. -/
abbrev Mat (R : Type) (m n : Nat) := Vector (Vec R n) m

namespace Mat

variable {R : Type} {m n k : Nat}

def ofFn (f : Fin m → Fin n → R) : Mat R m n := Vector.ofFn fun i => Vector.ofFn (f i)

def entry (A : Mat R m n) (i : Fin m) (j : Fin n) : R := (A.get i).get j

def ofColumns (columns : Vector (Vec R m) n) : Mat R m n := ofFn fun i j => (columns.get j).get i

def column (A : Mat R m n) (j : Fin n) : Vec R m := Vector.ofFn fun i => A.entry i j

def transpose (A : Mat R m n) : Mat R n m := ofFn fun i j => A.entry j i

def diagonal (A : Mat R n n) : Vec R n := Vector.ofFn fun i => A.entry i i

variable [Scalar R]

def identity : Mat R n n := ofFn fun i j => if i = j then 1 else 0

def mulVec (A : Mat R m n) (v : Vec R n) : Vec R m := A.map (Vec.dot · v)

/-- The product of the transposed matrix with a vector. -/
def vecMul (A : Mat R m n) (u : Vec R m) : Vec R n := mulVec (transpose A) u

def mul (A : Mat R m k) (B : Mat R k n) : Mat R m n :=
  let columns := transpose B
  Vector.map (fun row => columns.map (Vec.dot row)) A

def allFinite (A : Mat R m n) : Bool := A.all Vec.allFinite

/-- Entry by entry equality of numbers. -/
def same (A B : Mat R m n) : Bool := (A.zipWith Vec.same B).all id

end Mat

end NewtonSolver
