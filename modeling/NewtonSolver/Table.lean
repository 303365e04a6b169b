import NewtonSolver.Mat

/-! Lengths along axes, and nested lists, matrices and vectors that are handed in, so that their size has to
be checked. -/
namespace NewtonSolver

/-- The lengths of an array along its axes. -/
abbrev Shape := List Nat

/-- A parenthesized list, with a comma after a single length. -/
def Shape.text : Shape → String
  | [n] => "(" ++ toString n ++ ",)"
  | lengths => "(" ++ ", ".intercalate (lengths.map toString) ++ ")"

/-- A number, or a list of such things. -/
inductive Nested (α : Type) where
  | leaf (a : α)
  | node (items : List (Nested α))

/-- The lengths are read off the first item at each depth. -/
def Nested.shape {α : Type} : Nested α → Shape
  | leaf _ => []
  | node [] => [0]
  | node (item :: rest) => (rest.length + 1) :: item.shape

def Nested.leaf? {α : Type} : Nested α → Option α
  | leaf a => some a
  | node _ => none

/-- The entries of a list of numbers; anything deeper is left out. -/
def Nested.leaves {α : Type} : Nested α → List α
  | leaf a => [a]
  | node items => items.filterMap Nested.leaf?

/-- A matrix together with its size. -/
structure Table (α : Type) where
  rows : Nat
  cols : Nat
  entries : Mat α rows cols

/-- The list as a vector of the length that is asked for, if it has it. -/
def Vec.ofList? {α : Type} (n : Nat) (xs : List α) : Option (Vec α n) :=
  if h : xs.length = n then some ⟨xs.toArray, by simpa using h⟩ else none

namespace Table

variable {α : Type}

def ofMat {m n : Nat} (A : Mat α m n) : Table α := ⟨m, n, A⟩

/-- The rows as a matrix; the first row tells the number of columns, and all others must have it. -/
def ofRows? (rows : List (List α)) : Option (Table α) := do
  let cols := (rows.head?.map List.length).getD 0
  let entries ← rows.mapM (Vec.ofList? cols)
  return ⟨entries.length, cols, ⟨entries.toArray, by simp⟩⟩

/-- The lengths along both axes. -/
def shape (T : Table α) : Shape := [T.rows, T.cols]

/-- The matrix, if it has the size that is asked for. -/
def fit? (T : Table α) (m n : Nat) : Option (Mat α m n) :=
  match T with
  | ⟨rows, cols, entries⟩ =>
    if hr : rows = m then
      if hc : cols = n then some (hr ▸ hc ▸ entries) else none
    else none

end Table

end NewtonSolver
