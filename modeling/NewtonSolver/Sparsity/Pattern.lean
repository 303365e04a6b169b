import NewtonSolver.Failure
import NewtonSolver.Random
import NewtonSolver.Table

/-! Where a matrix may have entries that are not zero, and first-fit colorings of its columns. -/
namespace NewtonSolver

abbrev Pattern (m n : Nat) := Mat Bool m n

namespace Pattern

variable {R : Type} [Scalar R] {m n : Nat}

/-- Something that is no number counts as different from zero. -/
def isNonzero (x : R) : Bool := !(x == 0)

def ofMat (A : Mat R m n) : Pattern m n := A.map (Vector.map isNonzero)

def union (P Q : Pattern m n) : Pattern m n := Mat.ofFn fun i j => P.entry i j || Q.entry i j

/-- The pattern of the entries that are not zero, if they are given in rows. -/
def ofNested (entries : Nested R) : Except (Failure R) (Table Bool) :=
  match entries, entries.shape with
  | .node items, [_, _] =>
    match Table.ofRows? (items.map fun row => row.leaves.map isNonzero) with
    | some T => .ok T
    | none => .error (.unfit .argument)
  | _, shape => .error (.configuration (.sparsityShape shape))

/-- The point, each entry moved by less than half its magnitude plus a half. -/
def perturb (x : Vec R n) (key : Random.Block) : Vec R n :=
  x + (Random.fractions key : Vec R n).zipWith (· * ·) (x.map fun a => 1 + Scalar.abs a)

/-- The entries that are not zero at the point or at one of the perturbed points. -/
def detect (jacobian : Vec R n → Except Fault (Mat R m n)) (x : Vec R n) (points seed : Nat) :
    Except Fault (Pattern m n) := do
  let first := ofMat (← jacobian x)
  ((Random.seeded seed).split points).foldlM
    (fun P key => do return P.union (ofMat (← jacobian (perturb x key)))) first

end Pattern

/-- A color for each of `n` columns. -/
structure Coloring (n : Nat) where
  colors : Vector Nat n

namespace Coloring

variable {m n : Nat}

/-- One more than the largest color, zero without columns. -/
def count (c : Coloring n) : Nat := c.colors.foldl (fun k color => max k (color + 1)) 0

/-- The least number that is not in the list, which is at most its length. -/
def leastUnused (used : List Nat) : Nat :=
  ((List.range used.length).find? fun color => !used.contains color).getD used.length

/-- Whether some row has entries in both columns. -/
def conflict (P : Pattern m n) (j k : Fin n) : Bool :=
  (List.finRange m).any fun i => P.entry i j && P.entry i k

/-- Colors the first `k` columns in order, each with the least color that no earlier column in
conflict with it has. -/
def firstFit (inConflict : Nat → Nat → Bool) : (k : Nat) → Vector Nat k
  | 0 => #v[]
  | k + 1 =>
    let colors := firstFit inConflict k
    let used := (List.finRange k).filterMap fun (j : Fin k) =>
      if inConflict j k then some (colors.get j) else none
    colors.push (leastUnused used)

def greedy (P : Pattern m n) : Coloring n :=
  ⟨firstFit
    (fun j k => if h : j < n ∧ k < n then conflict P ⟨j, h.1⟩ ⟨k, h.2⟩ else false) n⟩

/-- The sum of the unit vectors of the columns of one color. -/
def seed {R : Type} [Scalar R] (c : Coloring n) (color : Nat) : Vec R n :=
  c.colors.map fun k => if k = color then 1 else 0

end Coloring

end NewtonSolver
