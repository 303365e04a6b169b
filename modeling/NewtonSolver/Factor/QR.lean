import NewtonSolver.Factor.Elimination

/-! Orthogonal triangular factors by reflections. -/
namespace NewtonSolver

/-- Orthonormal columns and an upper triangular factor. -/
structure QR (R : Type) (m n : Nat) where
  q : Mat R m n
  r : Mat R n n

/-- The map that takes `x` to `x - scale · (normal · x) · normal`. -/
structure Reflector (R : Type) (m : Nat) where
  normal : Vec R m
  scale : R

namespace Reflector

variable {R : Type} [Scalar R] {m : Nat}

def apply (h : Reflector R m) (x : Vec R m) : Vec R m :=
  x - (h.scale * Vec.dot h.normal x) * h.normal

/-- A reflection that clears the entries of a vector after entry `k`, and what entry `k` becomes. -/
def clearing (x : Vec R m) (k : Fin m) : Reflector R m × R :=
  let rest : Vec R m := Vector.ofFn fun i => if k < i then x.get i else 0
  let size := Vec.norm rest
  if size == 0 then (⟨Vec.unit k, 0⟩, x.get k)
  else
    let length := Scalar.sqrt (x.get k * x.get k + size * size)
    let image := if x.get k < 0 then length else -length
    let normal := Vector.ofFn fun i =>
      if i = k then 1 else if k < i then x.get i / (x.get k - image) else 0
    (⟨normal, (image - x.get k) / image⟩, image)

end Reflector

namespace QR

variable {R : Type} [Scalar R] {m n : Nat}

/-- The columns so far, and the reflections that were applied to them, the last one first. -/
structure Reduction (R : Type) (m n : Nat) where
  columns : Vector (Vec R m) n
  reflectors : List (Reflector R m)

def Reduction.step (s : Reduction R m n) (k : Fin n) : Reduction R m n :=
  if h : k.val < m then
    let row : Fin m := ⟨k, h⟩
    let (reflector, image) := Reflector.clearing (s.columns.get k) row
    let columns := Vector.ofFn fun j : Fin n =>
      let column := s.columns.get j
      if j < k then column
      else if j = k then
        Vector.ofFn fun i : Fin m => if i < row then column.get i else if i = row then image else 0
      else reflector.apply column
    ⟨columns, reflector :: s.reflectors⟩
  else s

def reduce (A : Mat R m n) : Reduction R m n :=
  (List.finRange n).foldl Reduction.step ⟨A.transpose, []⟩

/-- The reduced factors of a matrix with no fewer rows than columns. -/
def factorize (A : Mat R m n) : QR R m n :=
  let done := reduce A
  let image (j : Fin n) : Vec R m :=
    if h : j.val < m then done.reflectors.foldl (fun x reflector => reflector.apply x) (Vec.unit ⟨j, h⟩)
    else 0
  { q := Mat.ofColumns (Vector.ofFn image)
    r := Mat.ofFn fun i j => if i ≤ j then (done.columns.get j)[i.val]?.getD 0 else 0 }

end QR

end NewtonSolver
