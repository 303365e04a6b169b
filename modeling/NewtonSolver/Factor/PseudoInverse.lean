import NewtonSolver.Mat

/-! The pseudo-inverse, from columns made orthogonal by plane rotations. -/
namespace NewtonSolver.PseudoInverse

variable {R : Type} [Scalar R] {m n : Nat}

/-- Images and preimages: `images` are the products of the matrix with the orthonormal `axes`. -/
structure Axes (R : Type) (m n : Nat) where
  images : Vector (Vec R m) n
  axes : Vector (Vec R n) n

/-- Replaces columns `p` and `q` by their rotation. -/
def rotate {k : Nat} (columns : Vector (Vec R k) n) (p q : Fin n) (c s : R) :
    Vector (Vec R k) n :=
  let u := columns.get p
  let v := columns.get q
  Vec.put (Vec.put columns p (c * u - s * v)) q (s * u + c * v)

/-- The tangent of the smaller angle that makes two columns orthogonal. -/
def tangent (a b mixed : R) : R :=
  let ratio := (b - a) / (mixed + mixed)
  let size := 1 / (Scalar.abs ratio + Scalar.sqrt (1 + ratio * ratio))
  if ratio < 0 then -size else size

/-- Makes images `p` and `q` orthogonal, and tells whether they were not. -/
def orthogonalize (s : Axes R m n × Bool) (pair : Fin n × Fin n) : Axes R m n × Bool :=
  let (p, q) := pair
  let a := Vec.sumSquares (s.1.images.get p)
  let b := Vec.sumSquares (s.1.images.get q)
  let mixed := Vec.dot (s.1.images.get p) (s.1.images.get q)
  if Scalar.epsilon * Scalar.sqrt (a * b) < Scalar.abs mixed then
    let t := tangent a b mixed
    let c := 1 / Scalar.sqrt (1 + t * t)
    (⟨rotate s.1.images p q c (c * t), rotate s.1.axes p q c (c * t)⟩, true)
  else s

def pairs (n : Nat) : List (Fin n × Fin n) :=
  (List.finRange n).flatMap fun p => ((List.finRange n).filter (p < ·)).map fun q => (p, q)

/-- Goes through all pairs until a round changes nothing, a bounded number of times. -/
def sweeps : Nat → Axes R m n → Axes R m n
  | 0, s => s
  | rounds + 1, s =>
    let (next, changed) := (pairs n).foldl orthogonalize (s, false)
    if changed then sweeps rounds next else next

def maxSweeps : Nat := 60

/-- Images shorter than `10 · size · ε` times the longest one count as zero. -/
def ofAxes (size : Nat) (s : Axes R m n) : Mat R n m :=
  let lengths : Vec R n := s.images.map Vec.norm
  let cutoff := ((10 * size : Nat) : R) * Scalar.epsilon * Vec.maxAbs lengths
  let kept := (List.finRange n).filter fun j => cutoff < lengths.get j
  Mat.ofFn fun i j =>
    kept.foldl (fun sum k =>
      sum + (s.axes.get k).get i * ((s.images.get k).get j / lengths.get k / lengths.get k)) 0

def ofTall (A : Mat R m n) : Mat R n m :=
  ofAxes (max m n) (sweeps maxSweeps ⟨A.transpose, Mat.identity⟩)

/-- Every entry is finite, or infinite and on the diagonal. -/
def isDiagonallyInfinite (A : Mat R m n) : Bool :=
  (List.finRange m).all fun i => (List.finRange n).all fun j =>
    Scalar.isFinite (A.entry i j) || (A.entry i j == A.entry i j && i.val == j.val)

/-- The matrix is scaled to magnitude one first. Lengths that are infinite already compare with nothing
and count as zero; any other entry that is not finite spoils all entries. -/
def compute (A : Mat R m n) : Mat R n m :=
  if A.allFinite then
    let scale := Vec.maxAbs (A.map Vec.maxAbs)
    if scale == 0 then Mat.ofFn fun _ _ => 0
    else
      let B : Mat R m n := Mat.ofFn fun i j => A.entry i j / scale
      let inverse := if n ≤ m then ofTall B else (ofTall B.transpose).transpose
      Mat.ofFn fun i j => inverse.entry i j / scale
  else Mat.ofFn fun _ _ => if isDiagonallyInfinite A then 0 else 0 / 0

end NewtonSolver.PseudoInverse
