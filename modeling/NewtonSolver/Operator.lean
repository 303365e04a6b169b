import NewtonSolver.Fault
import NewtonSolver.Random

/-! Linear maps that are known by their products only: square systems, normal equations, and estimates. -/
namespace NewtonSolver

/-- A map of vectors that may fail on some of them. -/
abbrev Product (R : Type) (n m : Nat) := Vec R n → Except Fault (Vec R m)

/-- The left side of a square system. -/
inductive System (R : Type) (n : Nat) where
  | matrix (A : Mat R n n)
  | operator (apply : Product R n n)

namespace System

variable {R : Type} [Scalar R] {n : Nat}

def apply : System R n → Product R n n
  | matrix A => fun v => .ok (A.mulVec v)
  | operator f => f

end System

namespace Operator

variable {R : Type} [Scalar R] {m n : Nat}

/-- The product with `Jᵀ J + damping`. -/
def normal (apply : Product R n m) (applyTranspose : Product R m n) (damping : R) : Product R n n :=
  fun v => do return (← applyTranspose (← apply v)) + damping * v

def sampleDiagonal (A : Product R n n) (z : Vec R n) : Except Fault (Vec R n) := do
  return z.zipWith (· * ·) (← A z)

/-- The mean of `z ⊙ A z` over the probes `z`. -/
def estimateDiagonal (A : Product R n n) (probes : List (Vec R n)) : Except Fault (Vec R n) := do
  let samples ← probes.mapM (sampleDiagonal A)
  return (samples.foldl (· + ·) 0).map (· / (probes.length : R))

def signProbes (count seed : Nat) : List (Vec R n) :=
  ((Random.seeded seed).split count).map Random.signs

/-- The product scaled to length one; a vector whose product vanishes is kept. -/
def powerStep (A : Product R n n) (v : Vec R n) : Except Fault (Vec R n) := do
  let image ← A v
  let size := Vec.norm image
  return if 0 < size then image.map (· / size) else v

def powerSteps (A : Product R n n) : Nat → Vec R n → Except Fault (Vec R n)
  | 0, v => .ok v
  | steps + 1, v => do powerSteps A steps (← powerStep A v)

/-- The quotient `vᵀ A v` after so many steps from the start vector scaled to length one. -/
def estimateMaxEigenvalue (A : Product R n n) (start : Vec R n) (steps : Nat) : Except Fault R := do
  let v ← powerSteps A steps (start.map (· / Vec.norm start))
  return Vec.dot v (← A v)

end Operator

end NewtonSolver
