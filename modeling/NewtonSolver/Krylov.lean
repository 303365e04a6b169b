import NewtonSolver.Factor.Elimination
import NewtonSolver.Operator

/-! Iterations for square systems of which products are known: preconditioned conjugate gradients, stabilized
biconjugate gradients, and the restarted minimal residual iteration, preconditioned from the left. Each is
given a bound on the residual and one on the steps. -/
namespace NewtonSolver.Krylov

structure Limits (R : Type) where
  /-- Bound on the residual, relative to the right side. -/
  tol : R
  /-- Bound on the residual, whatever the right side. -/
  atol : R
  maxSteps : Nat

section

variable {R : Type} [Scalar R] {n : Nat}

/-- The bound on the squared residual norm. -/
def Limits.squaredBound (limits : Limits R) (b : Vec R n) : R :=
  Scalar.larger (limits.tol * limits.tol * Vec.sumSquares b) (limits.atol * limits.atol)

/-- The bound on the residual norm. -/
def Limits.bound (limits : Limits R) (b : Vec R n) : R :=
  Scalar.larger (limits.tol * Vec.norm b) limits.atol

/-- The product with a preconditioner, if there is one. -/
def precondition (M : Option (Product R n n)) (v : Vec R n) : Except Fault (Vec R n) :=
  match M with
  | none => .ok v
  | some f => f v

end

namespace ConjugateGradient

structure State (R : Type) (n : Nat) where
  x : Vec R n
  residual : Vec R n
  direction : Vec R n
  /-- The product of the residual with the preconditioned residual. -/
  energy : R

variable {R : Type} [Scalar R] {n : Nat}

def start (A : Product R n n) (M : Option (Product R n n)) (b : Vec R n) :
    Except Fault (State R n) := do
  let residual := b - (← A 0)
  let direction ← precondition M residual
  return ⟨0, residual, direction, Vec.dot residual direction⟩

def step (A : Product R n n) (M : Option (Product R n n)) (s : State R n) :
    Except Fault (State R n) := do
  let image ← A s.direction
  let alpha := s.energy / Vec.dot s.direction image
  let residual := s.residual - alpha * image
  let conditioned ← precondition M residual
  let energy := Vec.dot residual conditioned
  return ⟨s.x + alpha * s.direction, residual, conditioned + (energy / s.energy) * s.direction, energy⟩

/-- Steps while the squared residual norm is above the bound. -/
def run (A : Product R n n) (M : Option (Product R n n)) (bound : R) :
    Nat → State R n → Except Fault (Vec R n)
  | 0, s => .ok s.x
  | steps + 1, s =>
    if bound < Vec.sumSquares s.residual then do run A M bound steps (← step A M s)
    else .ok s.x

def solve (A : Product R n n) (M : Option (Product R n n)) (limits : Limits R) (b : Vec R n) :
    Except Fault (Vec R n) := do
  run A M (limits.squaredBound b) limits.maxSteps (← start A M b)

end ConjugateGradient

namespace BiCGStab

structure State (R : Type) (n : Nat) where
  x : Vec R n
  residual : Vec R n
  /-- The first residual, against which the later ones are tested. -/
  shadow : Vec R n
  alpha : R
  omega : R
  rho : R
  p : Vec R n
  q : Vec R n
  /-- A factor of the recurrence vanished. -/
  stuck : Bool

variable {R : Type} [Scalar R] {n : Nat}

def start (A : Product R n n) (b : Vec R n) : Except Fault (State R n) := do
  let residual := b - (← A 0)
  return ⟨0, residual, residual, 1, 1, 1, residual, residual, false⟩

def step (A : Product R n n) (M : Option (Product R n n)) (bound : R) (s : State R n) :
    Except Fault (State R n) := do
  let rho := Vec.dot s.shadow s.residual
  let beta := rho / s.rho * s.alpha / s.omega
  let p := s.residual + beta * (s.p - s.omega * s.q)
  let p' ← precondition M p
  let q ← A p'
  let alpha := rho / Vec.dot s.shadow q
  let half := s.residual - alpha * q
  let half' ← precondition M half
  let t ← A half'
  let omega := Vec.dot t half / Vec.dot t t
  let stuck := omega == 0 || alpha == 0 || rho == 0
  if Vec.sumSquares half < bound then
    return ⟨s.x + alpha * p', half, s.shadow, alpha, omega, rho, p, q, stuck⟩
  else
    return ⟨s.x + alpha * p' + omega * half', half - omega * t, s.shadow, alpha, omega, rho, p, q,
      stuck⟩

/-- Steps while the squared residual norm is above the bound and the recurrence goes on. -/
def run (A : Product R n n) (M : Option (Product R n n)) (bound : R) :
    Nat → State R n → Except Fault (Vec R n)
  | 0, s => .ok s.x
  | steps + 1, s =>
    if bound < Vec.sumSquares s.residual ∧ s.stuck = false then do
      run A M bound steps (← step A M bound s)
    else .ok s.x

def solve (A : Product R n n) (M : Option (Product R n n)) (limits : Limits R) (b : Vec R n) :
    Except Fault (Vec R n) := do
  run A M (limits.squaredBound b) limits.maxSteps (← start A b)

end BiCGStab

namespace GMRES

variable {R : Type} [Scalar R] {n : Nat}

/-- The vector scaled to length one and its norm. A norm that is not above the threshold counts as
zero, and so does the vector. -/
def normalize (v : Vec R n) (threshold : R) : Vec R n × R :=
  let size := Vec.norm v
  if threshold < size then (v.map (· / size), size) else (0, 0)

/-- An orthonormal basis and, for each of its vectors but the last, the coefficients of its image. -/
structure Arnoldi (R : Type) (n : Nat) where
  basis : Array (Vec R n)
  images : Array (Array R)

/-- Extends the basis by the image of its last vector until there are `steps` images, or until an
image lies in the span of the basis. -/
def arnoldi (A : Product R n n) (M : Option (Product R n n)) :
    Nat → Arnoldi R n → Vec R n → Except Fault (Arnoldi R n)
  | 0, s, last => .ok { s with basis := s.basis.push last }
  | steps + 1, s, last => do
    let basis := s.basis.push last
    let image ← precondition M (← A last)
    let coefficients := basis.map (Vec.dot · image)
    let projection := (basis.zip coefficients).foldl (fun sum (v, h) => sum + h * v) (0 : Vec R n)
    let size := Vec.norm image
    let threshold := Scalar.epsilon * (if Scalar.epsilon < size then size else 0)
    let (next, height) := normalize (image - projection) threshold
    let extended : Arnoldi R n := ⟨basis, s.images.push (coefficients.push height)⟩
    if height == 0 then return extended else arnoldi A M steps extended next

/-- The coefficients of the point of the span with the smallest residual, from the normal equations.
There are none when these are not positive definite. -/
def Arnoldi.minimizer (s : Arnoldi R n) (size : R) : Option (Vec R s.images.size) :=
  let entry (i j : Nat) : R := (s.images[j]?.bind (·[i]?)).getD 0
  let rows := List.range (s.images.size + 1)
  let normal : Mat R s.images.size s.images.size := Mat.ofFn fun i j =>
    rows.foldl (fun sum k => sum + entry k i * entry k j) 0
  let right : Vec R s.images.size := Vector.ofFn fun i => entry 0 i * size
  (Cholesky.factorize normal).map fun U => Cholesky.solve U right

/-- The correction of one cycle; it is no number where the normal equations fail. -/
def Arnoldi.correction (s : Arnoldi R n) (size : R) : Vec R n :=
  match s.minimizer size with
  | some y => (s.basis.toList.zip y.toList).foldl (fun sum (v, c) => sum + c * v) 0
  | none => Vector.replicate n (0 / 0)

/-- The preconditioned residual, scaled to length one, and its norm. -/
def residual (A : Product R n n) (M : Option (Product R n n)) (b x : Vec R n) :
    Except Fault (Vec R n × R) := do
  return normalize (← precondition M (b - (← A x))) Scalar.epsilon

/-- Cycles while the preconditioned residual norm is above the bound. -/
def run (A : Product R n n) (M : Option (Product R n n)) (restart : Nat) (bound : R) (b : Vec R n) :
    Nat → Vec R n → Vec R n × R → Except Fault (Vec R n)
  | 0, x, _ => .ok x
  | cycles + 1, x, (unit, size) =>
    if bound < size then do
      let x := x + (← arnoldi A M restart ⟨#[], #[]⟩ unit).correction size
      run A M restart bound b cycles x (← residual A M b x)
    else .ok x

def solve (A : Product R n n) (M : Option (Product R n n)) (restart : Nat) (limits : Limits R)
    (b : Vec R n) : Except Fault (Vec R n) := do
  run A M (min restart n) (limits.bound b) b limits.maxSteps 0 (← residual A M b 0)

end GMRES

end NewtonSolver.Krylov
