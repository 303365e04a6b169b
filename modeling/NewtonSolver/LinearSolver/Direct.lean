import NewtonSolver.Factor.Elimination
import NewtonSolver.Factor.PseudoInverse
import NewtonSolver.Factor.QR
import NewtonSolver.Failure
import NewtonSolver.Krylov

/-! The numerical routines that a solve relies on, as one interface, and factorizations, each as the map from
right sides to solutions that it prepares. -/
namespace NewtonSolver

/-- An iteration for a square system with a left preconditioner. -/
abbrev KrylovRoutine (R : Type) :=
  (n : Nat) → Product R n n → Option (Product R n n) → Krylov.Limits R → Vec R n →
    Except Fault (Vec R n)

structure Kernels (R : Type) where
  lu : (n : Nat) → Mat R n n → LU R n
  /-- The upper factor of a symmetric matrix, of which the upper triangle is read. -/
  cholesky : (n : Nat) → Mat R n n → Option (Mat R n n)
  /-- The reduced factors of a matrix with no fewer rows than columns. -/
  qr : (m n : Nat) → Mat R m n → QR R m n
  pseudoInverse : (m n : Nat) → Mat R m n → Mat R n m
  cg : KrylovRoutine R
  /-- The iteration that starts over after a number of steps. -/
  gmres : Nat → KrylovRoutine R
  bicgstab : KrylovRoutine R

def Kernels.standard {R : Type} [Scalar R] : Kernels R where
  lu _ := LU.factorize
  cholesky _ := Cholesky.factorize
  qr _ _ := QR.factorize
  pseudoInverse _ _ := PseudoInverse.compute
  cg _ := Krylov.ConjugateGradient.solve
  gmres restart _ A M := Krylov.GMRES.solve A M restart
  bicgstab _ := Krylov.BiCGStab.solve

namespace Direct

variable {R : Type} [Scalar R] {m n : Nat}

/-- Some magnitude is not above `size · ε` times the largest one. A diagonal that is not finite is
let through. -/
def isSingularDiagonal (d : Vec R n) (size : Nat) : Bool :=
  if d.allFinite then
    let scale := d.maxAbs
    if scale == 0 then true
    else match d.minAbs? with
      | none => true
      | some least => least ≤ (size : R) * Scalar.epsilon * scale
  else false

/-- A prepared solve, or the reason why the matrix has none. -/
abbrev Prepared (R : Type) (m n : Nat) := Except (LinearSolveFailure R) (Vec R m → Vec R n)

def lu (K : Kernels R) (A : Mat R n n) : Prepared R n n :=
  let f := K.lu n A
  if isSingularDiagonal f.upper.diagonal n then .error .zeroPivotLU else .ok f.solve

def cholesky (K : Kernels R) (A : Mat R n n) : Prepared R n n :=
  match K.cholesky n A with
  | none => .error .notPositiveDefinite
  | some U =>
    if U.allFinite then
      if isSingularDiagonal U.diagonal n then .error .zeroPivotCholesky
      else .ok (Cholesky.solve U)
    else .error .notPositiveDefinite

/-- The least squares solution by `R x = Qᵀ b`. -/
def qr (K : Kernels R) (A : Mat R m n) : Prepared R m n :=
  let f := K.qr m n A
  if isSingularDiagonal f.r.diagonal (max m n) then .error .rankDeficient
  else .ok fun b => f.r.solveUpper (f.q.vecMul b)

/-- The solution of least norm, by `Aᵀ = Q R` and `x = Q R⁻ᵀ b`. -/
def qrTransposed (K : Kernels R) (A : Mat R m n) : Prepared R m n :=
  let f := K.qr n m A.transpose
  if isSingularDiagonal f.r.diagonal (max n m) then .error .rankDeficient
  else .ok fun b => f.q.mulVec (f.r.transpose.solveLower b)

def pseudoInverse (K : Kernels R) (A : Mat R m n) : Prepared R m n :=
  let inverse := K.pseudoInverse m n A
  .ok inverse.mulVec

end Direct

end NewtonSolver
