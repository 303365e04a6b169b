import NewtonSolver.LinearSolver.Cache
import NewtonSolver.LinearSolver.Handle
import NewtonSolver.Preconditioner

/-! Linear solves: square systems by factorization or by iteration, where the solution is checked against the
system itself, and least squares. -/
namespace NewtonSolver

variable {R : Type} [Scalar R] {m n : Nat}

def checkFinite (x : Vec R n) : Except (Failure R) (Vec R n) :=
  if x.allFinite then .ok x else .error (.linearSolve .nonFiniteSolution)

namespace KrylovFields

/-- Steps `k` with `k < limit`, ten times the size of the system when there is no limit. -/
def maxSteps (size : Nat) : Setting R → Except Fault Nat
  | .none => .ok (10 * size)
  | .real x => .ok (Scalar.ceil x).toNat
  | s => do return (← s.wholeNumber).toNat

def limits (f : KrylovFields R) (size : Nat) : Except Fault (Krylov.Limits R) := do
  return ⟨← f.tol.number, ← f.atol.number, ← maxSteps size f.maxiter⟩

end KrylovFields

def KrylovMethod.routine (K : Kernels R) : KrylovMethod R → Except Fault (KrylovRoutine R)
  | cg => .ok K.cg
  | gmres restart => do return K.gmres (← restart.wholeNumber).toNat
  | bicgstab => .ok K.bicgstab

/-- The unknowns in terms of the preconditioned ones. -/
def Preconditioners.unknowns (P : Preconditioners R n) : Product R n n :=
  match P.right with
  | none => .ok
  | some f => f

namespace Iterative

/-- How far above its own tolerance an iteration may end. -/
def slack : R := ((100 : Nat) : R)

/-- Runs a method on the preconditioned system. -/
def run (K : Kernels R) (method : KrylovMethod R) (limits : Krylov.Limits R) (A : Product R n n)
    (P : Preconditioners R n) (b : Vec R n) : Except Fault (Vec R n) := do
  let routine ← method.routine K
  P.unknowns (← routine n (fun y => do A (← P.unknowns y)) P.left limits b)

/-- The bound on the residual that was asked for. -/
def target (limits : Krylov.Limits R) (b : Vec R n) : R :=
  Scalar.atLeast (limits.tol * b.norm) limits.atol

/-- Refuses a vector whose residual is above the slack times the bound. -/
def checkResidual (method : KrylovMethod R) (limits : Krylov.Limits R) (b x image : Vec R n) :
    Except (Failure R) (Vec R n) :=
  let residual := (image - b).norm
  if slack * target limits b < residual then
    .error (.linearSolve (.residualAbove method.tag residual (target limits b)))
  else .ok x

def solve (K : Kernels R) (method : KrylovMethod R) (fields : KrylovFields R) (system : System R n)
    (P : Preconditioners R n) (b : Vec R n) : Except (Failure R) (Vec R n) := do
  let limits ← liftFault (fields.limits n)
  let x ← checkFinite (← liftFault (run K method limits system.apply P b))
  checkResidual method limits b x (← liftFault (system.apply x))

end Iterative

/-- A square system as it is handed to a solve: entries with their mark, or products. -/
inductive HeldSystem (R : Type) (n : Nat) where
  | matrix (held : Held R n n)
  | operator (apply : Product R n n)

def HeldSystem.system : HeldSystem R n → System R n
  | matrix held => .matrix held.matrix
  | operator apply => .operator apply

namespace Direct

def square (K : Kernels R) : Factorization → Mat R n n → Prepared R n n
  | .lu => lu K
  | .cholesky => cholesky K
  | .qr => qr K
  | .svd => pseudoInverse K

/-- The factorizations that serve for least squares, with the use they are made for. -/
def leastSquares? (K : Kernels R) (m n : Nat) :
    Factorization → Option (Usage × (Mat R m n → Prepared R m n))
  | .svd => some (.leastSquares, pseudoInverse K)
  | .qr => some (if n ≤ m then (.leastSquares, qr K) else (.leastNorm, qrTransposed K))
  | _ => none

/-- Puts a right side into a prepared solve. -/
def finish (prepared : Prepared R m n) (b : Vec R m) : Except (Failure R) (Vec R n) :=
  match prepared with
  | .error f => .error (.linearSolve f)
  | .ok solve => checkFinite (solve b)

end Direct

/-- Solves by the factorization that is remembered or else made. -/
def LinearCache.solve (c : LinearCache R) (key : FactorKey R) (held : Held R m n)
    (factorize : Mat R m n → Direct.Prepared R m n) (b : Vec R m) :
    Except (Failure R) (Vec R n) × LinearCache R :=
  let (prepared, c) := c.prepare key held factorize
  (Direct.finish prepared b, c)

/-- Solves a square system. The solve is counted before anything can go wrong. -/
def solveLinear (K : Kernels R) (solver : LinearSolver R) (system : HeldSystem R n) (b : Vec R n)
    (P : Preconditioners R n) (cache : LinearCache R) :
    Except (Failure R) (Vec R n) × LinearCache R :=
  match solver, system with
  | .krylov method fields, system =>
    (Iterative.solve K method fields system.system P b, cache.countSolve)
  | .direct _ _, .operator _ =>
    (.error (.configuration (.matrixMissing solver)), cache.countSolve)
  | .direct f _, .matrix held =>
    cache.countSolve.solve ⟨solver, .square⟩ held (Direct.square K f) b

/-- The least squares solution, of least norm where there are several. -/
def solveLeastSquares (K : Kernels R) (solver : LinearSolver R) (held : Held R m n) (b : Vec R m)
    (cache : LinearCache R) : Except (Failure R) (Vec R n) × LinearCache R :=
  let refused := (.error (.configuration (.notLeastSquares solver)), cache.countSolve)
  match solver with
  | .krylov _ _ => refused
  | .direct f _ =>
    match Direct.leastSquares? K m n f with
    | none => refused
    | some (usage, factorize) => cache.countSolve.solve ⟨solver, usage⟩ held factorize b

end NewtonSolver
