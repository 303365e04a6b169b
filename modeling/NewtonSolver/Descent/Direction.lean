import NewtonSolver.Configuration.Basic
import NewtonSolver.Jacobian.Path
import NewtonSolver.LinearSolver.Solve

/-! Steps to a root, or to a least squares point, of the linear model of a residual. -/
namespace NewtonSolver

structure Descent (R : Type) (n : Nat) where
  /-- Zero if the linear solve failed. -/
  direction : Vec R n
  failure : Option (LinearSolveFailure R)

namespace Descent

variable {R : Type} [Scalar R] {m n : Nat}

/-- The outcome of a direction, with the cache afterwards. -/
abbrev Attempt (R : Type) (n : Nat) := Except (Failure R) (Vec R n) × LinearCache R

/-- Builds the preconditioners and solves. -/
def solveWith (K : Kernels R) (spec : Option (PreconditionerSpec R)) (solver : LinearSolver R)
    (system : HeldSystem R n) (b : Vec R n) (cache : LinearCache R) : Attempt R n :=
  match PreconditionerSpec.build? spec system.system with
  | .error f => (.error f, cache)
  | .ok P => solveLinear K solver system b P cache

/-- The solution of `J d = b`. -/
def root (K : Kernels R) (spec : Option (PreconditionerSpec R)) (solver : LinearSolver R)
    (J : JacobianInfo R n n) (b : Vec R n) (cache : LinearCache R) : Attempt R n :=
  match J with
  | .matrix J => solveWith K spec solver (.matrix ⟨J, none⟩) b cache
  | .operator J => solveWith K spec solver (.operator J.apply) b cache

/-- The least squares solution of `J d = b` by the normal equations. -/
def normalEquations (K : Kernels R) (spec : Option (PreconditionerSpec R)) (solver : LinearSolver R)
    (J : JacobianInfo R m n) (b : Vec R m) (cache : LinearCache R) : Attempt R n :=
  match J with
  | .matrix J => solveWith K spec solver (.matrix ⟨J.transpose.mul J, none⟩) (J.vecMul b) cache
  | .operator J =>
    match J.applyTranspose b with
    | .error f => (.error (.ofFault f), cache)
    | .ok projected =>
      solveWith K spec solver (.operator (Operator.normal J.apply J.applyTranspose 0)) projected cache

/-- The least squares solution of `J d = b`, directly where solver and Jacobian allow it. -/
def leastSquares (K : Kernels R) (spec : Option (PreconditionerSpec R)) (solver : LinearSolver R)
    (J : JacobianInfo R m n) (b : Vec R m) (cache : LinearCache R) : Attempt R n :=
  match solver, J with
  | .direct .qr _, .matrix A | .direct .svd _, .matrix A =>
    solveLeastSquares K solver ⟨A, none⟩ b cache
  | _, _ => normalEquations K spec solver J b cache

/-- Steps to a root are for square Jacobians. -/
def solveModel (K : Kernels R) (c : Configuration R) (solver : LinearSolver R) (J : JacobianInfo R m n)
    (b : Vec R m) (cache : LinearCache R) : Attempt R n :=
  if h : m = n then
    if c.kind = .newton then root K c.preconditioner solver (h ▸ J) (h ▸ b) cache
    else leastSquares K c.preconditioner solver J b cache
  else leastSquares K c.preconditioner solver J b cache

/-- A Jacobian that an iteration can work with: products that it may not call become a matrix. -/
def settle (J : JacobianInfo R m n) : Except Fault (JacobianInfo R m n) :=
  match J with
  | .matrix J => .ok (.matrix J)
  | .operator op => do
    if op.traceable then return .operator op else return .matrix (← op.columns)

/-- The descent direction at a point with the given residual. A linear solve that fails is told in the
result, and all other failures are passed on. -/
def compute (K : Kernels R) (c : Configuration R) (solver : LinearSolver R) (J : JacobianInfo R m n)
    (residual : Vec R m) (cache : LinearCache R) :
    Except (Failure R) (Descent R n) × LinearCache R :=
  match settle J with
  | .error f => (.error (.ofFault f), cache)
  | .ok J =>
    match solveModel K c solver J (-residual) cache with
    | (.ok d, cache) => (.ok ⟨d, none⟩, cache)
    | (.error (.linearSolve f), cache) => (.ok ⟨0, some f⟩, cache)
    | (.error f, cache) => (.error f, cache)

end Descent

end NewtonSolver
