import NewtonSolver.Setting

/-! The two kinds of step, to a root of the linear model or to its least squares point, the linear solvers that
can be asked for, and why one gives no solution. -/
namespace NewtonSolver

inductive DescentKind where
  | newton
  | gaussNewton
  deriving DecidableEq

def DescentKind.text : DescentKind → String
  | newton => "newton"
  | gaussNewton => "gauss_newton"

inductive Factorization where
  | lu
  | cholesky
  | qr
  | svd
  deriving DecidableEq

/-- What bounds a Krylov iteration, as the caller wrote it. -/
structure KrylovFields (R : Type) where
  tol : Setting R
  atol : Setting R
  maxiter : Setting R

inductive KrylovMethod (R : Type) where
  | cg
  | gmres (restart : Setting R)
  | bicgstab

inductive LinearSolver (R : Type) where
  /-- A factorization needs the entries of the matrix. -/
  | direct (f : Factorization) (name : Setting R)
  /-- An iteration needs products only. -/
  | krylov (method : KrylovMethod R) (fields : KrylovFields R)

def Factorization.tag : Factorization → Tag
  | lu => .denseLU
  | cholesky => .denseCholesky
  | qr => .denseQR
  | svd => .denseSVD

def KrylovMethod.tag {R : Type} : KrylovMethod R → Tag
  | cg => .krylovCG
  | gmres _ => .krylovGMRES
  | bicgstab => .krylovBiCGStab

namespace LinearSolver

variable {R : Type}

def ofSetting? : Setting R → Option (LinearSolver R)
  | .tag .denseLU [name] => some (direct .lu name)
  | .tag .denseCholesky [name] => some (direct .cholesky name)
  | .tag .denseQR [name] => some (direct .qr name)
  | .tag .denseSVD [name] => some (direct .svd name)
  | .tag .krylovCG [tol, atol, maxiter] => some (krylov .cg ⟨tol, atol, maxiter⟩)
  | .tag .krylovGMRES [tol, atol, restart, maxiter] =>
    some (krylov (.gmres restart) ⟨tol, atol, maxiter⟩)
  | .tag .krylovBiCGStab [tol, atol, maxiter] => some (krylov .bicgstab ⟨tol, atol, maxiter⟩)
  | _ => none

def tag : LinearSolver R → Tag
  | direct f _ => f.tag
  | krylov method _ => method.tag

def toSetting : LinearSolver R → Setting R
  | direct f name => .tag f.tag [name]
  | krylov (.gmres restart) f => .tag .krylovGMRES [f.tol, f.atol, restart, f.maxiter]
  | krylov method f => .tag method.tag [f.tol, f.atol, f.maxiter]

def requiresMatrix : LinearSolver R → Bool
  | direct _ _ => true
  | krylov _ _ => false

variable [Scalar R]

/-- A square Newton step is solved directly or by the general iteration; all else is least squares. -/
def default (kind : DescentKind) (concrete square : Bool) : LinearSolver R :=
  if kind = .newton ∧ square then
    if concrete then direct .lu (.text "dense_lu")
    else krylov (.gmres (.whole 20)) ⟨.real (Scalar.decimal 1 10), .real 0, .none⟩
  else
    if concrete then direct .qr (.text "dense_qr")
    else krylov .cg ⟨.real (Scalar.decimal 1 10), .real 0, .none⟩

end LinearSolver

inductive LinearSolveReason where
  | singular
  | iterationLimit
  | numericalOverflow
  deriving DecidableEq

def LinearSolveReason.text : LinearSolveReason → String
  | singular => "singular"
  | iterationLimit => "iteration-limit"
  | numericalOverflow => "numerical-overflow"

def LinearSolveReason.ofText? (s : String) : Option LinearSolveReason :=
  [singular, iterationLimit, numericalOverflow].find? (·.text = s)

inductive LinearSolveFailure (R : Type) where
  | zeroPivotLU
  | notPositiveDefinite
  | zeroPivotCholesky
  | rankDeficient
  | nonFiniteSolution
  /-- The solution of an iteration is checked against the system that was asked for. -/
  | residualAbove (solver : Tag) (residual target : R)
  | reported (reason : LinearSolveReason) (detail : String)

namespace LinearSolveFailure

variable {R : Type}

def reason : LinearSolveFailure R → LinearSolveReason
  | zeroPivotLU | notPositiveDefinite | zeroPivotCholesky | rankDeficient => .singular
  | nonFiniteSolution => .numericalOverflow
  | residualAbove _ _ _ => .iterationLimit
  | reported reason _ => reason

variable [Written R]

def detail : LinearSolveFailure R → String
  | zeroPivotLU => "zero pivot in LU factorization"
  | notPositiveDefinite => "matrix is not symmetric positive definite"
  | zeroPivotCholesky => "zero pivot in Cholesky factor"
  | rankDeficient => "rank deficient QR factor"
  | nonFiniteSolution => "solution has non-finite entries"
  | residualAbove solver residual target =>
    solver.name ++ " residual " ++ Written.brief residual ++ " above tolerance " ++
      Written.brief target
  | reported _ detail => detail

def message (f : LinearSolveFailure R) : String :=
  if f.detail.isEmpty then f.reason.text else f.reason.text ++ ": " ++ f.detail

end LinearSolveFailure

end NewtonSolver
