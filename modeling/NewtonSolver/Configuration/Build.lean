import NewtonSolver.Configuration.Basic
import NewtonSolver.Configuration.Validation
import NewtonSolver.Preconditioner

/-! Configurations from option values: every option is looked at before any run starts. -/
namespace NewtonSolver

/-- The option values of a caller. -/
structure Options (R : Type) where
  concrete : Setting R
  linearSolver : Setting R
  preconditioner : Setting R
  lineSearch : Setting R
  autodiff : Setting R
  vjpAutodiff : Setting R
  policy : Setting R

/-- A hint on an option that still works but should be written differently. -/
inductive Notice where
  | bareLineSearch
  deriving DecidableEq

def Notice.message : Notice → String
  | bareLineSearch =>
    "Passing a line-search callable directly is deprecated; wrap it as " ++
      "LineSearchAdapter(method=...) instead."

structure ConfigurationBuild (R : Type) where
  configuration : Configuration R
  notices : List Notice

variable {R : Type} [Scalar R]

def DescentKind.ofSetting (s : Setting R) : Except (Failure R) DescentKind :=
  match s with
  | .text "newton" => .ok newton
  | .text "gauss_newton" => .ok gaussNewton
  | s => .error (.configuration (.descentKind s))

def FailurePolicy.ofSetting (s : Setting R) : Except (Failure R) FailurePolicy :=
  match s with
  | .text "fail" => .ok fail
  | .text "halve" => .ok halve
  | s => .error (.configuration (.failurePolicy s))

namespace Options

def defaults : Options R := ⟨.none, .none, .none, .none, .none, .none, .text "fail"⟩

def needsMatrix (o : Options R) : Except (Failure R) (Option Bool) :=
  match o.concrete with
  | .none => .ok none
  | .flag b => .ok (some b)
  | s => .error (.configuration (.concreteFlag s))

/-- A solver that needs the entries of the matrix cannot do without them. -/
def solver (o : Options R) (needsMatrix : Option Bool) :
    Except (Failure R) (Option (LinearSolver R)) :=
  match o.linearSolver with
  | .none => .ok none
  | s => do
    let solver ← LinearSolver.recognize s
    require (!(needsMatrix == some false && solver.requiresMatrix)) (.matrixForbidden solver)
    return some solver

def preconditionerSpec (o : Options R) : Except (Failure R) (Option (PreconditionerSpec R)) := do
  require (← liftFault (PreconditionerSpec.accepts o.preconditioner))
    (.preconditioner o.preconditioner)
  PreconditionerSpec.recognize o.preconditioner

def backend (role : BackendOption) (s : Setting R) : Except (Failure R) (Option (Backend R)) :=
  match s with
  | .none => .ok none
  | s =>
    match Backend.ofSetting? s with
    | some b => .ok (some b)
    | none => .error (.configuration (.backend role s))

/-- Without an option steps are full; a function alone is taken with a notice. -/
def strategy (o : Options R) : Except (Failure R) (LineSearchStrategy R × List Notice) :=
  match o.lineSearch with
  | .none => .ok (.fullStep (.text "no_line_search"), [])
  | .callable f => .ok (.external (.callable f), [.bareLineSearch])
  | s => do return (← LineSearchStrategy.recognize s, [])

/-- The first option that is wrong decides the failure. -/
def build (kind : Setting R) (o : Options R) : Except (Failure R) (ConfigurationBuild R) := do
  let kind ← DescentKind.ofSetting kind
  let needsMatrix ← o.needsMatrix
  let solver ← o.solver needsMatrix
  let preconditioner ← o.preconditionerSpec
  let jacobianBackend ← backend .autodiff o.autodiff
  let transposedBackend ← backend .vjpAutodiff o.vjpAutodiff
  let policy ← FailurePolicy.ofSetting o.policy
  let (lineSearch, notices) ← o.strategy
  return ⟨⟨needsMatrix, kind, solver, preconditioner, lineSearch, jacobianBackend, transposedBackend,
    policy⟩, notices⟩

/-- The configuration for steps of a kind, with the hints in words. -/
def configure (kind : DescentKind) (o : Options R) :
    Except (Failure R) (Configuration R × List String) := do
  let built ← o.build (.text kind.text)
  return (built.configuration, built.notices.map Notice.message)

end Options

end NewtonSolver
