import NewtonSolver.Sparsity.Compression
import NewtonSolver.Problem.Basic
import NewtonSolver.Sparsity.Pattern

/-! The ways of getting the entries of a Jacobian. -/
namespace NewtonSolver

inductive JacobianSource where
  | analytical
  | differences (central : Bool)
  | automatic (mode : DerivativeMode)
  | sparse (mode : DerivativeMode) (colors : Nat)
  /-- Products only. -/
  | products
  deriving DecidableEq

def JacobianSource.text : JacobianSource → String
  | analytical => "analytical"
  | differences central =>
    "finite-difference (" ++ (if central then "central" else "forward") ++ ")"
  | automatic mode => mode.text ++ "-mode AD"
  | sparse mode colors => "sparse " ++ mode.text ++ " (" ++ toString colors ++ " colors)"
  | products => "operator"

def JacobianSource.isAutomatic : JacobianSource → Bool
  | automatic _ => true
  | _ => false

/-- The Jacobian as a function of the point. -/
abbrev Materializer (R : Type) (m n : Nat) := Vec R n → Except Fault (Mat R m n)

namespace Problem

variable {R : Type} [Scalar R] {m n : Nat}

def requireTraceable (P : Problem R m n) (request : DerivativeRequest) : Except Fault Unit :=
  if P.traceable then .ok () else .error (.differentiation (.notTraceable request))

/-- The Jacobian that the problem states, which has to have the right shape. -/
def analytical (jacobian : Vec R n → Except Fault (Table R)) : Materializer R m n := fun x => do
  let table ← jacobian x
  match table.fit? m n with
  | some J => return J
  | none => .error (.differentiation (.jacobianShape table.shape [m, n]))

def automatic (P : Problem R m n) (mode : DerivativeMode) (x : Vec R n) : Mat R m n :=
  match mode with
  | .reverse => P.residual.backwardJacobian x
  | .forward | .finite => P.residual.forwardJacobian x

/-- The derivative of a bare number is found too. It has its entries along one axis, as an only row. -/
def automaticMatrix (P : Problem R m n) (mode : DerivativeMode) : Materializer R m n := fun x =>
  .ok (P.automatic mode x)

def differences (P : Problem R m n) (scheme step : Setting R) : Materializer R m n := fun x => do
  P.residual.differenceJacobian (← DifferenceScheme.ofFields scheme step) none x

/-- Without a backend the cheaper direction is taken. -/
def dense (P : Problem R m n) (d : Option (DenseBackend R)) :
    Except Fault (Materializer R m n × JacobianSource) :=
  match d with
  | some (.finite scheme step) =>
    .ok (P.differences scheme step, .differences (DifferenceScheme.isCentral scheme))
  | some d => automatically d.mode
  | none => automatically (if n ≤ m then .forward else .reverse)
where
  automatically (mode : DerivativeMode) : Except Fault (Materializer R m n × JacobianSource) := do
    P.requireTraceable .jacobian
    return (P.automaticMatrix mode, .automatic mode)

/-- The pattern that the problem states, or else one found about the point. -/
def pattern (P : Problem R m n) (d : DenseBackend R) (x : Vec R n) : Except Fault (Pattern m n) :=
  match P.sparsity with
  | some T =>
    match T.fit? m n with
    | some pattern => .ok pattern
    | none => .error (.differentiation (.patternShape T.shape [m, n]))
  | none =>
    if P.residual.isBare && d.mode != .finite then
      .error (.differentiation (.patternShape [n] [m, n]))
    else do
      let (jacobian, _) ← P.dense (some d)
      Pattern.detect jacobian x 2 0

/-- Colors the pattern once, for the Jacobians at all points. -/
def sparse (P : Problem R m n) (d : DenseBackend R) (x : Vec R n) :
    Except Fault (Materializer R m n × JacobianSource) := do
  if d.mode ≠ .finite then P.requireTraceable .jacobian
  let pattern ← P.pattern d x
  let compression := Compression.greedy d.mode pattern
  return (P.residual.compressedJacobian d pattern compression, .sparse d.mode compression.count)

/-- What the problem states comes first, then what the backend asks for. -/
def materializer (P : Problem R m n) (b : Option (Backend R)) (x : Vec R n) :
    Except Fault (Materializer R m n × JacobianSource) :=
  match P.jacobian, b with
  | some jacobian, _ => .ok (analytical jacobian, .analytical)
  | none, some (.sparse d) => P.sparse d x
  | none, some (.dense d) => P.dense (some d)
  | none, none =>
    if P.traceable then P.dense none else .error (.differentiation .noJacobianSource)

end Problem

end NewtonSolver
