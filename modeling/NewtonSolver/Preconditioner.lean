import NewtonSolver.Failure
import NewtonSolver.Operator

/-! The preconditioners that can be asked for, and those of one linear system. -/
namespace NewtonSolver

inductive PreconditionerSpec (R : Type) where
  /-- Division by the diagonal, which is estimated by random signs for a system without entries. -/
  | jacobi (samples seed : Setting R)
  | custom (f : Callable R)

namespace PreconditionerSpec

variable {R : Type}

def ofSetting? : Setting R → Option (PreconditionerSpec R)
  | .tag .jacobiPreconditioner [samples, seed] => some (jacobi samples seed)
  | .callable f => some (custom f)
  | _ => none

def toSetting : PreconditionerSpec R → Setting R
  | jacobi samples seed => .tag .jacobiPreconditioner [samples, seed]
  | custom f => .callable f

end PreconditionerSpec

/-- Maps applied to residuals (left) and to unknowns (right). -/
structure Preconditioners (R : Type) (n : Nat) where
  left : Option (Product R n n)
  right : Option (Product R n n)

variable {R : Type} [Scalar R] {n : Nat}

def Preconditioners.absent : Preconditioners R n := ⟨none, none⟩

/-- Division by a diagonal in which entries too small to divide by count as one. -/
def inverseDiagonal (d v : Vec R n) : Vec R n :=
  v.zipWith (fun x d => x / if Scalar.decimal 1 300 < Scalar.abs d then d else 1) d

namespace PreconditionerSpec

/-- The diagonal of a matrix, or the estimate of the diagonal of an operator. -/
def diagonalOf (samples seed : Setting R) : System R n → Except Fault (Vec R n)
  | .matrix A => .ok A.diagonal
  | .operator A => do
    let samples ← samples.wholeNumber
    let seed ← seed.wholeNumber
    if samples < 0 then .error (.unfit .argument)
    else Operator.estimateDiagonal A (Operator.signProbes samples.toNat seed.toNat)

def side : Side R n → Except (Failure R) (Option (Product R n n))
  | .absent => .ok none
  | .apply f => .ok (some f)
  | .other text => .error (.configuration (.preconditionerSide text))

def fromBuilt : Built R n → Except (Failure R) (Preconditioners R n)
  | .pair left right => do return ⟨← side left, ← side right⟩
  | .other => .error (.configuration .preconditionerPair)

def build (system : System R n) : PreconditionerSpec R → Except (Failure R) (Preconditioners R n)
  | jacobi samples seed => do
    let d ← liftFault (diagonalOf samples seed system)
    return ⟨some fun v => .ok (inverseDiagonal d v), none⟩
  | custom (.preconditioner _ f) => do fromBuilt (← liftFault (f n system))
  | custom _ => .error (.unfit .argument)

/-- No specification gives no preconditioners. -/
def build? (spec : Option (PreconditionerSpec R)) (system : System R n) :
    Except (Failure R) (Preconditioners R n) :=
  match spec with
  | none => .ok .absent
  | some spec => spec.build system

/-- What an option value asks for, before its fields are looked at. -/
def recognize : Setting R → Except (Failure R) (Option (PreconditionerSpec R))
  | .none => .ok none
  | s =>
    match ofSetting? s with
    | some spec => .ok (some spec)
    | none => .error (.configuration (.preconditioner s))

/-- Whether an option value asks for no preconditioner or for one that can be built. -/
def accepts (s : Setting R) : Except Fault Bool :=
  match s, ofSetting? s with
  | .none, _ => .ok true
  | _, some (jacobi samples _) => do
    return decide (1 ≤ (← samples.numberOr (.unordered .atLeast samples.kind .whole)))
  | _, some (custom _) => .ok true
  | _, none => .ok false

end PreconditionerSpec

end NewtonSolver
