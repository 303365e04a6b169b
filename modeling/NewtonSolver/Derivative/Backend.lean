import NewtonSolver.Setting

/-! The ways of differentiating a residual that can be asked for. -/
namespace NewtonSolver

inductive DerivativeMode where
  | forward
  | reverse
  | finite
  deriving DecidableEq

def DerivativeMode.text : DerivativeMode → String
  | forward => "forward"
  | reverse => "reverse"
  | finite => "finite"

/-- A way of differentiating without regard to sparsity. Fields hold what the caller wrote. -/
inductive DenseBackend (R : Type) where
  | forward (name : Setting R)
  | reverse (name : Setting R)
  | finite (scheme step : Setting R)

inductive Backend (R : Type) where
  | dense (d : DenseBackend R)
  /-- Columns, or rows, that share no place are differentiated together. -/
  | sparse (d : DenseBackend R)

namespace DenseBackend

variable {R : Type}

def ofSetting? : Setting R → Option (DenseBackend R)
  | .tag .autoForward [name] => some (forward name)
  | .tag .autoReverse [name] => some (reverse name)
  | .tag .autoFiniteDiff [scheme, step] => some (finite scheme step)
  | _ => none

def toSetting : DenseBackend R → Setting R
  | forward name => .tag .autoForward [name]
  | reverse name => .tag .autoReverse [name]
  | finite scheme step => .tag .autoFiniteDiff [scheme, step]

def mode : DenseBackend R → DerivativeMode
  | forward _ => .forward
  | reverse _ => .reverse
  | finite _ _ => .finite

/-- Whether a finite difference scheme goes by a known name; other ways of differentiating pass. -/
def schemeKnown : DenseBackend R → Bool
  | finite (.text s) _ => s == "forward" || s == "central"
  | finite _ _ => false
  | _ => true

end DenseBackend

namespace Backend

variable {R : Type}

/-- The scheme is looked at outside a sparse backend only. -/
def ofSetting? : Setting R → Option (Backend R)
  | .tag .autoSparse [inner] => (DenseBackend.ofSetting? inner).map sparse
  | s => ((DenseBackend.ofSetting? s).filter DenseBackend.schemeKnown).map dense

def toSetting : Backend R → Setting R
  | dense d => d.toSetting
  | sparse d => .tag .autoSparse [d.toSetting]

def underlying : Backend R → DenseBackend R
  | dense d | sparse d => d

def mode (b : Backend R) : DerivativeMode := b.underlying.mode

end Backend

end NewtonSolver
