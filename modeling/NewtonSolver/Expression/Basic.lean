import NewtonSolver.Scalar

/-! Formulas over the entries of vectors. -/
namespace NewtonSolver

namespace Expression

inductive Unary where
  | neg
  | exp
  | log
  | sin
  | cos
  | tan
  | tanh
  | atan
  | sqrt
  | abs
  /-- A whole power. -/
  | pow (k : Int)
  deriving DecidableEq

inductive Binary where
  | add
  | sub
  | mul
  | div
  | max
  | min
  deriving DecidableEq

end Expression

/-- A formula whose variables are named by `ι`. -/
inductive Expression (R ι : Type) where
  | constant (c : R)
  | var (i : ι)
  | unary (f : Expression.Unary) (a : Expression R ι)
  | binary (f : Expression.Binary) (a b : Expression R ι)

namespace Expression

variable {R ι κ : Type} [Scalar R]

def Unary.apply : Unary → R → R
  | neg, x => -x
  | exp, x => Scalar.exp x
  | log, x => Scalar.log x
  | sin, x => Scalar.sin x
  | cos, x => Scalar.cos x
  | tan, x => Scalar.tan x
  | tanh, x => Scalar.tanh x
  | atan, x => Scalar.atan x
  | sqrt, x => Scalar.sqrt x
  | abs, x => Scalar.abs x
  | pow k, x => Scalar.pow x k

def Binary.apply : Binary → R → R → R
  | add, x, y => x + y
  | sub, x, y => x - y
  | mul, x, y => x * y
  | div, x, y => x / y
  | max, x, y => Scalar.larger x y
  | min, x, y => Scalar.smaller x y

/-- The value where each variable has the value it is assigned. -/
def eval (assign : ι → R) : Expression R ι → R
  | constant c => c
  | var i => assign i
  | unary f a => f.apply (a.eval assign)
  | binary f a b => f.apply (a.eval assign) (b.eval assign)

omit [Scalar R] in
/-- Renames the variables, if each of them has a new name. -/
def rename? (name? : ι → Option κ) : Expression R ι → Option (Expression R κ)
  | constant c => some (constant c)
  | var i => (name? i).map var
  | unary f a => (a.rename? name?).map (unary f)
  | binary f a b => do return binary f (← a.rename? name?) (← b.rename? name?)

end Expression

end NewtonSolver
