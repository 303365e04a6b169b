import NewtonSolver.Expression.Basic
import NewtonSolver.Mat

/-! Derivatives of formulas, carried forward along a direction or backward from the value. -/
namespace NewtonSolver.Expression

variable {R ι : Type} [Scalar R] {n : Nat}

/-- What passes through a choice between two numbers: all to the chosen one, half to each of two equal
ones. -/
def share (mine other chosen : R) : R :=
  if mine == chosen then (if other == chosen then Scalar.half else 1) else 0

/-- The rate `g` of the argument `x` turned into the rate of the value `y`. At zero the magnitude grows
with its argument. -/
def Unary.rate (f : Unary) (x y g : R) : R :=
  match f with
  | neg => -g
  | exp => g * y
  | log => g / x
  | sin => g * Scalar.cos x
  | cos => -(g * Scalar.sin x)
  | tan => g * (1 + y * y)
  | tanh => (g + g * y) * (1 - y)
  | atan => g / (1 + x * x)
  | sqrt => g * (Scalar.half / y)
  | abs => if 0 ≤ x then g else -g
  | pow k => g * ((k : R) * Scalar.pow x (k - 1))

/-- Whether the value hangs on the argument at all. -/
def Unary.dependent : Unary → Bool
  | pow k => k != 0
  | _ => true

/-- The rate `g` of the left argument turned into the rate of the value. -/
def Binary.rateLeft (f : Binary) (x y g : R) : R :=
  match f with
  | add | sub => g
  | mul => g * y
  | div => g / y
  | max => g * share x y (Scalar.larger x y)
  | min => g * share x y (Scalar.smaller x y)

/-- The rate `g` of the right argument turned into the rate of the value. -/
def Binary.rateRight (f : Binary) (x y g : R) : R :=
  match f with
  | add => g
  | sub => -g
  | mul => x * g
  | div => -g * x * Scalar.pow y (-2)
  | max => g * share y x (Scalar.larger x y)
  | min => g * share y x (Scalar.smaller x y)

/-- A value and its rate of change. A constant has none, which differs from a rate of zero where a
factor is not finite. -/
structure Dual (R : Type) where
  value : R
  rate : Option R

def addRates : Option R → Option R → Option R
  | some g, some h => some (g + h)
  | some g, none => some g
  | none, h => h

/-- Value and rate of change where each variable has the value and the rate it is assigned. -/
def dual (assign rate : ι → R) : Expression R ι → Dual R
  | constant c => ⟨c, none⟩
  | var i => ⟨assign i, some (rate i)⟩
  | unary f a =>
    let a := a.dual assign rate
    let y := f.apply a.value
    ⟨y, if f.dependent then a.rate.map (f.rate a.value y) else none⟩
  | binary f a b =>
    let a := a.dual assign rate
    let b := b.dual assign rate
    ⟨f.apply a.value b.value,
      addRates (a.rate.map (f.rateLeft a.value b.value)) (b.rate.map (f.rateRight a.value b.value))⟩

def forward (assign rate : ι → R) (e : Expression R ι) : R := ((e.dual assign rate).rate).getD 0

/-- What each occurrence of a variable contributes to the derivative times `g`. -/
def contributions (assign : ι → R) : Expression R ι → R → List (ι × R)
  | constant _, _ => []
  | var i, g => [(i, g)]
  | unary f a, g =>
    let x := a.eval assign
    if f.dependent then a.contributions assign (f.rate x (f.apply x) g) else []
  | binary f a b, g =>
    let x := a.eval assign
    let y := b.eval assign
    a.contributions assign (f.rateLeft x y g) ++ b.contributions assign (f.rateRight x y g)

/-- The derivative times `g`, entry by entry. -/
def backward (assign : Vec R n) (e : Expression R (Fin n)) (g : R) : Vec R n :=
  (e.contributions assign.get g).foldl (fun (sum : Vec R n) (i, h) => sum.put i (sum.get i + h)) 0

end NewtonSolver.Expression
