/-! Doubles in decimal digits: rounded to a number of them, and the fewest that read back as the double. -/
namespace NewtonSolver.Decimal

/-- The number `± mantissa · 2 ^ exponent`. -/
structure Binary where
  negative : Bool
  mantissa : Nat
  exponent : Int
  deriving DecidableEq

/-- The least exponent, shared by zero, the subnormal numbers and the first normal ones. -/
def Binary.leastExponent : Int := -1074

/-- Reads sign, exponent and fraction of a finite number from its 64 bits. -/
def Binary.ofBits (bits : UInt64) : Binary :=
  let code := bits.toNat
  let fraction := code % Nat.pow 2 52
  let biased := code / Nat.pow 2 52 % Nat.pow 2 11
  if biased = 0 then ⟨code / Nat.pow 2 63 = 1, fraction, leastExponent⟩
  else ⟨code / Nat.pow 2 63 = 1, fraction + Nat.pow 2 52, leastExponent + (biased - 1 : Nat)⟩

def Binary.ofFloat (x : Float) : Binary := ofBits x.toBits

/-- A nonnegative fraction of whole numbers. -/
structure Fraction where
  num : Nat
  den : Nat

/-- The fraction `m · b ^ e`. -/
def Fraction.scaled (m b : Nat) (e : Int) : Fraction :=
  match e with
  | .ofNat k => ⟨m * Nat.pow b k, 1⟩
  | .negSucc k => ⟨m, Nat.pow b (k + 1)⟩

def Binary.magnitude (x : Binary) : Fraction := .scaled x.mantissa 2 x.exponent

/-- The decimal number `digits · 10 ^ scale`. -/
structure Number where
  digits : Nat
  scale : Int
  deriving DecidableEq

def digitCount (n : Nat) : Nat := if n < 10 then 1 else digitCount (n / 10) + 1

/-- The quotient rounded to the nearest whole number, a tie to the even one. -/
def roundDiv (num den : Nat) : Nat :=
  let q := num / den
  let r := num % den
  if 2 * r < den then q else if den < 2 * r then q + 1 else q + q % 2

/-- The exponent `e` with `10 ^ e ≤ x < 10 ^ (e + 1)`, for positive `x`. -/
def Fraction.leading (x : Fraction) : Int :=
  if x.den ≤ x.num then digitCount (x.num / x.den) - 1
  else -(digitCount ((x.den + x.num - 1) / x.num - 1) : Int)

/-- The fraction in units of `10 ^ scale`. -/
def Fraction.inUnits (x : Fraction) (scale : Int) : Fraction :=
  match scale with
  | .ofNat k => ⟨x.num, x.den * Nat.pow 10 k⟩
  | .negSucc k => ⟨x.num * Nat.pow 10 (k + 1), x.den⟩

/-- The nearest number of so many significant digits, for positive arguments. -/
def Fraction.significant (x : Fraction) (count : Nat) : Number :=
  let scale := x.leading - count + 1
  let units := x.inUnits scale
  let rounded := roundDiv units.num units.den
  if rounded = Nat.pow 10 count then ⟨rounded / 10, scale + 1⟩ else ⟨rounded, scale⟩

/-- The double nearest to a decimal number. -/
def Number.toFloat (x : Number) : Float :=
  match x.scale with
  | .ofNat k => Float.ofScientific x.digits false k
  | .negSucc k => Float.ofScientific x.digits true (k + 1)

/-- A finite double rounded to so many significant decimal digits. -/
def roundFloat (count : Nat) (x : Float) : Float :=
  let b := Binary.ofFloat x
  if b.mantissa = 0 then x
  else
    let y := (b.magnitude.significant count).toFloat
    if b.negative then -y else y

/-- The reals that round to a double, on a common denominator; the ends belong to it for an even
mantissa. -/
structure Interval where
  low : Nat
  value : Nat
  high : Nat
  den : Nat
  closed : Bool

/-- Half a step on each side, and a quarter of a step below a power of two. -/
def Binary.interval (x : Binary) : Interval :=
  let unit := Fraction.scaled 1 2 (x.exponent - 2)
  let below := if x.mantissa = Nat.pow 2 52 ∧ Binary.leastExponent < x.exponent then 1 else 2
  { low := (4 * x.mantissa - below) * unit.num
    value := 4 * x.mantissa * unit.num
    high := (4 * x.mantissa + 2) * unit.num
    den := unit.den
    closed := x.mantissa % 2 = 0 }

/-- Whether `c · 10 ^ scale` rounds to the double. -/
def Interval.holds (i : Interval) (c : Nat) (scale : Int) : Bool :=
  let low := Fraction.inUnits ⟨i.low, i.den⟩ scale
  let high := Fraction.inUnits ⟨i.high, i.den⟩ scale
  if i.closed then low.num ≤ c * low.den && c * high.den ≤ high.num
  else low.num < c * low.den && c * high.den < high.num

/-- The better of the two neighbours of the value on the grid of `10 ^ scale`, if one rounds to it. -/
def Interval.onGrid (i : Interval) (scale : Int) : Option Number :=
  let units := Fraction.inUnits ⟨i.value, i.den⟩ scale
  let nearest := roundDiv units.num units.den
  let floor := units.num / units.den
  let other := if nearest = floor then floor + 1 else floor
  if i.holds nearest scale then some ⟨nearest, scale⟩
  else if i.holds other scale then some ⟨other, scale⟩
  else none

/-- The first grid with a hit, from one digit to seventeen. -/
def Binary.shortest (x : Binary) : Number :=
  let i := x.interval
  let leading := Fraction.leading ⟨i.value, i.den⟩
  ((List.range 17).findSome? fun (k : Nat) => i.onGrid (leading - k)).getD ⟨i.value / i.den, 0⟩

end NewtonSolver.Decimal
