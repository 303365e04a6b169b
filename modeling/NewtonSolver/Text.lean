import NewtonSolver.Decimal
import NewtonSolver.Scalar

/-! Quoted text, and the written forms of numbers. -/
namespace NewtonSolver

namespace Text

/-- First and last code points of runs of controls, spaces other than U+0020, separators, format
characters and private use. -/
def hiddenRanges : List (Nat × Nat) := [
  (0x0, 0x1F), (0x7F, 0xA0), (0xAD, 0xAD), (0x600, 0x605), (0x61C, 0x61C), (0x6DD, 0x6DD),
  (0x70F, 0x70F), (0x890, 0x891), (0x8E2, 0x8E2), (0x1680, 0x1680), (0x180E, 0x180E),
  (0x2000, 0x200F), (0x2028, 0x202F), (0x205F, 0x2064), (0x2066, 0x206F), (0x3000, 0x3000),
  (0xE000, 0xF8FF), (0xFEFF, 0xFEFF), (0xFFF9, 0xFFFB), (0xFFFE, 0xFFFF), (0x110BD, 0x110BD),
  (0x110CD, 0x110CD), (0x13430, 0x1343F), (0x1BCA0, 0x1BCA3), (0x1D173, 0x1D17A),
  (0xE0001, 0xE0001), (0xE0020, 0xE007F), (0xF0000, 0x10FFFF)]

def isHidden (c : Char) : Bool :=
  hiddenRanges.any fun (first, last) => first ≤ c.toNat && c.toNat ≤ last

def hexadecimal (width n : Nat) : List Char :=
  let digits := Nat.toDigits 16 n
  List.replicate (width - digits.length) '0' ++ digits

/-- A hidden character is written by its code point in two, four or eight digits. -/
def escapeHidden (c : Char) : List Char :=
  if c.toNat < 0x100 then ['\\', 'x'] ++ hexadecimal 2 c.toNat
  else if c.toNat < 0x10000 then ['\\', 'u'] ++ hexadecimal 4 c.toNat
  else ['\\', 'U'] ++ hexadecimal 8 c.toNat

def escape (quote c : Char) : List Char :=
  if c = quote ∨ c = '\\' then ['\\', c]
  else if c = '\n' then ['\\', 'n']
  else if c = '\r' then ['\\', 'r']
  else if c = '\t' then ['\\', 't']
  else if isHidden c then escapeHidden c
  else [c]

/-- Single quotes, unless the text holds one and no double quote. -/
def quoteFor (s : List Char) : Char := if '\'' ∈ s ∧ '"' ∉ s then '"' else '\''

def quoted (s : String) : String :=
  let quote := quoteFor s.toList
  String.ofList (quote :: s.toList.flatMap (escape quote) ++ [quote])

end Text

namespace Decimal

/-- How a number is laid out in text. -/
structure Layout where
  /-- Positional notation is used from this exponent of the leading digit, -/
  leastPositional : Int
  /-- and below this one. -/
  exponentFrom : Int
  /-- Least number of digits of a written exponent. -/
  exponentDigits : Nat
  notANumber : String
  infinity : String

/-- Numbers are positional from `0.0001` up to sixteen places before the point. -/
def standard : Layout := ⟨-4, 16, 2, "nan", "inf"⟩

def zeros (n : Nat) : String := "".pushn '0' n

def Layout.exponent (layout : Layout) (e : Int) : String :=
  let text := toString e.natAbs
  (if e < 0 then "e-" else "e+") ++ zeros (layout.exponentDigits - text.length) ++ text

/-- One digit before the point, the others after it, and an exponent. -/
def Layout.scientific (layout : Layout) (digits : List Char) (leading : Int) : String :=
  match digits with
  | [] => ""
  | [d] => d.toString ++ layout.exponent leading
  | d :: rest => d.toString ++ "." ++ String.ofList rest ++ layout.exponent leading

def positional (digits : List Char) (leading : Int) : String :=
  match leading with
  | .negSucc k => "0." ++ zeros k ++ String.ofList digits
  | .ofNat k =>
    let whole := digits.take (k + 1)
    let rest := digits.drop (k + 1)
    String.ofList whole ++ zeros (k + 1 - whole.length) ++ "." ++
      (if rest.isEmpty then "0" else String.ofList rest)

/-- Digits without the zeros at the end, and the exponent of the leading one. -/
def Number.figures (x : Number) : List Char × Int :=
  let digits := (toString x.digits).toList
  let kept := (digits.reverse.dropWhile (· = '0')).reverse
  (kept, x.scale + digits.length - 1)

/-- The sign and text of a number whose magnitude is written by `write`. -/
def Layout.signed (layout : Layout) (x : Float) (write : Binary → String) : String :=
  if x.isNaN then layout.notANumber
  else
    let b := Binary.ofFloat x
    (if b.negative then "-" else "") ++ if x.isInf then layout.infinity else write b

/-- The fewest digits that read back. -/
def Layout.shortest (layout : Layout) (x : Float) : String :=
  layout.signed x fun b =>
    if b.mantissa = 0 then "0.0"
    else
      let (digits, leading) := b.shortest.figures
      if layout.leastPositional ≤ leading ∧ leading < layout.exponentFrom
      then positional digits leading
      else layout.scientific digits leading

/-- So many digits after the point, with an exponent. -/
def Layout.fixed (layout : Layout) (places : Nat) (x : Float) : String :=
  layout.signed x fun b =>
    if b.mantissa = 0 then layout.scientific (List.replicate (places + 1) '0') 0
    else
      let y := b.magnitude.significant (places + 1)
      layout.scientific (toString y.digits).toList (y.scale + places)

end Decimal

/-- Numbers that have a written form. -/
class Written (R : Type) where
  /-- The form that reads back. -/
  text (x : R) : String
  /-- Four significant digits with an exponent, for reports. -/
  brief (x : R) : String

instance : Written Float where
  text := Decimal.standard.shortest
  brief := Decimal.standard.fixed 3

end NewtonSolver
