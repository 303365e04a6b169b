import NewtonSolver.LinearSolver.Direct

/-! The factorization that was made last, kept for the next linear solve, and counters. -/
namespace NewtonSolver

/-- What a factorization serves for. -/
inductive Usage where
  | square
  | leastSquares
  | leastNorm
  deriving DecidableEq

/-- Factorizations made for different keys are never exchanged. -/
structure FactorKey (R : Type) where
  solver : LinearSolver R
  usage : Usage

/-- A matrix, with a mark that identical arrays share. -/
structure Held (R : Type) (m n : Nat) where
  matrix : Mat R m n
  mark : Option Nat

structure FactorEntry (R : Type) where
  key : FactorKey R
  rows : Nat
  cols : Nat
  held : Held R rows cols
  solve : Vec R rows → Vec R cols

structure LinearCache (R : Type) where
  solves : Nat
  factorizations : Nat
  entry : Option (FactorEntry R)

variable {R : Type} [Scalar R] {m n : Nat}

def FactorKey.same (a b : FactorKey R) : Bool :=
  a.solver.tag == b.solver.tag && a.usage == b.usage &&
    a.solver.toSetting.same b.solver.toSetting

/-- The same array, or equal entries. -/
def Held.same (a b : Held R m n) : Bool :=
  (a.mark.isSome && a.mark == b.mark) || a.matrix.same b.matrix

/-- The prepared solve of the entry, if it was made for this key and this matrix. -/
def FactorEntry.recall? (e : FactorEntry R) (key : FactorKey R) (held : Held R m n) :
    Option (Vec R m → Vec R n) :=
  match e with
  | ⟨key', rows, cols, held', solve⟩ =>
    if hr : rows = m then
      if hc : cols = n then
        if key'.same key && Held.same (hr ▸ hc ▸ held') held then some (hr ▸ hc ▸ solve) else none
      else none
    else none

namespace LinearCache

def empty : LinearCache R := ⟨0, 0, none⟩

def countSolve (c : LinearCache R) : LinearCache R := { c with solves := c.solves + 1 }

/-- Recalls the prepared solve, or prepares it and keeps it. A failed preparation changes nothing. -/
def prepare (c : LinearCache R) (key : FactorKey R) (held : Held R m n)
    (factorize : Mat R m n → Direct.Prepared R m n) : Direct.Prepared R m n × LinearCache R :=
  match c.entry.bind (·.recall? key held) with
  | some solve => (.ok solve, c)
  | none =>
    match factorize held.matrix with
    | .error f => (.error f, c)
    | .ok solve =>
      (.ok solve, ⟨c.solves, c.factorizations + 1, some ⟨key, m, n, held, solve⟩⟩)

end LinearCache

end NewtonSolver
