import Mathlib
import NewtonSolver.LineSearch.Merit
import NewtonSolver.Proofs.Arithmetic.Exact

/-! Exact arithmetic that may lack a result: finite values are real numbers, and whatever else there is
spoils the sums and products that it enters. -/
namespace NewtonSolver

/-- Arithmetic that is exact on finite values. Nothing is said of the others but that no sum, difference
or product of them is finite, and none lies between finite ones. -/
class ExactScalar (R : Type) extends Scalar R where
  /-- The number that a finite value is. -/
  real? : R → Option ℝ
  isFinite_eq (a : R) : isFinite a = (real? a).isSome
  real?_zero : real? 0 = some 0
  real?_one : real? 1 = some 1
  real?_natCast (k : Nat) : real? (k : R) = some (k : ℝ)
  real?_intCast (i : Int) : real? (i : R) = some (i : ℝ)
  real?_decimal (m e : Nat) : real? (decimal m e) = some ((m : ℝ) / 10 ^ e)
  real?_neg (a : R) : real? (-a) = (real? a).map (- ·)
  real?_add (a b : R) : real? (a + b) = Option.map₂ (· + ·) (real? a) (real? b)
  real?_sub (a b : R) : real? (a - b) = Option.map₂ (· - ·) (real? a) (real? b)
  real?_mul (a b : R) : real? (a * b) = Option.map₂ (· * ·) (real? a) (real? b)
  real?_div {a b : R} {x y : ℝ} (ha : real? a = some x) (hb : real? b = some y) (hy : y ≠ 0) :
    real? (a / b) = some (x / y)
  real?_sqrt {a : R} {x : ℝ} (ha : real? a = some x) (hx : 0 ≤ x) : real? (sqrt a) = some (√x)
  lt_iff {a b : R} {x y : ℝ} (ha : real? a = some x) (hb : real? b = some y) : a < b ↔ x < y
  le_iff {a b : R} {x y : ℝ} (ha : real? a = some x) (hb : real? b = some y) : a ≤ b ↔ x ≤ y
  real?_between {a b c : R} {x y : ℝ} (ha : real? a = some x) (hb : real? b = some y) (hac : a < c)
    (hcb : c < b) : ∃ z, real? c = some z

noncomputable instance : ExactScalar ℝ where
  real? := some
  isFinite_eq _ := rfl
  real?_zero := rfl
  real?_one := rfl
  real?_natCast _ := rfl
  real?_intCast _ := rfl
  real?_decimal _ _ := rfl
  real?_neg _ := rfl
  real?_add _ _ := rfl
  real?_sub _ _ := rfl
  real?_mul _ _ := rfl
  real?_div := by
    rintro a b x y ⟨⟩ ⟨⟩ -
    rfl
  real?_sqrt := by
    rintro a x ⟨⟩ -
    rfl
  lt_iff := by
    rintro a b x y ⟨⟩ ⟨⟩
    rfl
  le_iff := by
    rintro a b x y ⟨⟩ ⟨⟩
    rfl
  real?_between _ _ _ _ := ⟨_, rfl⟩

/-- Real numbers, and one value for whatever has no result. It compares with nothing. -/
def PartialReal := Option ℝ

namespace PartialReal

def Below (r : ℝ → ℝ → Prop) : PartialReal → PartialReal → Prop
  | some x, some y => r x y
  | _, _ => False

open scoped Classical in
noncomputable instance : Scalar PartialReal where
  zero := some 0
  one := some 1
  natCast k := some (k : ℝ)
  intCast i := some (i : ℝ)
  add := Option.map₂ (· + ·)
  sub := Option.map₂ (· - ·)
  mul := Option.map₂ (· * ·)
  neg := Option.map (- ·)
  div a b := b.bind fun y => if y = 0 then none else a.map (· / y)
  lt := Below (· < ·)
  le := Below (· ≤ ·)
  beq a b := decide (Below (· = ·) a b)
  decideLt _ _ := inferInstance
  decideLe _ _ := inferInstance
  decimal m e := some (Scalar.decimal m e : ℝ)
  ceil a := a.elim 0 (⌈·⌉)
  isFinite := Option.isSome
  abs := Option.map (|·|)
  sqrt a := a.bind fun x => if x < 0 then none else some √x
  exp := Option.map Real.exp
  log a := a.bind fun x => if x ≤ 0 then none else some (Real.log x)
  sin := Option.map Real.sin
  cos := Option.map Real.cos
  tan a := a.bind fun x => if Real.cos x = 0 then none else some (Real.tan x)
  tanh := Option.map Real.tanh
  atan := Option.map Real.arctan

noncomputable instance : ExactScalar PartialReal where
  real? a := a
  isFinite_eq _ := rfl
  real?_zero := rfl
  real?_one := rfl
  real?_natCast _ := rfl
  real?_intCast _ := rfl
  real?_decimal _ _ := rfl
  real?_neg _ := rfl
  real?_add _ _ := rfl
  real?_sub _ _ := rfl
  real?_mul _ _ := rfl
  real?_div := by
    rintro a b x y ⟨⟩ ⟨⟩ hy
    exact if_neg hy
  real?_sqrt := by
    rintro a x ⟨⟩ hx
    exact if_neg (not_lt.mpr hx)
  lt_iff := by
    rintro a b x y ⟨⟩ ⟨⟩
    rfl
  le_iff := by
    rintro a b x y ⟨⟩ ⟨⟩
    rfl
  real?_between := by
    rintro a b c x y ⟨⟩ ⟨⟩ hac -
    cases c with
    | none => exact hac.elim
    | some z => exact ⟨z, rfl⟩

end PartialReal

namespace ExactScalar

variable {R : Type} [ExactScalar R] {a b : R} {x y : ℝ}

theorem isFinite_iff : Scalar.isFinite a = true ↔ ∃ x, real? a = some x := by
  rw [isFinite_eq, Option.isSome_iff_exists]

theorem real?_add_of (ha : real? a = some x) (hb : real? b = some y) :
    real? (a + b) = some (x + y) := by
  rw [real?_add, ha, hb]
  rfl

theorem real?_sub_of (ha : real? a = some x) (hb : real? b = some y) :
    real? (a - b) = some (x - y) := by
  rw [real?_sub, ha, hb]
  rfl

theorem real?_mul_of (ha : real? a = some x) (hb : real? b = some y) :
    real? (a * b) = some (x * y) := by
  rw [real?_mul, ha, hb]
  rfl

theorem real?_neg_of (ha : real? a = some x) : real? (-a) = some (-x) := by
  rw [real?_neg, ha]
  rfl

theorem real?_half : real? (Scalar.half : R) = some (1 / 2) := by
  rw [Scalar.half, real?_decimal]
  norm_num

theorem real?_atLeast (ha : real? a = some x) (hb : real? b = some y) :
    real? (Scalar.atLeast a b) = some (max x y) := by
  unfold Scalar.atLeast
  split
  · next h => rw [hb, max_eq_right ((lt_iff ha hb).mp h).le]
  · next h => rw [ha, max_eq_left (not_lt.mp ((lt_iff ha hb).not.mp h))]

theorem real?_atMost (ha : real? a = some x) (hb : real? b = some y) :
    real? (Scalar.atMost a b) = some (min x y) := by
  unfold Scalar.atMost
  split
  · next h => rw [hb, min_eq_right ((lt_iff hb ha).mp h).le]
  · next h => rw [ha, min_eq_left (not_lt.mp ((lt_iff hb ha).not.mp h))]

section Vectors

variable {n : Nat} {v : Vec R n}

/-- A sum of squares of finite values is finite, and not negative. -/
theorem real?_foldl_squares {xs : List R} (hx : ∀ a ∈ xs, ∃ x, real? a = some x) (ha : real? a = some x)
    (h0 : 0 ≤ x) :
    ∃ s, 0 ≤ s ∧ real? ((xs.map fun a => a * a).foldl (· + ·) a) = some s := by
  induction xs generalizing a x with
  | nil => exact ⟨x, h0, ha⟩
  | cons b xs ih =>
    obtain ⟨y, hy⟩ := hx b (by simp)
    have hsum := real?_add_of ha (real?_mul_of hy hy)
    exact ih (fun c hc => hx c (by simp [hc])) hsum (add_nonneg h0 (mul_self_nonneg y))

/-- Nothing else is in a sum that is finite. -/
theorem finite_of_foldl {xs : List R} {s : ℝ} (h : real? (xs.foldl (· + ·) a) = some s) :
    (∃ x, real? a = some x) ∧ ∀ b ∈ xs, ∃ y, real? b = some y := by
  induction xs generalizing a with
  | nil => exact ⟨⟨s, h⟩, by simp⟩
  | cons b xs ih =>
    obtain ⟨⟨z, hz⟩, hxs⟩ := ih h
    rw [real?_add, Option.map₂_eq_some_iff] at hz
    obtain ⟨x, y, hx, hy, -⟩ := hz
    exact ⟨⟨x, hx⟩, by simpa using ⟨⟨y, hy⟩, hxs⟩⟩

theorem real?_sumSquares (hv : v.allFinite = true) : ∃ s, 0 ≤ s ∧ real? v.sumSquares = some s := by
  rw [Vec.sumSquares_eq_foldl]
  refine real?_foldl_squares ?_ real?_zero le_rfl
  intro a ha
  obtain ⟨i, hi, rfl⟩ := Vector.mem_iff_getElem.mp (Vector.mem_toList_iff.mp ha)
  exact isFinite_iff.mp (Vector.all_eq_true.mp hv i hi)

/-- A vector with a finite sum of squares is finite. -/
theorem allFinite_of_sumSquares {s : ℝ} (h : real? v.sumSquares = some s) : v.allFinite = true := by
  rw [Vec.sumSquares_eq_foldl] at h
  refine Vector.all_eq_true.mpr ?_
  intro i hi
  obtain ⟨y, hy⟩ := (finite_of_foldl h).2 (v[i] * v[i]) (List.mem_map_of_mem (by simp))
  rw [real?_mul, Option.map₂_eq_some_iff] at hy
  obtain ⟨x, -, hx, -⟩ := hy
  exact isFinite_iff.mpr ⟨x, hx⟩

theorem real?_halfSquare {s : ℝ} (h : real? v.sumSquares = some s) :
    real? (LineSearch.halfSquare v) = some (1 / 2 * s) :=
  real?_mul_of real?_half h

theorem sumSquares_of_halfSquare {e : ℝ} (h : real? (LineSearch.halfSquare v) = some e) :
    ∃ s, real? v.sumSquares = some s := by
  rw [LineSearch.halfSquare, real?_mul, Option.map₂_eq_some_iff] at h
  obtain ⟨-, s, -, hs, -⟩ := h
  exact ⟨s, hs⟩

theorem real?_norm {s : ℝ} (h : real? v.sumSquares = some s) (h0 : 0 ≤ s) :
    real? v.norm = some √s :=
  real?_sqrt h h0

end Vectors

end ExactScalar

end NewtonSolver
