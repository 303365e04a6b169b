import NewtonSolver.Proofs.Arithmetic.Exact

/-! Sums, multiples and products of vectors in exact arithmetic. -/
namespace NewtonSolver

namespace Vec

variable {R : Type} [Scalar R] {n : Nat}

@[simp] theorem get_add (u v : Vec R n) (i : Fin n) : (u + v).get i = u.get i + v.get i := by
  simp [Vector.get_eq_getElem]

@[simp] theorem get_sub (u v : Vec R n) (i : Fin n) : (u - v).get i = u.get i - v.get i := by
  simp [Vector.get_eq_getElem]

@[simp] theorem get_neg (u : Vec R n) (i : Fin n) : (-u).get i = -u.get i := by
  simp [Vector.get_eq_getElem]

@[simp] theorem get_zero (i : Fin n) : (0 : Vec R n).get i = 0 := by
  simp [Vector.get_eq_getElem]

@[simp] theorem get_scale (a : R) (u : Vec R n) (i : Fin n) : (a * u).get i = a * u.get i := by
  simp [Vector.get_eq_getElem]

@[simp] theorem get_unit (i j : Fin n) : (unit j : Vec R n).get i = if i = j then 1 else 0 := by
  simp [unit]

end Vec

namespace Exact

variable {m n : Nat} (A : Mat ℝ m n)

theorem decimal_eq (m e : Nat) : (Scalar.decimal m e : ℝ) = m / 10 ^ e := rfl

theorem decimal_pos {m : Nat} (hm : 0 < m) (e : Nat) : (0 : ℝ) < Scalar.decimal m e :=
  div_pos (Nat.cast_pos.mpr hm) (by positivity)

theorem half_eq : (Scalar.half : ℝ) = 1 / 2 := by
  rw [Scalar.half, decimal_eq]
  norm_num

@[simp] theorem add_zero_scale (x v : Vec ℝ n) : x + (0 : ℝ) * v = x := by
  refine Vec.ext_get ?_
  intro i
  simp

theorem zero_scale (v : Vec ℝ n) : (0 : ℝ) * v = 0 := by
  refine Vec.ext_get ?_
  intro i
  simp

theorem scale_zero (a : ℝ) : a * (0 : Vec ℝ n) = 0 := by
  refine Vec.ext_get ?_
  intro i
  simp

theorem sub_scale (x v : Vec ℝ n) (a : ℝ) : x - a * v = x + -a * v := by
  refine Vec.ext_get ?_
  intro i
  simp [sub_eq_add_neg]

theorem mulVec_add (u v : Vec ℝ n) : A.mulVec (u + v) = A.mulVec u + A.mulVec v := by
  refine Vec.ext_get ?_
  intro i
  simp [mulVec_get, mul_add, Finset.sum_add_distrib]

theorem mulVec_sub (u v : Vec ℝ n) : A.mulVec (u - v) = A.mulVec u - A.mulVec v := by
  refine Vec.ext_get ?_
  intro i
  simp [mulVec_get, mul_sub, Finset.sum_sub_distrib]

theorem mulVec_neg (v : Vec ℝ n) : A.mulVec (-v) = -A.mulVec v := by
  refine Vec.ext_get ?_
  intro i
  simp [mulVec_get]

theorem mulVec_zero : A.mulVec 0 = 0 := by
  refine Vec.ext_get ?_
  intro i
  simp [mulVec_get]

theorem mulVec_scale (a : ℝ) (v : Vec ℝ n) : A.mulVec (a * v) = a * A.mulVec v := by
  refine Vec.ext_get ?_
  intro i
  simp [mulVec_get, Finset.mul_sum, mul_left_comm]

/-- An affine function along a direction. -/
theorem mulVec_along (b : Vec ℝ m) (x d : Vec ℝ n) (a : ℝ) :
    A.mulVec (x + a * d) - b = A.mulVec x - b + a * A.mulVec d := by
  refine Vec.ext_get ?_
  intro i
  simp only [mulVec_add, mulVec_scale, Vec.get_sub, Vec.get_add, Vec.get_scale]
  ring

theorem mulVec_unit (j : Fin n) : A.mulVec (Vec.unit j) = A.column j := by
  refine Vec.ext_get ?_
  intro i
  simp [mulVec_get, Mat.column]

theorem sub_eq_zero {u v : Vec ℝ n} : u - v = 0 ↔ u = v := by
  constructor
  · intro h
    refine Vec.ext_get ?_
    intro i
    have hi := congrArg (fun w : Vec ℝ n => w.get i) h
    simpa [sub_eq_iff_eq_add] using hi
  · rintro rfl
    refine Vec.ext_get ?_
    intro i
    simp

theorem norm_nonneg (v : Vec ℝ n) : 0 ≤ v.norm := Real.sqrt_nonneg _

end Exact

end NewtonSolver
