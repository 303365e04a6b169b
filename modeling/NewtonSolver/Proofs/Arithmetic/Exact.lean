import NewtonSolver.Proofs.Entries

/-! Exact arithmetic: the real numbers, where every number is finite, and products as sums. -/
namespace NewtonSolver

open scoped Classical in
noncomputable instance : Scalar ℝ where
  beq a b := decide (a = b)
  decideLt := inferInstance
  decideLe := inferInstance
  decimal m e := m / 10 ^ e
  ceil x := ⌈x⌉
  isFinite _ := true
  abs x := |x|
  sqrt := Real.sqrt
  exp := Real.exp
  log := Real.log
  sin := Real.sin
  cos := Real.cos
  tan := Real.tan
  tanh := Real.tanh
  atan := Real.arctan

namespace Exact

variable {m n : Nat}

@[simp] theorem beq_eq {a b : ℝ} : (a == b) = true ↔ a = b :=
  decide_eq_true_iff

theorem eq_of_beq (a b : ℝ) (h : (a == b) = true) : a = b := beq_eq.mp h

theorem atLeast_eq (x bound : ℝ) : Scalar.atLeast x bound = max x bound := by
  unfold Scalar.atLeast
  split
  · next h => exact (max_eq_right h.le).symm
  · next h => exact (max_eq_left (not_lt.mp h)).symm

theorem atMost_eq (x bound : ℝ) : Scalar.atMost x bound = min x bound := by
  unfold Scalar.atMost
  split
  · next h => exact (min_eq_right h.le).symm
  · next h => exact (min_eq_left (not_lt.mp h)).symm

@[simp] theorem allFinite_vec (v : Vec ℝ n) : v.allFinite = true :=
  Vector.all_eq_true.mpr fun _ _ => rfl

@[simp] theorem allFinite_mat (A : Mat ℝ m n) : A.allFinite = true :=
  Vector.all_eq_true.mpr fun _ _ => allFinite_vec _

theorem sum_eq (v : Vec ℝ n) : v.sum = ∑ i, v.get i := by
  have hl : v.toList = List.ofFn v.get := by
    refine List.ext_getElem (by simp) ?_
    intro i h₁ h₂
    simp [Vector.get_eq_getElem]
  calc
    v.sum = v.toList.foldl (· + ·) 0 := (Vector.foldl_toList _).symm
    _ = v.toList.sum := List.sum_eq_foldl.symm
    _ = ∑ i, v.get i := by rw [hl, List.sum_ofFn]

theorem dot_eq_sum (u v : Vec ℝ n) : Vec.dot u v = ∑ i, u.get i * v.get i := by
  simp [Vec.dot, sum_eq]

theorem mulVec_get (A : Mat ℝ m n) (v : Vec ℝ n) (i : Fin m) :
    (A.mulVec v).get i = ∑ j, A.entry i j * v.get j := by
  simp [Mat.mulVec, dot_eq_sum, Mat.entry]

theorem vecMul_get (A : Mat ℝ m n) (u : Vec ℝ m) (j : Fin n) :
    (A.vecMul u).get j = ∑ i, A.entry i j * u.get i := by
  simp [Mat.vecMul, mulVec_get]

end Exact

end NewtonSolver
