import NewtonSolver.Proofs.Arithmetic.Linear

/-! Stored matrices as matrices of the library, whose algebra carries over to products in exact
arithmetic. -/
namespace NewtonSolver

variable {m n k : Nat}

def Mat.toMatrix (A : Mat ℝ m n) : Matrix (Fin m) (Fin n) ℝ := Matrix.of A.entry

namespace Exact

open Matrix

@[simp] theorem toMatrix_apply (A : Mat ℝ m n) (i : Fin m) (j : Fin n) :
    A.toMatrix i j = A.entry i j := rfl

theorem toMatrix_transpose (A : Mat ℝ m n) : A.transpose.toMatrix = A.toMatrixᵀ := by
  ext i j
  simp

theorem dot_eq (u v : Vec ℝ n) : Vec.dot u v = u.get ⬝ᵥ v.get := dot_eq_sum u v

theorem get_mulVec (A : Mat ℝ m n) (v : Vec ℝ n) : (A.mulVec v).get = A.toMatrix *ᵥ v.get := by
  funext i
  exact mulVec_get A v i

theorem get_vecMul (A : Mat ℝ m n) (u : Vec ℝ m) : (A.vecMul u).get = A.toMatrixᵀ *ᵥ u.get := by
  rw [Mat.vecMul, get_mulVec, toMatrix_transpose]

theorem entry_mul (A : Mat ℝ m k) (B : Mat ℝ k n) (i : Fin m) (j : Fin n) :
    (A.mul B).entry i j = ∑ l, A.entry i l * B.entry l j := by
  have hrow : (A.mul B).entry i j = Vec.dot (A.get i) (B.transpose.get j) := by
    simp [Mat.mul, Mat.entry]
  rw [hrow, dot_eq_sum]
  refine Finset.sum_congr rfl ?_
  intro l _
  rw [show (B.transpose.get j).get l = B.entry l j from Mat.entry_transpose B j l]
  rfl

theorem toMatrix_mul (A : Mat ℝ m k) (B : Mat ℝ k n) :
    (A.mul B).toMatrix = A.toMatrix * B.toMatrix := by
  ext i j
  rw [toMatrix_apply, entry_mul, Matrix.mul_apply]
  rfl

theorem mulVec_mul (A : Mat ℝ m k) (B : Mat ℝ k n) (v : Vec ℝ n) :
    (A.mul B).mulVec v = A.mulVec (B.mulVec v) := by
  refine Vec.ext_get (congrFun ?_)
  rw [get_mulVec, toMatrix_mul, get_mulVec, get_mulVec, Matrix.mulVec_mulVec]

/-- The transposed product is the product on the other side. -/
theorem dot_mulVec (A : Mat ℝ m n) (u : Vec ℝ m) (v : Vec ℝ n) :
    Vec.dot u (A.mulVec v) = Vec.dot (A.vecMul u) v := by
  rw [dot_eq, dot_eq, get_mulVec, get_vecMul, Matrix.dotProduct_mulVec, Matrix.mulVec_transpose]

end Exact

namespace Mat

theorem mul_assoc {l : Nat} (A : Mat ℝ m k) (B : Mat ℝ k l) (C : Mat ℝ l n) :
    (A.mul B).mul C = A.mul (B.mul C) := by
  have h : ((A.mul B).mul C).toMatrix = (A.mul (B.mul C)).toMatrix := by
    simp only [Exact.toMatrix_mul, Matrix.mul_assoc]
  exact ext_entry fun i j => congrFun (congrFun h i) j

theorem transpose_mul (A : Mat ℝ m k) (B : Mat ℝ k n) :
    (A.mul B).transpose = B.transpose.mul A.transpose := by
  refine ext_entry ?_
  intro i j
  simp only [entry_transpose, Exact.entry_mul, mul_comm]

end Mat

end NewtonSolver
