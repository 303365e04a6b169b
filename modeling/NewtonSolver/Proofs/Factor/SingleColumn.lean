import Mathlib
import NewtonSolver.Proofs.Factor.Reflections

/-! Matrices with a single column, or a single row. The pseudo-inverse of this library is exact for them,
as no columns have to be made orthogonal. -/
namespace NewtonSolver

variable {m n : Nat}

namespace Mat

/-- Nothing is of a magnitude above zero. -/
theorem entry_eq_zero {A : Mat ℝ m n} (h : Vec.maxAbs (A.map Vec.maxAbs) = 0) (i : Fin m)
    (j : Fin n) : A.entry i j = 0 := by
  have hrow : (A.get i).maxAbs ≤ 0 := by
    have hle := Exact.abs_le_maxAbs (A.map Vec.maxAbs) i
    rw [h, Vector.get_map] at hle
    exact (le_abs_self _).trans hle
  exact abs_nonpos_iff.mp ((Exact.abs_le_maxAbs (A.get i) j).trans hrow)

/-- The sum of the squares of all entries. -/
noncomputable def squares (A : Mat ℝ m n) : ℝ := ∑ i, ∑ j, A.entry i j * A.entry i j

theorem squares_nonneg (A : Mat ℝ m n) : 0 ≤ A.squares :=
  Finset.sum_nonneg fun _ _ => Finset.sum_nonneg fun _ _ => mul_self_nonneg _

theorem squares_div (A : Mat ℝ m n) (s : ℝ) :
    squares (ofFn fun i j => A.entry i j / s) = A.squares / (s * s) := by
  simp only [squares, entry_ofFn, div_mul_div_comm, Finset.sum_div]

/-- The transposed matrix, over the sum of the squares. -/
noncomputable def reciprocal (A : Mat ℝ m n) : Mat ℝ n m := ofFn fun i j => A.entry j i / A.squares

theorem reciprocal_div (A : Mat ℝ m n) {s : ℝ} (hs : s ≠ 0) (i : Fin n) (j : Fin m) :
    (reciprocal (ofFn fun i j => A.entry i j / s)).entry i j / s = A.reciprocal.entry i j := by
  simp only [reciprocal, entry_ofFn, squares_div]
  field_simp

theorem reciprocal_eq_zero {A : Mat ℝ m n} (h : ∀ i j, A.entry i j = 0) (i : Fin n) (j : Fin m) :
    A.reciprocal.entry i j = 0 := by
  simp [reciprocal, h]

theorem squares_column (A : Mat ℝ m 1) : A.squares = ∑ i, A.entry i 0 * A.entry i 0 := by
  simp only [squares, Fin.sum_univ_one]

theorem sumSquares_transpose (A : Mat ℝ m 1) : (A.transpose.get 0).sumSquares = A.squares := by
  have hget (i : Fin m) : (A.transpose.get 0).get i = A.entry i 0 := A.entry_transpose 0 i
  simp only [Vec.sumSquares, Exact.dot_eq_sum, hget, squares_column]

theorem gram_single (A : Mat ℝ m 1) : A.transpose.mul A = .ofFn fun _ _ => A.squares := by
  refine ext_entry ?_
  intro i j
  simp [Exact.entry_mul, squares_column, Subsingleton.elim i 0, Subsingleton.elim j 0]

theorem entry_eq_zero_of_squares {A : Mat ℝ m 1} (h : A.squares = 0) (i : Fin m) :
    A.entry i 0 = 0 := by
  rw [squares_column, Finset.sum_mul_self_eq_zero_iff] at h
  exact h i (Finset.mem_univ i)

theorem column_injective {A : Mat ℝ m 1} (hA : A.squares ≠ 0) : Function.Injective A.mulVec := by
  refine injective_of_gram ?_
  rw [gram_single]
  intro x y hxy
  refine Vec.ext_get ?_
  intro i
  have h0 := congrArg (fun v : Vec ℝ 1 => v.get 0) hxy
  simpa [Exact.mulVec_get, hA, Subsingleton.elim i 0] using h0

end Mat

namespace PseudoInverse

theorem sweeps_single (rounds : Nat) (s : Axes ℝ m 1) : sweeps rounds s = s := by
  cases rounds <;> rfl

/-- The only column is kept unless it is zero, as no length is below the cutoff for its own. -/
theorem ofTall_single (hm : ((10 * max m 1 : Nat) : ℝ) * Scalar.epsilon < 1) (A : Mat ℝ m 1) :
    ofTall A = A.reciprocal := by
  refine Mat.ext_entry ?_
  intro i j
  obtain rfl : i = 0 := Subsingleton.elim i 0
  have hget : (A.transpose.get 0).get j = A.entry j 0 := A.entry_transpose 0 j
  have hnorm : (A.transpose.get 0).norm = √A.squares := by
    rw [Vec.norm, Mat.sumSquares_transpose]
    rfl
  have haxis : ((Mat.identity : Mat ℝ 1 1).get 0).get 0 = 1 :=
    (Mat.entry_ofFn _ 0 0).trans (if_pos rfl)
  simp only [Mat.reciprocal, ofTall, sweeps_single, ofAxes, Mat.entry_ofFn, Exact.maxAbs_single,
    Vector.get_map, List.finRange, List.ofFn_succ, List.ofFn_zero, List.filter_cons, List.filter_nil,
    hnorm]
  by_cases h0 : A.squares = 0
  · simp [h0]
  · have hpos : 0 < √A.squares := Real.sqrt_pos.mpr (lt_of_le_of_ne A.squares_nonneg (Ne.symm h0))
    have hkept : ((10 * max m 1 : Nat) : ℝ) * Scalar.epsilon * |√A.squares| < √A.squares := by
      rw [abs_of_pos hpos]
      exact mul_lt_of_lt_one_left hpos hm
    rw [if_pos (decide_eq_true hkept)]
    simp [haxis, hget, hnorm, div_div, Real.mul_self_sqrt A.squares_nonneg]

theorem reciprocal_isExact (A : Mat ℝ m 1) : IsExact A.reciprocal A := by
  have hone (i j : Fin 1) : (A.reciprocal.mul A).entry i j = A.squares / A.squares := by
    rw [Subsingleton.elim i 0, Subsingleton.elim j 0, Exact.entry_mul]
    simp only [Mat.reciprocal, Mat.entry_ofFn, div_mul_eq_mul_div, ← Finset.sum_div,
      A.squares_column]
  refine ⟨Mat.ext_entry ?_, Mat.ext_entry ?_, Mat.ext_entry ?_, Mat.ext_entry ?_⟩
  · intro i j
    rw [Mat.mul_assoc, Exact.entry_mul]
    by_cases h0 : A.squares = 0
    · simp [Subsingleton.elim j 0, Mat.entry_eq_zero_of_squares h0]
    · simp [hone, div_self h0, Subsingleton.elim j 0]
  · intro i j
    rw [Exact.entry_mul]
    by_cases h0 : A.squares = 0
    · simp [Mat.reciprocal, h0]
    · simp [hone, div_self h0, Subsingleton.elim i 0]
  · intro i j
    simp [Exact.entry_mul, Mat.reciprocal, mul_div_left_comm]
  · intro i j
    rw [Mat.entry_transpose, hone, hone]

theorem IsExact.transpose {X : Mat ℝ n m} {A : Mat ℝ m n} (h : IsExact X A) :
    IsExact X.transpose A.transpose where
  inner := by rw [← Mat.transpose_mul, ← Mat.transpose_mul, ← Mat.mul_assoc, h.inner]
  outer := by rw [← Mat.transpose_mul, ← Mat.transpose_mul, ← Mat.mul_assoc, h.outer]
  imageSymmetric := by rw [← Mat.transpose_mul, h.preimageSymmetric, h.preimageSymmetric]
  preimageSymmetric := by rw [← Mat.transpose_mul, h.imageSymmetric, h.imageSymmetric]

theorem compute_zero {A : Mat ℝ m n} (h0 : Vec.maxAbs (A.map Vec.maxAbs) = 0) :
    compute A = Mat.ofFn fun _ _ => 0 := by
  simp [compute, h0]

theorem compute_scaled {A : Mat ℝ m n} {scale : ℝ} (hscale : Vec.maxAbs (A.map Vec.maxAbs) = scale)
    (h0 : scale ≠ 0) (i : Fin n) (j : Fin m) :
    (compute A).entry i j =
      (if n ≤ m then ofTall (Mat.ofFn fun i j => A.entry i j / scale)
        else (ofTall (Mat.ofFn fun i j => A.entry i j / scale).transpose).transpose).entry i j /
          scale := by
  subst hscale
  simp only [compute, Exact.allFinite_mat, if_true, Exact.beq_eq, if_neg h0, Mat.entry_ofFn]

section Single

variable (hm : ((10 * max m 1 : Nat) : ℝ) * Scalar.epsilon < 1) (A : Mat ℝ m 1)

include hm

theorem compute_column : compute A = A.reciprocal := by
  refine Mat.ext_entry ?_
  intro i j
  by_cases h0 : Vec.maxAbs (A.map Vec.maxAbs) = 0
  · have hzero := Mat.reciprocal_eq_zero (Mat.entry_eq_zero h0)
    rw [compute_zero h0, Mat.entry_ofFn, hzero]
  · have hcols : 1 ≤ m := j.pos
    rw [compute_scaled rfl h0, if_pos hcols, ofTall_single hm, A.reciprocal_div h0]

theorem compute_row (hrows : 1 < m) : compute A.transpose = A.reciprocal.transpose := by
  refine Mat.ext_entry ?_
  intro i j
  rw [Mat.entry_transpose]
  by_cases h0 : Vec.maxAbs (A.transpose.map Vec.maxAbs) = 0
  · have hzero := Mat.reciprocal_eq_zero (A := A) fun i j => by
      simpa using Mat.entry_eq_zero h0 j i
    rw [compute_zero h0, Mat.entry_ofFn, hzero]
  · have hturned (s : ℝ) : (Mat.ofFn fun i j => A.transpose.entry i j / s).transpose =
        Mat.ofFn fun i j => A.entry i j / s := Mat.ext_entry fun i j => by simp
    rw [compute_scaled rfl h0, if_neg (not_le.mpr hrows), hturned, ofTall_single hm,
      Mat.entry_transpose, A.reciprocal_div h0]

end Single

end PseudoInverse

namespace Kernels

/-- The pseudo-inverse of this library is exact for a column of a size that the cutoff allows for. -/
theorem standard_svd_column (hm : ((10 * max m 1 : Nat) : ℝ) * Scalar.epsilon < 1) :
    Kernels.standard.IsExactFor m 1 .svd := by
  intro A
  have hcompute : Kernels.standard.pseudoInverse m 1 A = A.reciprocal :=
    PseudoInverse.compute_column hm A
  rw [hcompute]
  exact PseudoInverse.reciprocal_isExact A

theorem standard_svd_row (hn : ((10 * max n 1 : Nat) : ℝ) * Scalar.epsilon < 1) (hcols : 1 < n) :
    Kernels.standard.IsExactFor 1 n .svd := by
  intro A
  have hcompute : Kernels.standard.pseudoInverse 1 n A = A.transpose.reciprocal.transpose := by
    have hrow := PseudoInverse.compute_row hn A.transpose hcols
    rwa [Mat.transpose_transpose] at hrow
  have hexact := (PseudoInverse.reciprocal_isExact A.transpose).transpose
  rw [hcompute]
  rwa [Mat.transpose_transpose] at hexact

namespace FactorsExactly

variable (hm : ((10 * max m 1 : Nat) : ℝ) * Scalar.epsilon < 1) {A : Mat ℝ m 1} (hA : A.squares ≠ 0)

include hm hA

theorem standard_qr_column : Kernels.standard.FactorsExactly .qr A := by
  have hrows : 1 ≤ m := by
    by_contra h
    obtain rfl : m = 0 := by omega
    exact hA rfl
  have hexact := QR.factorize_isExact hrows A
  refine .qr hexact (Exact.isSingularDiagonal_one ?_ ?_)
  · intro h0
    have hzero (i : Fin m) : A.entry i 0 = 0 := by
      rw [← hexact.product, Exact.entry_mul, Fin.sum_univ_one]
      exact mul_eq_zero_of_right _ h0
    exact hA (by simp [Mat.squares_column, hzero])
  · refine lt_of_le_of_lt ?_ hm
    have hsize : max m 1 ≤ 10 * max m 1 := by omega
    exact mul_le_mul_of_nonneg_right (Nat.cast_le.mpr hsize) Exact.epsilon_nonneg

end FactorsExactly

end Kernels

end NewtonSolver
