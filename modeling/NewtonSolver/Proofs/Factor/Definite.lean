import Mathlib
import NewtonSolver.Proofs.Factor.Elimination

/-! Upper factors of matrices of which the upper triangle is read. In exact arithmetic a matrix has one
exactly if the symmetric matrix with that triangle is positive definite. -/
namespace NewtonSolver

variable {n : Nat} {A B U V : Mat ℝ n n} {i j k : Fin n}

namespace Mat

/-- The symmetric matrix with the same upper triangle. -/
def mirrored (A : Mat ℝ n n) : Mat ℝ n n :=
  ofFn fun i j => if i ≤ j then A.entry i j else A.entry j i

@[simp] theorem entry_mirrored (A : Mat ℝ n n) (i j : Fin n) :
    A.mirrored.entry i j = if i ≤ j then A.entry i j else A.entry j i := by
  simp [mirrored]

theorem mirrored_transpose (A : Mat ℝ n n) : A.mirrored.transpose = A.mirrored := by
  refine ext_entry ?_
  intro i j
  rcases lt_trichotomy i j with h | rfl | h
  · simp [h.le, not_le.mpr h]
  · simp
  · simp [h.le, not_le.mpr h]

theorem mirrored_eq_iff : A.mirrored = A ↔ A.transpose = A := by
  constructor
  · intro h
    rw [← h, mirrored_transpose]
  · intro h
    refine ext_entry ?_
    intro i j
    rw [entry_mirrored]
    split
    · rfl
    · rw [← entry_transpose, h]

end Mat

namespace Cholesky

theorem step_congr (h : ∀ i j, i ≤ j → A.entry i j = B.entry i j) : step A = step B := by
  have hrem (U : Mat ℝ n n) {i j : Fin n} (hij : i ≤ j) : remainder A U i j = remainder B U i j := by
    rw [remainder, remainder, h i j hij]
  have hrow (U : Mat ℝ n n) (i : Fin n) (root : ℝ) :
      (fun j => if j < i then 0 else if j = i then root else remainder A U i j / root) =
        fun j => if j < i then 0 else if j = i then root else remainder B U i j / root := by
    funext j
    rcases lt_or_ge j i with hj | hj
    · rw [if_pos hj, if_pos hj]
    · rw [hrem U hj]
  funext U i
  simp only [step, hrem U le_rfl, hrow]

/-- The entries below the diagonal are not read. -/
theorem factorize_mirrored (A : Mat ℝ n n) : factorize A.mirrored = factorize A := by
  have hstep : step A.mirrored = step A := by
    refine step_congr ?_
    intro i j hij
    rw [Mat.entry_mirrored, if_pos hij]
  rw [factorize, factorize, hstep]

/-- A step fails for nothing but a pivot that is not positive. -/
theorem exists_step_iff : (∃ V, step A U i = some V) ↔ 0 < A.entry i i - overlap U i i := by
  rw [← remainder_eq_sub]
  unfold step
  dsimp only
  split
  · next h => exact iff_of_true ⟨_, rfl⟩ h
  · next h => exact iff_of_false (by rintro ⟨V, ⟨⟩⟩) h

theorem step_pivot (h : step A U i = some V) : V.entry i i ≠ 0 := by
  have hpos := exists_step_iff.mp ⟨V, h⟩
  rw [← (step_some h).2.2 i le_rfl] at hpos
  exact mul_self_pos.mp hpos

/-- The rows that are done have their pivots, and the others are still empty. -/
structure IsPartial (U A : Mat ℝ n n) (done : Nat) : Prop extends IsExactTo U A done where
  pivot : ∀ i : Fin n, i < done → U.entry i i ≠ 0
  rest : ∀ i : Fin n, done ≤ i → ∀ j, U.entry i j = 0

theorem IsPartial.zero (A : Mat ℝ n n) : IsPartial (Mat.ofFn fun _ _ => 0) A 0 where
  upper := by simp
  product := by simp
  pivot := by simp
  rest := by simp

theorem IsPartial.step (hU : IsPartial U A k) (hs : step A U k = some V) :
    IsPartial V A (k.val + 1) where
  toIsExactTo := hU.toIsExactTo.step hs
  pivot := by
    intro i hi
    rcases Nat.lt_succ_iff_lt_or_eq.mp hi with hi | hi
    · rw [(step_some hs).1 i (Fin.ne_of_lt hi)]
      exact hU.pivot i hi
    · obtain rfl := Fin.ext hi
      exact step_pivot hs
  rest := by
    intro i hi j
    rw [(step_some hs).1 i (Fin.ne_of_gt hi)]
    exact hU.rest i (Nat.le_of_succ_le hi) j

theorem factorize_isPartial (h : factorize A = some U) : IsPartial U A n :=
  foldlM_finRange (P := fun done U => IsPartial U A done) (fun _ _ _ hU => hU.step) (.zero A) h

namespace IsPartial

variable (hU : IsPartial U A k)

include hU

theorem overlap_eq (j : Fin n) : overlap U k j = (U.transpose.mul U).entry k j := by
  simp only [Exact.entry_mul, Mat.entry_transpose]
  refine Finset.sum_congr rfl ?_
  intro l _
  rcases lt_or_ge l k with hl | hl
  · rw [if_pos hl]
  · rw [if_neg (not_lt.mpr hl), hU.rest l hl, zero_mul]

theorem entry_gram (hA : A.transpose = A) (h : i < k ∨ j < k) :
    (U.transpose.mul U).entry i j = A.entry i j := by
  rcases le_total i j with hij | hij
  · exact hU.toIsExactTo.entry_gram hU.rest (h.elim id hij.trans_lt) hij
  · rw [← U.gram_symmetric, Mat.entry_transpose, ← hA, Mat.entry_transpose]
    exact hU.toIsExactTo.entry_gram hU.rest (h.elim hij.trans_lt id) hij

/-- A vector that the rows so far take to zero, with a one for the next row and nothing after it. -/
theorem exists_kernel :
    ∃ y : Vec ℝ n, U.mulVec y = 0 ∧ y.get k = 1 ∧ ∀ l, k < l → y.get l = 0 := by
  -- the rows that are missing are made up by those of the identity
  let W : Mat ℝ n n := .ofFn fun l j => if l < k then U.entry l j else if l = j then 1 else 0
  have hdone {l : Fin n} (hl : l < k) (j : Fin n) : W.entry l j = U.entry l j := by simp [W, hl]
  have hrest {l : Fin n} (hl : k ≤ l) (j : Fin n) : W.entry l j = if l = j then 1 else 0 := by
    simp [W, not_lt.mpr hl]
  have hupper : W.IsUpper := by
    intro l j hj
    rcases lt_or_ge l k with hl | hl
    · rw [hdone hl, hU.upper l j hl hj]
    · rw [hrest hl, if_neg hj.ne']
  have hpivot (l : Fin n) : W.entry l l ≠ 0 := by
    rcases lt_or_ge l k with hl | hl
    · rw [hdone hl]
      exact hU.pivot l hl
    · simp [hrest hl]
  have hsolve := Mat.mulVec_solveUpper hupper hpivot (Vec.unit k)
  have hget (l : Fin n) : (W.mulVec (W.solveUpper (Vec.unit k))).get l = if l = k then 1 else 0 := by
    rw [hsolve, Vec.get_unit]
  have hlater {l : Fin n} (hl : k ≤ l) :
      (W.solveUpper (Vec.unit k)).get l = if l = k then 1 else 0 := by
    rw [← hget l, Exact.mulVec_get]
    simp [hrest hl]
  refine ⟨W.solveUpper (Vec.unit k), Vec.ext_get ?_, by simp [hlater le_rfl], ?_⟩
  · intro l
    rw [Vec.get_zero, Exact.mulVec_get]
    rcases lt_or_ge l k with hl | hl
    · simpa [Exact.mulVec_get, hdone hl, hl.ne] using hget l
    · simp [hU.rest l hl]
  · intro l hl
    rw [hlater hl.le, if_neg hl.ne']

/-- On the vector that the rows so far take to zero, the matrix leaves the next pivot. -/
theorem mulVec_kernel (hA : A.transpose = A) {y : Vec ℝ n} (h0 : U.mulVec y = 0)
    (hk : y.get k = 1) (hlater : ∀ l, k < l → y.get l = 0) (hi : i ≤ k) :
    (A.mulVec y).get i = if i = k then A.entry k k - overlap U k k else 0 := by
  have hgram : ((U.transpose.mul U).mulVec y).get i = 0 := by
    rw [Mat.gram_mulVec, h0, Mat.vecMul, Exact.mulVec_zero, Vec.get_zero]
  have hterm (j : Fin n) : A.entry i j * y.get j = (U.transpose.mul U).entry i j * y.get j +
      if j = k then (if i = k then A.entry k k - overlap U k k else 0) else 0 := by
    rcases lt_trichotomy j k with hj | rfl | hj
    · rw [hU.entry_gram hA (.inr hj), if_neg hj.ne, add_zero]
    · rcases hi.lt_or_eq with hi | rfl
      · rw [hU.entry_gram hA (.inl hi), if_pos rfl, if_neg hi.ne, add_zero]
      · rw [hU.overlap_eq, hk, if_pos rfl, if_pos rfl]
        ring
    · rw [hlater j hj, mul_zero, mul_zero, if_neg hj.ne', add_zero]
  rw [Exact.mulVec_get, Finset.sum_congr rfl fun j _ => hterm j, Finset.sum_add_distrib,
    ← Exact.mulVec_get, hgram, zero_add, Finset.sum_ite_eq', if_pos (Finset.mem_univ k)]

/-- The next pivot of a positive definite matrix is one of its squares. -/
theorem pivot_pos (hA : A.toMatrix.PosDef) (hsymm : A.transpose = A) :
    0 < A.entry k k - overlap U k k := by
  obtain ⟨y, h0, hk, hlater⟩ := hU.exists_kernel
  have hy : y.get ≠ 0 := by
    intro h
    exact one_ne_zero (hk.symm.trans (congrFun h k))
  have hterm (i : Fin n) : y.get i * (A.mulVec y).get i =
      if i = k then A.entry k k - overlap U k k else 0 := by
    rcases lt_or_ge k i with hi | hi
    · rw [hlater i hi, zero_mul, if_neg hi.ne']
    · rw [hU.mulVec_kernel hsymm h0 hk hlater hi]
      split
      · next h => rw [h, hk, one_mul]
      · rw [mul_zero]
  have hsquare : y.get ⬝ᵥ A.toMatrix.mulVec y.get = A.entry k k - overlap U k k := by
    rw [← Exact.get_mulVec, dotProduct, Finset.sum_congr rfl fun i _ => hterm i, Finset.sum_ite_eq',
      if_pos (Finset.mem_univ k)]
  rw [← hsquare]
  exact hA.dotProduct_mulVec_pos hy

end IsPartial

theorem factorize_iff_posDef (hA : A.transpose = A) :
    (∃ U, factorize A = some U) ↔ A.toMatrix.PosDef := by
  constructor
  · rintro ⟨U, hU⟩
    have hexact := factorize_isExact hA hU
    have hpivot (i : Fin n) : U.entry i i ≠ 0 := (factorize_isPartial hU).pivot i i.isLt
    rw [← hexact.product]
    exact Mat.gram_posDef
      (Mat.mulVec_injective fun b => ⟨_, Mat.mulVec_solveUpper hexact.upper hpivot b⟩)
  · intro hdef
    exact exists_foldlM_finRange (P := fun done U => IsPartial U A done)
      (fun _ _ hU => exists_step_iff.mpr (hU.pivot_pos hdef hA)) (fun _ _ _ hU => hU.step) (.zero A)

end Cholesky

/-- The factor is that of the symmetric matrix with the same upper triangle, and is there exactly if that
matrix is positive definite. -/
structure Kernels.ReadsUpper (K : Kernels ℝ) (n : Nat) : Prop where
  exact : ∀ A U, K.cholesky n A = some U → Cholesky.IsExact U A.mirrored
  definite_iff : ∀ A, (∃ U, K.cholesky n A = some U) ↔ A.mirrored.toMatrix.PosDef

theorem Kernels.standard_readsUpper (n : Nat) : Kernels.standard.ReadsUpper n where
  exact A U hU := by
    refine Cholesky.factorize_isExact A.mirrored_transpose ?_
    rw [Cholesky.factorize_mirrored]
    exact hU
  definite_iff A := by
    rw [← Cholesky.factorize_iff_posDef A.mirrored_transpose, Cholesky.factorize_mirrored]
    rfl

end NewtonSolver
