import Mathlib
import NewtonSolver.Proofs.Factor.Exact

/-! What a prepared solve is worth. Where the factors are exact, a solve is prepared only for a matrix of
full rank, and its solutions vanish if their products do. -/
namespace NewtonSolver

variable {m n : Nat}

/-- Every matrix that a factorization is made of for a Jacobian of this shape is factorized exactly.
Cholesky factors are asked for where the matrix is symmetric, and may be missing. -/
def Kernels.IsExactFor (K : Kernels ℝ) (m n : Nat) : Factorization → Prop
  | .lu => ∀ A : Mat ℝ n n, (K.lu n A).IsExact A
  | .cholesky => ∀ A U : Mat ℝ n n, A.transpose = A → K.cholesky n A = some U → Cholesky.IsExact U A
  | .qr => if n ≤ m then ∀ A : Mat ℝ m n, (K.qr m n A).IsExact A
    else ∀ A : Mat ℝ n m, (K.qr n m A).IsExact A
  | .svd => ∀ A : Mat ℝ m n, PseudoInverse.IsExact (K.pseudoInverse m n A) A

namespace Mat

/-- Every right side is reached. -/
def IsInvertedBy (A : Mat ℝ m n) (solve : Vec ℝ m → Vec ℝ n) : Prop := ∀ b, A.mulVec (solve b) = b

/-- Solutions of the normal equations which have no part that the matrix takes to zero. -/
structure IsFittedBy (A : Mat ℝ m n) (solve : Vec ℝ m → Vec ℝ n) : Prop where
  normal : ∀ b, A.SolvesNormal b (solve b)
  eq_zero : ∀ b, A.mulVec (solve b) = 0 → solve b = 0

theorem toMatrix_mulVec_surjective {A : Mat ℝ m n} (hA : ∀ b, ∃ x, A.mulVec x = b) :
    Function.Surjective A.toMatrix.mulVec := by
  intro f
  obtain ⟨x, hx⟩ := hA (Vector.ofFn f)
  refine ⟨x.get, ?_⟩
  rw [← Exact.get_mulVec, hx]
  exact funext (Vector.get_ofFn f)

theorem mulVec_injective {A : Mat ℝ n n} (hA : ∀ b, ∃ x, A.mulVec x = b) :
    Function.Injective A.mulVec := by
  have hunit := Matrix.mulVec_surjective_iff_isUnit.mp (toMatrix_mulVec_surjective hA)
  have hinj := Matrix.mulVec_injective_iff_isUnit.mpr hunit
  intro x y hxy
  refine Vec.ext_get (congrFun (hinj ?_))
  rw [← Exact.get_mulVec, ← Exact.get_mulVec, hxy]

variable {A : Mat ℝ m n} {solve : Vec ℝ m → Vec ℝ n}

theorem rank_eq_cols (hA : Function.Injective A.mulVec) : A.toMatrix.rank = n := by
  have hinj : Function.Injective A.toMatrix.mulVecLin := toMatrix_mulVec_injective hA
  rw [Matrix.rank, LinearMap.finrank_range_of_inj hinj]
  simp

theorem mulVec_injective_of_rank (h : A.toMatrix.rank = n) : Function.Injective A.mulVec := by
  have hsum := A.toMatrix.mulVecLin.finrank_range_add_finrank_ker
  rw [← Matrix.rank, h, Module.finrank_fin_fun] at hsum
  have hker : A.toMatrix.mulVecLin.ker = ⊥ := Submodule.finrank_eq_zero.mp (by omega)
  intro x y hxy
  refine Vec.ext_get (congrFun (LinearMap.ker_eq_bot.mp hker ?_))
  rw [Matrix.mulVecLin_apply, Matrix.mulVecLin_apply, ← Exact.get_mulVec, ← Exact.get_mulVec, hxy]

theorem rank_eq_rows (hA : ∀ b, ∃ x, A.mulVec x = b) : A.toMatrix.rank = m := by
  have hsurj : Function.Surjective A.toMatrix.mulVecLin := toMatrix_mulVec_surjective hA
  rw [Matrix.rank, LinearMap.range_eq_top.mpr hsurj, finrank_top]
  simp

theorem IsFittedBy.of_injective (hA : Function.Injective A.mulVec)
    (h : ∀ b, A.SolvesNormal b (solve b)) : A.IsFittedBy solve where
  normal := h
  eq_zero _ h0 := hA (h0.trans (Exact.mulVec_zero A).symm)

/-- Combinations of the rows have no part that the matrix takes to zero. -/
theorem IsFittedBy.of_inRowSpace (h : ∀ b, A.SolvesNormal b (solve b))
    (hrow : ∀ b, A.InRowSpace (solve b)) : A.IsFittedBy solve where
  normal := h
  eq_zero b h0 := (hrow b).eq_zero h0

theorem IsInvertedBy.injective {A : Mat ℝ n n} {solve : Vec ℝ n → Vec ℝ n}
    (h : A.IsInvertedBy solve) : Function.Injective A.mulVec :=
  mulVec_injective fun b => ⟨solve b, h b⟩

theorem IsInvertedBy.isFittedBy {A : Mat ℝ n n} {solve : Vec ℝ n → Vec ℝ n}
    (h : A.IsInvertedBy solve) : A.IsFittedBy solve :=
  .of_injective h.injective fun b => congrArg A.vecMul (h b)

theorem injective_of_gram (h : Function.Injective (A.transpose.mul A).mulVec) :
    Function.Injective A.mulVec := by
  intro x y hxy
  refine h ?_
  rw [gram_mulVec, gram_mulVec, hxy]

/-- The normal equations solved by an inverse of their matrix. -/
theorem IsInvertedBy.of_gram {solve : Vec ℝ n → Vec ℝ n}
    (h : (A.transpose.mul A).IsInvertedBy solve) : A.IsFittedBy fun b => solve (A.vecMul b) := by
  refine .of_injective (injective_of_gram h.injective) ?_
  intro b
  rw [SolvesNormal, ← gram_mulVec]
  exact h (A.vecMul b)

theorem gram_symmetric (A : Mat ℝ m n) : (A.transpose.mul A).transpose = A.transpose.mul A := by
  rw [transpose_mul, transpose_transpose]

end Mat

namespace QR.IsExact

variable {f : QR ℝ m n} {A : Mat ℝ m n}

theorem mulVec_injective (h : f.IsExact A) (hd : ∀ i, f.r.entry i i ≠ 0) :
    Function.Injective A.mulVec := by
  have hr : Function.Injective f.r.mulVec :=
    Mat.mulVec_injective fun b => ⟨_, Mat.mulVec_solveUpper h.upper hd b⟩
  intro x y hxy
  rw [← h.product, Exact.mulVec_mul, Exact.mulVec_mul] at hxy
  refine hr ?_
  rw [← h.vecMul_mulVec (f.r.mulVec x), hxy, h.vecMul_mulVec]

/-- A matrix whose transpose is factorized has the factors in the other order. -/
theorem mulVec_eq {f : QR ℝ n m} (h : f.IsExact A.transpose) (x : Vec ℝ n) :
    A.mulVec x = f.r.vecMul (f.q.vecMul x) := by
  rw [← Mat.vecMul_mul, h.product, Mat.vecMul]
  refine Vec.ext_get ?_
  intro i
  simp [Exact.mulVec_get]

/-- Every right side is reached through the factors of the transpose. -/
theorem inverts_transposed {f : QR ℝ n m} (h : f.IsExact A.transpose)
    (hd : ∀ i, f.r.entry i i ≠ 0) :
    A.IsInvertedBy fun b => f.q.mulVec (f.r.transpose.solveLower b) := by
  have hd' : ∀ i, f.r.transpose.entry i i ≠ 0 := fun i => by simpa using hd i
  have hlower (b : Vec ℝ m) : f.r.vecMul (f.r.transpose.solveLower b) = b :=
    Mat.mulVec_solveLower h.upper.transpose hd' b
  intro b
  rw [h.mulVec_eq, h.vecMul_mulVec, hlower]

/-- Combinations of the orthonormal columns are those of the rows, as the triangular factor reaches all
coefficients. -/
theorem mulVec_inRowSpace {f : QR ℝ n m} (h : f.IsExact A.transpose)
    (hd : ∀ i, f.r.entry i i ≠ 0) (w : Vec ℝ m) : A.InRowSpace (f.q.mulVec w) := by
  refine ⟨f.r.solveUpper w, ?_⟩
  rw [Mat.vecMul, ← h.product, Exact.mulVec_mul, Mat.mulVec_solveUpper h.upper hd]

end QR.IsExact

namespace PseudoInverse.IsExact

variable {X : Mat ℝ n m} {A : Mat ℝ m n}

theorem mulVec_inRowSpace (h : IsExact X A) (b : Vec ℝ m) : A.InRowSpace (X.mulVec b) := by
  refine ⟨X.vecMul (X.mulVec b), ?_⟩
  calc
    X.mulVec b = (X.mul A).mulVec (X.mulVec b) := by rw [← Exact.mulVec_mul, h.outer]
    _ = (X.mul A).vecMul (X.mulVec b) := by rw [Mat.vecMul, h.preimageSymmetric]
    _ = A.vecMul (X.vecMul (X.mulVec b)) := Mat.vecMul_mul X A _

theorem fits (h : IsExact X A) : A.IsFittedBy X.mulVec :=
  .of_inRowSpace h.solvesNormal h.mulVec_inRowSpace

end PseudoInverse.IsExact

namespace Kernels.IsExactFor

open FactorsExactly (diagonal_ne_zero)

variable {K : Kernels ℝ} {f : Factorization}

theorem lu_inverts (h : K.IsExactFor m n .lu) {A : Mat ℝ n n} {solve : Vec ℝ n → Vec ℝ n}
    (hs : Direct.lu K A = .ok solve) : A.IsInvertedBy solve := by
  unfold Direct.lu at hs
  dsimp only at hs
  split at hs
  case isTrue => cases hs
  case isFalse ht =>
    cases hs
    exact (h A).mulVec_solve (diagonal_ne_zero (by simpa using ht))

theorem cholesky_inverts (h : K.IsExactFor m n .cholesky) {A : Mat ℝ n n} (hA : A.transpose = A)
    {solve : Vec ℝ n → Vec ℝ n} (hs : Direct.cholesky K A = .ok solve) : A.IsInvertedBy solve := by
  unfold Direct.cholesky at hs
  split at hs
  case h_1 => cases hs
  case h_2 U hU =>
    simp only [Exact.allFinite_mat, if_true] at hs
    split at hs
    case isTrue => cases hs
    case isFalse ht =>
      cases hs
      exact (h A U hA hU).mulVec_solve (diagonal_ne_zero (by simpa using ht))

theorem qr_exact (h : K.IsExactFor m n .qr) (hmn : n ≤ m) (A : Mat ℝ m n) :
    (K.qr m n A).IsExact A := by
  simp only [IsExactFor, hmn, if_true] at h
  exact h A

theorem qr_fits {A : Mat ℝ m n} (h : (K.qr m n A).IsExact A) {solve : Vec ℝ m → Vec ℝ n}
    (hs : Direct.qr K A = .ok solve) :
    Function.Injective A.mulVec ∧ A.IsFittedBy solve := by
  unfold Direct.qr at hs
  dsimp only at hs
  split at hs
  case isTrue => cases hs
  case isFalse ht =>
    have hd := diagonal_ne_zero (A := (K.qr m n A).r) (by simpa using ht)
    cases hs
    exact ⟨h.mulVec_injective hd, .of_injective (h.mulVec_injective hd) (h.solvesNormal hd)⟩

/-- The solutions of a wide system, of which the shortest is a combination of the rows. -/
theorem qrTransposed_inverts (h : K.IsExactFor m n .qr) (hmn : ¬ n ≤ m) {A : Mat ℝ m n}
    {solve : Vec ℝ m → Vec ℝ n} (hs : Direct.qrTransposed K A = .ok solve) :
    A.IsInvertedBy solve ∧ ∀ b, A.InRowSpace (solve b) := by
  simp only [IsExactFor, hmn, if_false] at h
  unfold Direct.qrTransposed at hs
  dsimp only at hs
  split at hs
  case isTrue => cases hs
  case isFalse ht =>
    have hd := diagonal_ne_zero (A := (K.qr n m A.transpose).r) (by simpa using ht)
    cases hs
    exact ⟨(h A.transpose).inverts_transposed hd, fun b => (h A.transpose).mulVec_inRowSpace hd _⟩

/-- A square matrix that is solved with directly, for a root. -/
theorem square_fits (h : K.IsExactFor n n f) (hf : f ≠ .cholesky) {A : Mat ℝ n n}
    {solve : Vec ℝ n → Vec ℝ n} (hs : Direct.square K f A = .ok solve) :
    A.IsFittedBy solve ∧ (f ≠ .svd → A.IsInvertedBy solve) := by
  cases f with
  | lu =>
    have hinv := h.lu_inverts hs
    exact ⟨hinv.isFittedBy, fun _ => hinv⟩
  | cholesky => exact absurd rfl hf
  | qr =>
    obtain ⟨hinj, hfit⟩ := qr_fits (h.qr_exact le_rfl A) hs
    refine ⟨hfit, fun _ b => ?_⟩
    obtain ⟨x, hx⟩ := Mat.mulVec_surjective hinj b
    exact (hfit.normal b).mulVec_eq hx
  | svd =>
    cases hs
    exact ⟨(h A).fits, fun hne => absurd rfl hne⟩

/-- A matrix that is fitted without the normal equations. -/
theorem leastSquares_fits (h : K.IsExactFor m n f) {A : Mat ℝ m n} {usage : Usage}
    {factorize : Mat ℝ m n → Direct.Prepared ℝ m n} {solve : Vec ℝ m → Vec ℝ n}
    (hf : Direct.leastSquares? K m n f = some (usage, factorize)) (hs : factorize A = .ok solve) :
    A.IsFittedBy solve := by
  cases f with
  | lu => cases hf
  | cholesky => cases hf
  | qr =>
    simp only [Direct.leastSquares?, Option.some.injEq] at hf
    split at hf
    case isTrue hmn =>
      cases hf
      exact (qr_fits (h.qr_exact hmn A) hs).2
    case isFalse hmn =>
      cases hf
      obtain ⟨hinv, hrow⟩ := h.qrTransposed_inverts hmn hs
      exact .of_inRowSpace (fun b => congrArg A.vecMul (hinv b)) hrow
  | svd =>
    cases hf
    cases hs
    exact (h A).fits

/-- The matrix of the normal equations, which is symmetric. -/
theorem gram_fits (h : K.IsExactFor m n f) (hf : f = .lu ∨ f = .cholesky) {A : Mat ℝ m n}
    {solve : Vec ℝ n → Vec ℝ n} (hs : Direct.square K f (A.transpose.mul A) = .ok solve) :
    A.IsFittedBy fun b => solve (A.vecMul b) := by
  rcases hf with rfl | rfl
  · exact (h.lu_inverts hs).of_gram
  · exact (h.cholesky_inverts A.gram_symmetric hs).of_gram

end Kernels.IsExactFor

end NewtonSolver
