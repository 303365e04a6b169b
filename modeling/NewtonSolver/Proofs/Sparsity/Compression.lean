import NewtonSolver.Proofs.Arithmetic.Exact
import NewtonSolver.Proofs.Outcome
import NewtonSolver.Proofs.Sparsity.Coloring
import NewtonSolver.Sparsity.Compression

/-! What compressed products tell of a matrix: sums over the columns or the rows of one color. All
matrices with a pattern are regained from them exactly if no color meets a row or a column twice. -/
namespace NewtonSolver

/-- The pattern has every entry that is not zero. -/
def Pattern.Covers {R : Type} [Scalar R] {m n : Nat} (P : Pattern m n) (A : Mat R m n) : Prop :=
  ∀ i j, A.entry i j ≠ 0 → P.entry i j = true

theorem Pattern.Covers.transpose {m n : Nat} {P : Pattern m n} {A : Mat ℝ m n} (hA : P.Covers A) :
    Pattern.Covers P.transpose A.transpose := by
  intro j i hne
  rw [Mat.entry_transpose] at hne ⊢
  exact hA i j hne

namespace Compression

section Products

variable {R : Type} [Scalar R] {k l count : Nat} {f : Vec R k → Vec R l} {c : Coloring k}

theorem products_ok : products (fun v => .ok (f v)) c count =
    .ok ((List.range count).map fun color => f (c.seed color)) := by
  unfold products
  exact List.mapM_pure

/-- The product for the color of `j` is there. -/
theorem value_ok (hcount : ∀ j, c.colors.get j < count) (j : Fin k) (i : Fin l) (present : Bool) :
    value ((List.range count).map fun color => f (c.seed color)) (c.colors.get j) i present =
      (f (c.seed (c.colors.get j))).get i * if present then 1 else 0 := by
  simp [value, List.getElem?_map, List.getElem?_range (hcount j)]

theorem expandColumns_eq {P : Pattern l k} (hcount : ∀ j, c.colors.get j < count) :
    expandColumns P c count (fun v => .ok (f v)) = .ok (Mat.ofFn fun i j =>
      (f (c.seed (c.colors.get j))).get i * if P.entry i j = true then 1 else 0) := by
  simp only [expandColumns, products_ok, Outcome.ok_bind, Outcome.pure_eq, value_ok hcount]

theorem expandRows_eq {P : Pattern k l} (hcount : ∀ i, c.colors.get i < count) :
    expandRows P c count (fun u => .ok (f u)) = .ok (Mat.ofFn fun i j =>
      (f (c.seed (c.colors.get i))).get j * if P.entry i j = true then 1 else 0) := by
  simp only [expandRows, products_ok, Outcome.ok_bind, Outcome.pure_eq, value_ok hcount]

theorem seed_get (color : Nat) (j : Fin k) :
    (c.seed color : Vec R k).get j = if c.colors.get j = color then 1 else 0 := by
  simp [Coloring.seed]

end Products

variable {m n count : Nat} {P : Pattern m n} {A : Mat ℝ m n}

/-- At a place of the pattern, the sum of its row over the columns of one color, or of its column over
the rows of one color. -/
noncomputable def gathered (P : Pattern m n) : Compression m n → Mat ℝ m n → Mat ℝ m n
  | columns c, A => Mat.ofFn fun i j =>
    (if P.entry i j = true then 1 else 0) * ∑ k with c.colors.get k = c.colors.get j, A.entry i k
  | rows c, A => Mat.ofFn fun i j =>
    (if P.entry i j = true then 1 else 0) * ∑ k with c.colors.get k = c.colors.get i, A.entry k j

/-- No two columns, or rows, of one color meet a row, or a column, of the pattern. -/
def Valid (P : Pattern m n) : Compression m n → Prop
  | columns c => c.Valid P
  | rows c => c.Valid P.transpose

theorem mulVec_seed (A : Mat ℝ m n) (c : Coloring n) (color : Nat) (i : Fin m) :
    (A.mulVec (c.seed color)).get i = ∑ k with c.colors.get k = color, A.entry i k := by
  simp [Exact.mulVec_get, seed_get, Finset.sum_filter]

theorem expandColumns_ok {c : Coloring n} (hcount : ∀ j, c.colors.get j < count) :
    expandColumns P c count (fun v => .ok (A.mulVec v)) = .ok (gathered P (.columns c) A) := by
  simp only [expandColumns_eq hcount, gathered, mulVec_seed, mul_comm]

theorem expandRows_ok {c : Coloring m} (hcount : ∀ i, c.colors.get i < count) :
    expandRows P c count (fun u => .ok (A.vecMul u)) = .ok (gathered P (.rows c) A) := by
  simp only [expandRows_eq hcount, gathered, Mat.vecMul, mulVec_seed, Mat.entry_transpose, mul_comm]

/-- Rows are the columns of the transposed matrix. -/
theorem gathered_rows (P : Pattern m n) (c : Coloring m) (A : Mat ℝ m n) :
    (gathered P (.rows c) A).transpose = gathered P.transpose (.columns c) A.transpose := by
  refine Mat.ext_entry ?_
  intro j i
  simp only [gathered, Mat.entry_transpose, Mat.entry_ofFn]

/-- The other columns of the color of `j` have no entry in a row where the pattern has `j`. -/
theorem sum_color {c : Coloring n} (hc : c.Valid P) (hA : P.Covers A) {i : Fin m} {j : Fin n}
    (hP : P.entry i j = true) :
    ∑ k with c.colors.get k = c.colors.get j, A.entry i k = A.entry i j := by
  refine Finset.sum_eq_single_of_mem j (by simp) ?_
  intro k hk hkj
  have hcolor : c.colors.get k = c.colors.get j := (Finset.mem_filter.mp hk).2
  by_contra hne
  exact hc i k j hkj (hA i k hne) hP hcolor

theorem gathered_columns_eq {c : Coloring n} (hc : c.Valid P) (hA : P.Covers A) :
    gathered P (.columns c) A = A := by
  refine Mat.ext_entry ?_
  intro i j
  rw [gathered, Mat.entry_ofFn]
  by_cases hP : P.entry i j = true
  · rw [if_pos hP, one_mul, sum_color hc hA hP]
  · rw [if_neg hP, zero_mul]
    by_contra hne
    exact hP (hA i j (Ne.symm hne))

theorem gathered_eq {c : Compression m n} (hc : c.Valid P) (hA : P.Covers A) :
    gathered P c A = A := by
  cases c with
  | columns c => exact gathered_columns_eq hc hA
  | rows c =>
    rw [← Mat.transpose_transpose (gathered P (.rows c) A), gathered_rows,
      gathered_columns_eq hc hA.transpose, Mat.transpose_transpose]

/-- The matrix with a one at a single place. -/
noncomputable def single (i : Fin m) (k : Fin n) : Mat ℝ m n :=
  Mat.ofFn fun i' k' => if i' = i ∧ k' = k then 1 else 0

theorem covers_single {i : Fin m} {k : Fin n} (hP : P.entry i k = true) : P.Covers (single i k) := by
  intro i' k' hne
  by_cases h : i' = i ∧ k' = k
  · exact h.1 ▸ h.2 ▸ hP
  · simp [single, h] at hne

/-- Where two columns of one color meet a row, the entry of one is found in the place of the other. -/
theorem gathered_single {c : Coloring n} {i : Fin m} {j k : Fin n} (hP : P.entry i j = true)
    (hcolor : c.colors.get j = c.colors.get k) :
    (gathered P (.columns c) (single i k)).entry i j = 1 := by
  have hsum : ∑ l with c.colors.get l = c.colors.get j, (single i k).entry i l = (1 : ℝ) := by
    simp [single, hcolor]
  rw [gathered, Mat.entry_ofFn, if_pos hP, hsum, one_mul]

theorem valid_columns_of_gathered {c : Coloring n}
    (h : ∀ A, P.Covers A → gathered P (.columns c) A = A) : c.Valid P := by
  intro i j k hjk hj hk hcolor
  have hone := gathered_single hj hcolor
  rw [h _ (covers_single hk)] at hone
  simp [single, hjk] at hone

/-- Exactly the valid colorings regain every matrix with the pattern. -/
theorem gathered_eq_iff {c : Compression m n} :
    (∀ A, P.Covers A → gathered P c A = A) ↔ c.Valid P := by
  constructor
  · intro h
    cases c with
    | columns c => exact valid_columns_of_gathered h
    | rows c =>
      refine valid_columns_of_gathered ?_
      intro A hA
      have hrows := h A.transpose (by simpa using hA.transpose)
      rw [← Mat.transpose_transpose A, ← gathered_rows, hrows]
  · exact fun hc A hA => gathered_eq hc hA

end Compression

end NewtonSolver
