import Mathlib
import NewtonSolver.Proofs.Factor.Prepared

/-! Elimination in exact arithmetic: the factors of every square matrix are exact, and so is the upper
factor of a symmetric matrix that has one. -/
namespace NewtonSolver

variable {n : Nat}

section Walk

variable {σ : Type} {P : Nat → σ → Prop} {s t : σ}

/-- What each step along the indices keeps, counted by the indices that are done. -/
theorem foldlM_finRange {f : σ → Fin n → Option σ}
    (hstep : ∀ (k : Fin n) s t, P k s → f s k = some t → P (k + 1) t) (h : P 0 s)
    (hf : (List.finRange n).foldlM f s = some t) : P n t := by
  induction n generalizing P s with
  | zero =>
    cases hf
    exact h
  | succ n ih =>
    rw [List.finRange_succ, List.foldlM_cons] at hf
    obtain ⟨u, hu, hf⟩ := Option.bind_eq_some_iff.mp hf
    rw [List.foldlM_map] at hf
    exact ih (P := fun k => P (k + 1)) (fun k => hstep k.succ) (hstep 0 s u h hu) hf

/-- No step fails where what the steps keep lets the next one go on. -/
theorem exists_foldlM_finRange {f : σ → Fin n → Option σ}
    (hsome : ∀ (k : Fin n) s, P k s → ∃ t, f s k = some t)
    (hstep : ∀ (k : Fin n) s t, P k s → f s k = some t → P (k + 1) t) (h : P 0 s) :
    ∃ t, (List.finRange n).foldlM f s = some t := by
  induction n generalizing P s with
  | zero => exact ⟨s, rfl⟩
  | succ n ih =>
    obtain ⟨u, hu⟩ := hsome 0 s h
    obtain ⟨t, ht⟩ := ih (P := fun k => P (k + 1)) (f := fun s k => f s k.succ)
      (fun k => hsome k.succ) (fun k => hstep k.succ) (hstep 0 s u h hu)
    refine ⟨t, ?_⟩
    rw [List.finRange_succ, List.foldlM_cons, hu, Option.bind_eq_bind, Option.bind_some,
      List.foldlM_map]
    exact ht

theorem foldl_finRange {f : σ → Fin n → σ}
    (hstep : ∀ (k : Fin n) s, P k s → P (k + 1) (f s k)) (h : P 0 s) :
    P n ((List.finRange n).foldl f s) := by
  refine foldlM_finRange (f := fun s k => some (f s k)) ?_ h List.foldlM_pure
  rintro k s _ hs ⟨⟩
  exact hstep k s hs

end Walk

theorem Vec.get_exchange {α : Type} (v : Vec α n) (i j l : Fin n) :
    (v.exchange i j).get l = v.get (Equiv.swap i j l) := by
  simp only [exchange, Vector.get_eq_getElem, Vector.getElem_swap, Equiv.swap_apply_def,
    ← Fin.ext_iff]
  split
  · rfl
  · split <;> rfl

namespace LU

variable {A E : Mat ℝ n n} {k p i l : Fin n}

/-- Row `p` is the best one, from row `k` on, of the rows that were looked at. -/
structure IsBest (E : Mat ℝ n n) (k : Fin n) (seen : Nat) (p : Fin n) : Prop where
  start_le : k ≤ p
  start : |E.entry k k| ≤ |E.entry p k|
  later : ∀ i : Fin n, i < seen → k < i → |E.entry i k| ≤ |E.entry p k|

theorem pivotRow_isBest (E : Mat ℝ n n) (k : Fin n) : IsBest E k n (pivotRow E k) := by
  refine foldl_finRange ?_ ⟨le_rfl, le_rfl, by simp⟩
  intro i p hp
  split
  · next h =>
    refine ⟨h.1.le, hp.start.trans h.2.le, ?_⟩
    intro l hl hkl
    rcases Nat.lt_succ_iff_lt_or_eq.mp hl with hl | hl
    · exact (hp.later l hl hkl).trans h.2.le
    · rw [Fin.ext hl]
  · next h =>
    refine ⟨hp.start_le, hp.start, ?_⟩
    intro l hl hkl
    rcases Nat.lt_succ_iff_lt_or_eq.mp hl with hl | hl
    · exact hp.later l hl hkl
    · obtain rfl := Fin.ext hl
      exact not_lt.mp fun hlt => h ⟨hkl, hlt⟩

theorem IsBest.le (hp : IsBest E k n p) (hi : k ≤ i) : |E.entry i k| ≤ |E.entry p k| := by
  rcases hi.eq_or_lt with rfl | hi
  · exact hp.start
  · exact hp.later i i.isLt hi

section Exchange

variable (hp : k ≤ p)

include hp

theorem swap_of_lt (hl : l < k) : Equiv.swap k p l = l :=
  Equiv.swap_apply_of_ne_of_ne hl.ne (hl.trans_le hp).ne

theorem le_swap (hl : k ≤ l) : k ≤ Equiv.swap k p l := by
  rw [Equiv.swap_apply_def]
  split
  · exact hp
  · split
    · exact le_rfl
    · exact hl

end Exchange

/-- The product of the factors so far. The second one still has all entries of the columns that are not
done. -/
def product (E : Mat ℝ n n) (done : Nat) (i j : Fin n) : ℝ :=
  ∑ l : Fin n, (if l < done ∧ l < i ∧ l ≤ j then E.entry i l * E.entry l j else 0) +
    if i ≤ j ∨ done ≤ j then E.entry i j else 0

theorem product_zero (E : Mat ℝ n n) (i j : Fin n) : product E 0 i j = E.entry i j := by
  simp [product]

theorem entry_exchange (E : Mat ℝ n n) (k p i j : Fin n) :
    Mat.entry (Vec.exchange E k p) i j = E.entry (Equiv.swap k p i) j := by
  rw [Mat.entry, Vec.get_exchange, Mat.entry]

/-- Rows that are not done may be exchanged. -/
theorem product_exchange (hp : k ≤ p) (i j : Fin n) :
    product (Vec.exchange E k p) k i j = product E k (Equiv.swap k p i) j := by
  have hlt {l : Fin n} (hl : l < k) : l < i ↔ l < Equiv.swap k p i := by
    rcases lt_or_ge i k with hi | hi
    · rw [swap_of_lt hp hi]
    · exact iff_of_true (hl.trans_le hi) (hl.trans_le (le_swap hp hi))
  have hle : i ≤ j ∨ k ≤ j ↔ Equiv.swap k p i ≤ j ∨ k ≤ j := by
    rcases lt_or_ge i k with hi | hi
    · rw [swap_of_lt hp hi]
    · exact ⟨fun h => .inr (h.elim hi.trans id), fun h => .inr (h.elim (le_swap hp hi).trans id)⟩
  unfold product
  congr 1
  · refine Finset.sum_congr rfl ?_
    intro l _
    by_cases hl : l < k
    · simp [entry_exchange, swap_of_lt hp hl, hlt hl, hl]
    · simp [hl]
  · simp [entry_exchange, hle]

/-- The best row has the pivot once it is exchanged. -/
theorem IsBest.exchange_le (hp : IsBest E k n p) (hi : k ≤ i) :
    |Mat.entry (Vec.exchange E k p) i k| ≤ |Mat.entry (Vec.exchange E k p) k k| := by
  rw [entry_exchange, entry_exchange, Equiv.swap_apply_left]
  exact hp.le (le_swap hp.start_le hi)

section Clear

variable (hp : ∀ i, k ≤ i → |E.entry i k| ≤ |E.entry k k|)

include hp

/-- The column of a zero pivot has nothing to clear. -/
theorem entry_eq_zero (h : E.entry k k = 0) (hi : k ≤ i) : E.entry i k = 0 := by
  have hle := hp i hi
  rw [h, abs_zero] at hle
  exact abs_nonpos_iff.mp hle

/-- Division by a zero pivot gives the zero that is there, so that it is no case of its own. -/
theorem clearBelow_entry (i j : Fin n) :
    (clearBelow E k).entry i j =
      if k < i ∧ k ≤ j then
        if j = k then E.entry i k / E.entry k k
        else E.entry i j - E.entry i k / E.entry k k * E.entry k j
      else E.entry i j := by
  by_cases h : E.entry k k = 0
  · have hsame : clearBelow E k = E := by simp [clearBelow, h]
    rw [hsame]
    split
    · next hij =>
      have hik : E.entry i k = 0 := entry_eq_zero hp h hij.1.le
      split
      · next hjk => rw [hjk, hik, zero_div]
      · simp [hik]
    · rfl
  · have hne : (E.get k).get k ≠ 0 := h
    rcases lt_or_ge k i with hi | hi
    · rcases lt_or_ge j k with hj | hj
      · simp [clearBelow, Mat.entry, hne, not_le.mpr hi, hj, not_le.mpr hj]
      · simp [clearBelow, Mat.entry, hne, not_le.mpr hi, hi, hj, not_lt.mpr hj]
    · simp [clearBelow, Mat.entry, hne, hi, not_lt.mpr hi]

/-- The term that a column adds to the rows below it, which is what these rows lose. -/
theorem product_clearBelow_of_lt (hi : k < i) (j : Fin n) :
    product (clearBelow E k) (k.val + 1) i j = product E k i j := by
  have hentry := clearBelow_entry hp
  have hterm (l : Fin n) :
      (if l < k.val + 1 ∧ l < i ∧ l ≤ j then
          (clearBelow E k).entry i l * (clearBelow E k).entry l j else 0) =
        (if l < k.val ∧ l < i ∧ l ≤ j then E.entry i l * E.entry l j else 0) +
          if l = k then (if k ≤ j then E.entry i k / E.entry k k * E.entry k j else 0) else 0 := by
    rcases lt_trichotomy l k with hl | rfl | hl
    · simp [hentry, hl, hl.ne, not_le.mpr hl, not_lt.mpr hl.le, Nat.lt_succ_of_lt hl]
    · simp [hentry, hi]
    · simp [hl.ne', not_lt.mpr hl.le, Nat.not_lt.mpr (Nat.succ_le_of_lt hl)]
  unfold product
  rw [Finset.sum_congr rfl fun l _ => hterm l, Finset.sum_add_distrib, Finset.sum_ite_eq',
    if_pos (Finset.mem_univ k), add_assoc]
  congr 1
  rcases lt_trichotomy j k with hj | rfl | hj
  · have hij : ¬ i ≤ j := not_le.mpr (hj.trans hi)
    simp [hij, not_le.mpr hj, Nat.not_le.mpr (Nat.lt_succ_of_lt hj)]
  · have hcancel := div_mul_cancel_of_imp fun h => entry_eq_zero hp h hi.le
    simp [hcancel, not_le.mpr hi]
  · simp [hentry, hi, hj.le, hj.ne', Nat.succ_le_of_lt hj]

theorem product_clearBelow (i j : Fin n) :
    product (clearBelow E k) (k.val + 1) i j = product E k i j := by
  rcases lt_or_ge k i with hi | hi
  · exact product_clearBelow_of_lt hp hi j
  · have hrow (l : Fin n) (hl : l ≤ k) (j : Fin n) : (clearBelow E k).entry l j = E.entry l j := by
      rw [clearBelow_entry hp, if_neg fun h => not_lt.mpr hl h.1]
    have hdone (l : Fin n) (hl : l < i) : l < k.val + 1 ↔ l < k :=
      iff_of_true (Nat.lt_succ_of_lt (hl.trans_le hi)) (hl.trans_le hi)
    have hkept : i ≤ j ∨ k < j ↔ i ≤ j ∨ k ≤ j :=
      ⟨Or.imp_right le_of_lt, fun h => .inl (h.elim id hi.trans)⟩
    unfold product
    congr 1
    · refine Finset.sum_congr rfl ?_
      intro l _
      by_cases hl : l < i
      · simp [hl, hdone l hl, hrow i hi, hrow l (hl.le.trans hi)]
      · simp [hl]
    · simp [hrow i hi, hkept]

end Clear

/-- After so many columns the product of the factors is the matrix with its rows in their new order. -/
structure Elimination.IsExact (A : Mat ℝ n n) (done : Nat) (s : Elimination ℝ n) : Prop where
  permutes : Function.Injective s.rows.get
  product : ∀ i j, LU.product s.entries done i j = A.entry (s.rows.get i) j

theorem Elimination.IsExact.step {s : Elimination ℝ n} (hs : s.IsExact A k) :
    (s.step k).IsExact A (k.val + 1) := by
  have hbest := pivotRow_isBest s.entries k
  refine ⟨?_, ?_⟩
  · intro i j hij
    simp only [Elimination.step, Vec.get_exchange] at hij
    exact (Equiv.swap k _).injective (hs.permutes hij)
  · intro i j
    rw [Elimination.step, product_clearBelow fun i => hbest.exchange_le,
      product_exchange hbest.start_le, hs.product, Vec.get_exchange]

theorem eliminate_isExact (A : Mat ℝ n n) : (eliminate A).IsExact A n := by
  have hget (i : Fin n) : (Vector.finRange n).get i = i := by simp [Vector.get_eq_getElem]
  refine foldl_finRange (fun k s hs => hs.step) ⟨?_, ?_⟩
  · intro i j hij
    simpa only [hget] using hij
  · intro i j
    rw [product_zero, hget]

/-- No column is left, so the second factor is the upper one. -/
theorem factorize_product (A : Mat ℝ n n) (i j : Fin n) :
    ((factorize A).lower.mul (factorize A).upper).entry i j =
      product (eliminate A).entries n i j := by
  have hterm (l : Fin n) :
      (factorize A).lower.entry i l * (factorize A).upper.entry l j =
        (if l < n ∧ l < i ∧ l ≤ j then
          (eliminate A).entries.entry i l * (eliminate A).entries.entry l j else 0) +
            if l = i then (if i ≤ j then (eliminate A).entries.entry i j else 0) else 0 := by
    rcases lt_trichotomy l i with hl | rfl | hl
    · simp [factorize, hl, hl.ne]
    · simp [factorize]
    · simp [factorize, hl.ne, hl.ne', not_lt.mpr hl.le]
  have hlast : ¬ n ≤ j := not_le.mpr j.isLt
  simp only [Exact.entry_mul, hterm, Finset.sum_add_distrib, Finset.sum_ite_eq',
    Finset.mem_univ, if_true]
  simp [product, hlast]

theorem factorize_isExact (A : Mat ℝ n n) : (factorize A).IsExact A := by
  have hdone := eliminate_isExact A
  refine ⟨hdone.permutes, ?_, ?_, ?_, ?_⟩
  · intro i j hij
    simp [factorize, not_lt.mpr hij.le, hij.ne]
  · intro i
    simp [factorize]
  · intro i j hij
    simp [factorize, not_le.mpr hij]
  · intro i j
    rw [factorize_product, hdone.product]
    rfl

/-- There is nothing to eliminate from a single entry. -/
theorem factorize_one_pivot (a : ℝ) :
    (factorize (Mat.ofFn fun _ _ => a : Mat ℝ 1 1)).upper.entry 0 0 = a := by
  have hexact := factorize_isExact (Mat.ofFn fun _ _ => a : Mat ℝ 1 1)
  simpa [Exact.entry_mul, hexact.unit] using hexact.product 0 0

end LU

theorem Kernels.FactorsExactly.standard_lu_one {a : ℝ} (ha : a ≠ 0) :
    Kernels.standard.FactorsExactly .lu (Mat.ofFn fun _ _ => a : Mat ℝ 1 1) := by
  refine .lu (LU.factorize_isExact _) (Exact.isSingularDiagonal_one ?_ ?_)
  · exact (LU.factorize_one_pivot a).trans_ne ha
  · norm_num [Scalar.epsilon]

namespace Cholesky

variable {A U V : Mat ℝ n n} {i j : Fin n}

/-- What the rows above row `i` have in the product of columns `i` and `j`. -/
def overlap (U : Mat ℝ n n) (i j : Fin n) : ℝ :=
  ∑ l : Fin n, if l < i then U.entry l i * U.entry l j else 0

theorem remainder_eq_sub (A U : Mat ℝ n n) (i j : Fin n) :
    remainder A U i j = A.entry i j - overlap U i j := by
  have hnd : ((List.finRange n).filter (· < i)).Nodup := (List.nodup_finRange n).filter _
  have hset : ((List.finRange n).filter (· < i)).toFinset = Finset.univ.filter (· < i) := by
    ext l
    simp
  rw [remainder, foldl_sub, ← List.sum_toFinset _ hnd, hset, Finset.sum_filter, overlap]

theorem overlap_congr (h : ∀ l, l < i → ∀ j, U.entry l j = V.entry l j) (j : Fin n) :
    overlap U i j = overlap V i j := by
  refine Finset.sum_congr rfl ?_
  intro l _
  by_cases hl : l < i
  · rw [if_pos hl, if_pos hl, h l hl, h l hl]
  · rw [if_neg hl, if_neg hl]

/-- The rows that are done are those of an upper factor of the matrix. -/
structure IsExactTo (U A : Mat ℝ n n) (done : Nat) : Prop where
  upper : ∀ i j : Fin n, i < done → j < i → U.entry i j = 0
  product : ∀ i j : Fin n, i < done → i ≤ j →
    overlap U i j + U.entry i i * U.entry i j = A.entry i j

/-- The row that a step adds; the other rows stay. -/
theorem step_some (h : step A U i = some V) :
    (∀ l, l ≠ i → ∀ j, V.entry l j = U.entry l j) ∧
    (∀ j, j < i → V.entry i j = 0) ∧
    ∀ j, i ≤ j → V.entry i i * V.entry i j = A.entry i j - overlap U i j := by
  unfold step at h
  dsimp only at h
  split at h
  case isFalse => cases h
  case isTrue hpos =>
    have hroot : Scalar.sqrt (remainder A U i i) * Scalar.sqrt (remainder A U i i) =
        remainder A U i i := Real.mul_self_sqrt hpos.le
    have hne : Scalar.sqrt (remainder A U i i) ≠ 0 := (Real.sqrt_pos.mpr hpos).ne'
    obtain rfl := Option.some.inj h
    refine ⟨?_, ?_, ?_⟩
    · intro l hl j
      simp [Mat.entry, Vec.get_put, hl]
    · intro j hj
      simp [Mat.entry, Vec.get_put, hj]
    · intro j hj
      rw [← remainder_eq_sub]
      rcases hj.eq_or_lt with rfl | hj
      · simpa [Mat.entry, Vec.get_put] using hroot
      · simp [Mat.entry, Vec.get_put, hj.ne', not_lt.mpr hj.le, mul_div_cancel₀ _ hne]

theorem IsExactTo.step (hU : IsExactTo U A i) (hs : step A U i = some V) :
    IsExactTo V A (i.val + 1) := by
  obtain ⟨hother, hzero, hrow⟩ := step_some hs
  have hover (l : Fin n) (hl : l ≤ i) (j : Fin n) : overlap V l j = overlap U l j :=
    overlap_congr (fun k hk => hother k (hk.trans_le hl).ne) j
  refine ⟨?_, ?_⟩
  · intro l j hl hj
    rcases Nat.lt_succ_iff_lt_or_eq.mp hl with hl | hl
    · rw [hother l (Fin.ne_of_lt hl), hU.upper l j hl hj]
    · obtain rfl := Fin.ext hl
      exact hzero j hj
  · intro l j hl hj
    rcases Nat.lt_succ_iff_lt_or_eq.mp hl with hl | hl
    · have hne : l ≠ i := Fin.ne_of_lt hl
      rw [hover l (Fin.le_of_lt hl), hother l hne, hother l hne, hU.product l j hl hj]
    · obtain rfl := Fin.ext hl
      rw [hover l le_rfl, hrow j hj, add_sub_cancel]

/-- The product of the rows so far, with nothing in the others. -/
theorem IsExactTo.entry_gram {done : Nat} (hU : IsExactTo U A done)
    (hrest : ∀ l : Fin n, done ≤ l → ∀ j, U.entry l j = 0) (hi : i < done) (hij : i ≤ j) :
    (U.transpose.mul U).entry i j = A.entry i j := by
  have hterm (l : Fin n) : U.entry l i * U.entry l j =
      (if l < i then U.entry l i * U.entry l j else 0) +
        if l = i then U.entry i i * U.entry i j else 0 := by
    rcases lt_trichotomy l i with hl | rfl | hl
    · simp [hl, hl.ne]
    · simp
    · have hzero : U.entry l i = 0 := by
        rcases lt_or_ge l.val done with hd | hd
        · exact hU.upper l i hd hl
        · exact hrest l hd i
      simp [hl.ne', not_lt.mpr hl.le, hzero]
  simp only [Exact.entry_mul, Mat.entry_transpose]
  rw [Finset.sum_congr rfl fun l _ => hterm l, Finset.sum_add_distrib, Finset.sum_ite_eq',
    if_pos (Finset.mem_univ i), ← hU.product i j hi hij]
  rfl

/-- The entries below the diagonal, which are not read, are those above it. -/
theorem factorize_isExact (hA : A.transpose = A) (h : factorize A = some U) : IsExact U A := by
  have hU : IsExactTo U A n := by
    refine foldlM_finRange (P := fun done U => IsExactTo U A done) (fun i U V hU => hU.step) ?_ h
    exact ⟨by simp, by simp⟩
  have hentry (i j : Fin n) (hij : i ≤ j) : (U.transpose.mul U).entry i j = A.entry i j :=
    hU.entry_gram (fun l hl => absurd l.isLt (not_lt.mpr hl)) i.isLt hij
  refine ⟨fun i j => hU.upper i j i.isLt, Mat.ext_entry ?_⟩
  intro i j
  rcases le_total i j with hij | hij
  · exact hentry i j hij
  · rw [← U.gram_symmetric, Mat.entry_transpose, hentry j i hij, ← Mat.entry_transpose, hA]

theorem factorize_one {a : ℝ} (ha : 0 < a) :
    ∃ U, factorize (Mat.ofFn fun _ _ => a : Mat ℝ 1 1) = some U := by
  simp [factorize, List.finRange, step, remainder, ha]

end Cholesky

theorem Kernels.FactorsExactly.standard_cholesky_one {a : ℝ} (ha : 0 < a) :
    Kernels.standard.FactorsExactly .cholesky (Mat.ofFn fun _ _ => a : Mat ℝ 1 1) := by
  obtain ⟨U, hU⟩ := Cholesky.factorize_one ha
  have hexact := Cholesky.factorize_isExact (Mat.ext_entry fun i j => by simp) hU
  have hroot : U.entry 0 0 * U.entry 0 0 = a := by
    simpa [Exact.entry_mul] using congrArg (fun A : Mat ℝ 1 1 => A.entry 0 0) hexact.product
  refine .cholesky hU hexact (Exact.isSingularDiagonal_one ?_ ?_)
  · intro h0
    rw [h0, mul_zero] at hroot
    exact ha.ne hroot
  · norm_num [Scalar.epsilon]

end NewtonSolver
