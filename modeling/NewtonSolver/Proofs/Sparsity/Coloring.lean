import NewtonSolver.Sparsity.Pattern
import NewtonSolver.Proofs.Entries

/-! First-fit colorings: every column has the least color it can have beside the earlier ones, so
columns with entries in one row have different colors. -/
namespace NewtonSolver

variable {m n : Nat}

/-- Some row has entries in both columns. -/
def Pattern.SharesRow (P : Pattern m n) (j k : Fin n) : Prop :=
  ∃ i, P.entry i j = true ∧ P.entry i k = true

namespace Coloring

/-- Columns of one color have no row in common. -/
def Valid (c : Coloring n) (P : Pattern m n) : Prop :=
  ∀ i j k, j ≠ k → P.entry i j = true → P.entry i k = true → c.colors.get j ≠ c.colors.get k

/-- Every column has the least color that no earlier column has with which it shares a row. -/
def IsFirstFit (c : Coloring n) (P : Pattern m n) : Prop :=
  ∀ j, IsLeast {color | ∀ k < j, P.SharesRow k j → c.colors.get k ≠ color} (c.colors.get j)

theorem lt_foldl_count {colors : List Nat} {color k : Nat} (h : color ∈ colors ∨ color < k) :
    color < colors.foldl (fun k color => max k (color + 1)) k := by
  induction colors generalizing k with
  | nil => simpa using h
  | cons c colors ih =>
    have hstep : color ∈ colors ∨ color < max k (c + 1) := by
      rcases h with h | h
      · rcases List.mem_cons.mp h with rfl | h
        · exact Or.inr (by omega)
        · exact Or.inl h
      · exact Or.inr (by omega)
    exact ih hstep

theorem lt_count_of_mem (c : Coloring n) {color : Nat} (h : color ∈ c.colors.toList) :
    color < c.count := by
  rw [count, ← Vector.foldl_toList]
  exact lt_foldl_count (Or.inl h)

theorem lt_count (c : Coloring n) (j : Fin n) : c.colors.get j < c.count :=
  c.lt_count_of_mem (by simp [Vector.get_eq_getElem])

/-- The numbers below the length cannot all be used, unless they are all that is used. -/
theorem leastUnused_not_mem (used : List Nat) : leastUnused used ∉ used := by
  unfold leastUnused
  cases hf : (List.range used.length).find? fun color => !used.contains color with
  | some color => simpa using List.find?_some hf
  | none =>
    rw [List.find?_eq_none] at hf
    have hsub : List.range used.length ⊆ used := by
      intro color hc
      simpa using hf color hc
    have hperm : (List.range used.length).Perm used :=
      (List.subperm_of_subset List.nodup_range hsub).perm_of_length_le (by simp)
    intro hmem
    have hlt := hperm.mem_iff.mpr hmem
    simp at hlt

theorem leastUnused_isLeast (used : List Nat) :
    IsLeast {color | color ∉ used} (leastUnused used) := by
  refine ⟨leastUnused_not_mem used, ?_⟩
  intro color hcolor
  unfold leastUnused
  cases hf : (List.range used.length).find? fun color => !used.contains color with
  | some first =>
    obtain ⟨-, -, hbefore⟩ := List.find?_range_eq_some.mp hf
    by_contra hlt
    exact hcolor (by simpa using hbefore color (not_le.mp hlt))
  | none =>
    rw [List.find?_eq_none] at hf
    by_contra hlt
    exact hcolor (by simpa using hf color (List.mem_range.mpr (not_le.mp hlt)))

section FirstFit

variable (inConflict : Nat → Nat → Bool) {j k l : Nat}

/-- Columns keep their colors, whatever comes after. -/
theorem firstFit_of_le (hj : j < l) (hl : l ≤ k) :
    (firstFit inConflict k)[j] = (firstFit inConflict l)[j] := by
  induction k, hl using Nat.le_induction with
  | base => rfl
  | succ k hl ih => simpa only [firstFit, Vector.getElem_push_lt (Nat.lt_of_lt_of_le hj hl)] using ih

theorem firstFit_isLeast (hl : l < k) :
    IsLeast {color | ∀ j, (hj : j < l) → inConflict j l = true →
      (firstFit inConflict k)[j] ≠ color} (firstFit inConflict k)[l] := by
  have hcolor := firstFit_of_le inConflict l.lt_succ_self hl
  simp only [firstFit, Vector.getElem_push_eq] at hcolor
  rw [hcolor]
  convert leastUnused_isLeast _ using 2
  ext color
  simp only [List.mem_filterMap, List.mem_finRange, true_and, Option.ite_none_right_eq_some,
    Option.some.injEq, Fin.exists_iff, not_exists, not_and, Vector.get_eq_getElem]
  refine forall₂_congr ?_
  intro j hj
  rw [firstFit_of_le inConflict hj hl.le]

end FirstFit

theorem conflict_iff {P : Pattern m n} {j k : Fin n} : conflict P j k = true ↔ P.SharesRow j k := by
  simp [conflict, Pattern.SharesRow]

theorem greedy_isFirstFit (P : Pattern m n) : (greedy P).IsFirstFit P := by
  intro j
  have h := firstFit_isLeast
    (fun j k => if h : j < n ∧ k < n then conflict P ⟨j, h.1⟩ ⟨k, h.2⟩ else false) j.isLt
  refine ⟨?_, ?_⟩
  · intro k hk hshares
    exact h.1 k hk (by simpa [conflict_iff] using hshares)
  · intro color hfree
    refine h.2 ?_
    intro k hk hconflict
    have hkn := hk.trans j.isLt
    simp only [hkn, j.isLt, and_self, dite_true, conflict_iff] at hconflict
    exact hfree ⟨k, hkn⟩ hk hconflict

theorem IsFirstFit.valid {c : Coloring n} {P : Pattern m n} (h : c.IsFirstFit P) : c.Valid P := by
  intro i j k hjk hj hk
  rcases lt_or_gt_of_ne hjk with hlt | hlt
  · exact (h k).1 j hlt ⟨i, hj, hk⟩
  · exact ((h j).1 k hlt ⟨i, hk, hj⟩).symm

theorem greedy_valid (P : Pattern m n) : (greedy P).Valid P :=
  (greedy_isFirstFit P).valid

end Coloring

end NewtonSolver
