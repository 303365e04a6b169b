import Mathlib
import NewtonSolver.Proofs.Sparsity.Coloring

/-! How many colors a first-fit coloring takes: one for each entry of the fullest row at least, one more
than a column has earlier conflicts at most, and the width of the band for a banded pattern. -/
namespace NewtonSolver

variable {m n : Nat}

namespace Pattern

/-- The columns with an entry in the row. -/
def support (P : Pattern m n) (i : Fin m) : Finset (Fin n) := {j | P.entry i j = true}

open scoped Classical in
/-- The earlier columns that share a row with the column. -/
noncomputable def earlierConflicts (P : Pattern m n) (j : Fin n) : Finset (Fin n) :=
  {k | k < j ∧ P.SharesRow k j}

/-- At most `p` places below the diagonal and `q` above it. -/
def InBand (p q : Nat) (i j : Nat) : Prop := -(q : ℤ) ≤ (i : ℤ) - j ∧ (i : ℤ) - j ≤ p

end Pattern

namespace Coloring

variable {P : Pattern m n} {c : Coloring n} {p q : Nat}

theorem foldl_count_le {colors : List Nat} {k bound : Nat} (hk : k ≤ bound)
    (h : ∀ color ∈ colors, color < bound) :
    colors.foldl (fun k color => max k (color + 1)) k ≤ bound := by
  induction colors generalizing k with
  | nil => exact hk
  | cons color colors ih =>
    have hstep : max k (color + 1) ≤ bound := Nat.max_le.mpr ⟨hk, h color (by simp)⟩
    exact ih hstep fun color' hmem => h color' (by simp [hmem])

theorem count_le {bound : Nat} (h : ∀ j, c.colors.get j < bound) : c.count ≤ bound := by
  rw [count, ← Vector.foldl_toList]
  refine foldl_count_le (Nat.zero_le _) ?_
  intro color hcolor
  obtain ⟨j, hj, rfl⟩ := Vector.mem_iff_getElem.mp (Vector.mem_toList_iff.mp hcolor)
  exact h ⟨j, hj⟩

theorem exists_count_le {color : Nat} (h : color < c.count) : ∃ j, color ≤ c.colors.get j := by
  by_contra hnone
  simp only [not_exists, not_le] at hnone
  exact absurd (count_le hnone) (not_le.mpr h)

/-- The entries of a row all have different colors. -/
theorem Valid.card_support_le (h : c.Valid P) (i : Fin m) : (P.support i).card ≤ c.count := by
  rw [← Finset.card_range c.count]
  refine Finset.card_le_card_of_injOn c.colors.get ?_ ?_
  · intro j _
    exact Finset.mem_coe.mpr (Finset.mem_range.mpr (c.lt_count j))
  · intro j hj k hk heq
    by_contra hne
    have hj' : P.entry i j = true := by simpa [Pattern.support] using hj
    have hk' : P.entry i k = true := by simpa [Pattern.support] using hk
    exact h i j k hne hj' hk' heq

namespace IsFirstFit

variable (h : c.IsFirstFit P)

include h

/-- A color that was passed over belongs to an earlier column in conflict. -/
theorem exists_earlier {j : Fin n} {color : Nat} (hlt : color < c.colors.get j) :
    ∃ k ∈ P.earlierConflicts j, c.colors.get k = color := by
  by_contra hnone
  refine absurd ((h j).2 ?_) (not_le.mpr hlt)
  intro k hk hshares heq
  exact hnone ⟨k, by simp [Pattern.earlierConflicts, hk, hshares], heq⟩

theorem color_le (j : Fin n) : c.colors.get j ≤ (P.earlierConflicts j).card := by
  have hsub : Finset.range (c.colors.get j) ⊆ (P.earlierConflicts j).image c.colors.get := by
    intro color hcolor
    obtain ⟨k, hk, heq⟩ := h.exists_earlier (Finset.mem_range.mp hcolor)
    exact Finset.mem_image.mpr ⟨k, hk, heq⟩
  calc
    c.colors.get j = (Finset.range (c.colors.get j)).card := (Finset.card_range _).symm
    _ ≤ ((P.earlierConflicts j).image c.colors.get).card := Finset.card_le_card hsub
    _ ≤ (P.earlierConflicts j).card := Finset.card_image_le

/-- No color is left out. -/
theorem lt_count_iff {color : Nat} : color < c.count ↔ ∃ j, c.colors.get j = color := by
  constructor
  · intro hcolor
    obtain ⟨j, hj⟩ := exists_count_le hcolor
    rcases Nat.eq_or_lt_of_le hj with heq | hlt
    · exact ⟨j, heq.symm⟩
    · obtain ⟨k, -, heq⟩ := h.exists_earlier hlt
      exact ⟨k, heq⟩
  · rintro ⟨j, rfl⟩
    exact c.lt_count j

theorem count_le_earlier :
    c.count ≤ 1 + Finset.univ.sup fun j => (P.earlierConflicts j).card := by
  refine count_le ?_
  intro j
  have hsup : (P.earlierConflicts j).card ≤ Finset.univ.sup fun j => (P.earlierConflicts j).card :=
    Finset.le_sup (f := fun j => (P.earlierConflicts j).card) (Finset.mem_univ j)
  have hle := h.color_le j
  omega

end IsFirstFit

theorem near_of_sharesRow (hband : ∀ i j, P.entry i j = true → Pattern.InBand p q i j)
    {k j : Fin n} (hshares : P.SharesRow k j) : (j : Nat) ≤ k + (p + q) := by
  obtain ⟨i, hik, hij⟩ := hshares
  obtain ⟨-, hbelow⟩ := hband i k hik
  obtain ⟨habove, -⟩ := hband i j hij
  omega

/-- In a band, the earlier columns that share a row are less than its width away. -/
theorem card_earlierConflicts_le (hband : ∀ i j, P.entry i j = true → Pattern.InBand p q i j)
    (j : Fin n) : (P.earlierConflicts j).card ≤ min (j : Nat) (p + q) := by
  have hnear : ∀ k ∈ P.earlierConflicts j, (k : Nat) ∈ Finset.Ico (j - (p + q)) j := by
    intro k hk
    obtain ⟨hlt, hshares⟩ : k < j ∧ P.SharesRow k j := by
      simpa [Pattern.earlierConflicts] using hk
    have hfar := near_of_sharesRow hband hshares
    exact Finset.mem_Ico.mpr ⟨by omega, hlt⟩
  calc
    (P.earlierConflicts j).card ≤ (Finset.Ico ((j : Nat) - (p + q)) j).card :=
      Finset.card_le_card_of_injOn Fin.val hnear (Fin.val_injective.injOn)
    _ = min (j : Nat) (p + q) := by
      rw [Nat.card_Ico]
      omega

theorem IsFirstFit.count_le_band (h : c.IsFirstFit P)
    (hband : ∀ i j, P.entry i j = true → Pattern.InBand p q i j) : c.count ≤ min n (p + q + 1) := by
  refine count_le ?_
  intro j
  have hle := (h.color_le j).trans (card_earlierConflicts_le hband j)
  have hj := j.isLt
  omega

/-- In a full square band all columns less than its width apart share a row. -/
theorem sharesRow_of_fullBand {P : Pattern n n}
    (hband : ∀ i j, P.entry i j = true ↔ Pattern.InBand p q i j) {k j : Fin n} (hk : k < j)
    (hnear : (j : Nat) ≤ k + (p + q)) : P.SharesRow k j := by
  have hlt : (k : Nat) < j := hk
  have hj := j.isLt
  refine ⟨⟨max k (j - q), by omega⟩, (hband _ _).mpr ?_, (hband _ _).mpr ?_⟩
  · simp only [Pattern.InBand]
    omega
  · simp only [Pattern.InBand]
    omega

/-- The colors go round. -/
theorem IsFirstFit.color_fullBand {P : Pattern n n} (h : c.IsFirstFit P)
    (hband : ∀ i j, P.entry i j = true ↔ Pattern.InBand p q i j) (j : Fin n) :
    c.colors.get j = j % (p + q + 1) := by
  induction j using WellFoundedLT.induction with
  | _ j ih =>
    refine (h j).unique ⟨?_, ?_⟩
    · intro k hk hshares heq
      rw [ih k hk] at heq
      have hdvd : p + q + 1 ∣ j - k := (Nat.modEq_iff_dvd' hk.le).mp heq
      have hfar := Nat.le_of_dvd (Nat.sub_pos_of_lt hk) hdvd
      have hnear := near_of_sharesRow (fun i j => (hband i j).mp) hshares
      omega
    · intro color hfree
      by_contra hlt
      have hj := j.isLt
      have hcolor : color < j % (p + q + 1) := not_le.mp hlt
      have hrem : j % (p + q + 1) < p + q + 1 := Nat.mod_lt _ (Nat.succ_pos _)
      have hturn := Nat.div_add_mod j (p + q + 1)
      -- the column of this color in the turn that `j` is in
      let k : Fin n := ⟨(p + q + 1) * (j / (p + q + 1)) + color, by omega⟩
      have hk : k < j := Fin.lt_def.mpr (by dsimp only [k]; omega)
      have hnear : (j : Nat) ≤ k + (p + q) := by
        dsimp only [k]
        omega
      have hturned : (k : Nat) % (p + q + 1) = color := by
        rw [Nat.mul_add_mod, Nat.mod_eq_of_lt (hcolor.trans hrem)]
      exact hfree k hk (sharesRow_of_fullBand hband hk hnear) ((ih k hk).trans hturned)

theorem IsFirstFit.count_fullBand {P : Pattern n n} (h : c.IsFirstFit P)
    (hband : ∀ i j, P.entry i j = true ↔ Pattern.InBand p q i j) : c.count = min n (p + q + 1) := by
  refine le_antisymm (h.count_le_band fun i j => (hband i j).mp) ?_
  cases n with
  | zero => exact Nat.zero_le _
  | succ n =>
    -- the last column of the first turn
    let j : Fin (n + 1) := ⟨min n (p + q), by omega⟩
    have hcolor : c.colors.get j = min n (p + q) := by
      rw [h.color_fullBand hband j]
      exact Nat.mod_eq_of_lt (Nat.lt_succ_of_le (Nat.min_le_right n (p + q)))
    have hlt := hcolor ▸ c.lt_count j
    omega

/-- What first fit gives for a pattern, and for how many colors. -/
structure FirstFitResult (c : Coloring n) (P : Pattern m n) : Prop where
  least : c.IsFirstFit P
  valid : c.Valid P
  colors : ∀ color, color < c.count ↔ ∃ j, c.colors.get j = color
  fullestRow : (Finset.univ.sup fun i => (P.support i).card) ≤ c.count
  conflicts : c.count ≤ 1 + Finset.univ.sup fun j => (P.earlierConflicts j).card
  band : ∀ p q, (∀ i j, P.entry i j = true → Pattern.InBand p q i j) → c.count ≤ min n (p + q + 1)
  fullBand : m = n → ∀ p q, (∀ i j, P.entry i j = true ↔ Pattern.InBand p q i j) →
    c.count = min n (p + q + 1) ∧ ∀ j, c.colors.get j = j % (p + q + 1)

theorem greedy_firstFit (P : Pattern m n) : (greedy P).FirstFitResult P := by
  have h := greedy_isFirstFit P
  constructor
  case least => exact h
  case valid => exact h.valid
  case colors => exact fun color => h.lt_count_iff
  case fullestRow => exact Finset.sup_le fun i _ => h.valid.card_support_le i
  case conflicts => exact h.count_le_earlier
  case band => exact fun p q hband => h.count_le_band hband
  case fullBand =>
    rintro rfl p q hband
    exact ⟨h.count_fullBand hband, h.color_fullBand hband⟩

/-- A full band of width three in seven columns. -/
example : (greedy (Mat.ofFn fun i j => decide (i ≤ j.val + 1 ∧ j ≤ i.val + 1) : Pattern 7 7)).colors =
    #v[0, 1, 2, 0, 1, 2, 0] := by decide

end Coloring

end NewtonSolver
