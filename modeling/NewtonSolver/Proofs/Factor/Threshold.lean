import Mathlib
import NewtonSolver.LinearSolver.Direct
import NewtonSolver.Proofs.Arithmetic.Exact

/-! The singularity test in exact arithmetic. It compares the smallest magnitude on a diagonal with the
largest one, and a diagonal that passes has no zero. -/
namespace NewtonSolver

variable {n : Nat}

/-- The smallest magnitude is at most `size · ε` times the largest one. -/
def Vec.IsNearlySingular (d : Vec ℝ n) (size : Nat) : Prop :=
  ∃ i j, (∀ l, |d.get i| ≤ |d.get l|) ∧ (∀ l, |d.get l| ≤ |d.get j|) ∧
    |d.get i| ≤ (size : ℝ) * Scalar.epsilon * |d.get j|

namespace Exact

theorem epsilon_nonneg : (0 : ℝ) ≤ Scalar.epsilon := div_nonneg zero_le_one (Nat.cast_nonneg _)

/-- What is picked from a list, one element after the other, is the start or is made of an element. -/
theorem foldl_eq_or_exists {α β : Type} {f : β → α → β} {g : α → β}
    (hf : ∀ b x, f b x = b ∨ f b x = g x) (xs : List α) (b : β) :
    xs.foldl f b = b ∨ ∃ x ∈ xs, xs.foldl f b = g x := by
  induction xs generalizing b with
  | nil => exact .inl rfl
  | cons x xs ih =>
    rw [List.foldl_cons]
    rcases ih (f b x) with h | ⟨y, hy, h⟩
    · rcases hf b x with hb | hx
      · exact .inl (h.trans hb)
      · exact .inr ⟨x, List.mem_cons_self, h.trans hx⟩
    · exact .inr ⟨y, List.mem_cons_of_mem x hy, h⟩

theorem exists_get_of_mem {v : Vec ℝ n} {x : ℝ} (hx : x ∈ v.toList) : ∃ i, v.get i = x := by
  obtain ⟨i, hi, rfl⟩ := Vector.mem_iff_getElem.mp (Vector.mem_toList_iff.mp hx)
  exact ⟨⟨i, hi⟩, rfl⟩

theorem le_foldl_atLeast (xs : List ℝ) (a : ℝ) :
    a ≤ xs.foldl (fun m x => Scalar.atLeast m (Scalar.abs x)) a := by
  induction xs generalizing a with
  | nil => exact le_rfl
  | cons x xs ih =>
    have hx : a ≤ Scalar.atLeast a (Scalar.abs x) := by
      rw [atLeast_eq]
      exact le_max_left _ _
    exact hx.trans (ih _)

theorem abs_le_foldl {xs : List ℝ} {x : ℝ} (hx : x ∈ xs) (a : ℝ) :
    |x| ≤ xs.foldl (fun m x => Scalar.atLeast m (Scalar.abs x)) a := by
  induction xs generalizing a with
  | nil => cases hx
  | cons y xs ih =>
    rcases List.mem_cons.mp hx with rfl | hx
    · have hnow : |x| ≤ Scalar.atLeast a (Scalar.abs x) := by
        rw [atLeast_eq]
        exact le_max_right _ _
      exact hnow.trans (le_foldl_atLeast xs _)
    · exact ih hx _

theorem abs_le_maxAbs (v : Vec ℝ n) (i : Fin n) : |v.get i| ≤ v.maxAbs := by
  rw [Vec.maxAbs, ← Vector.foldl_toList]
  exact abs_le_foldl (by simp [Vector.get_eq_getElem]) 0

theorem exists_maxAbs (hn : 0 < n) (v : Vec ℝ n) : ∃ j, v.maxAbs = |v.get j| := by
  have hf (m x : ℝ) : Scalar.atLeast m (Scalar.abs x) = m ∨ Scalar.atLeast m (Scalar.abs x) = |x| := by
    rw [atLeast_eq]
    exact max_choice m _
  have hpick := foldl_eq_or_exists hf v.toList 0
  rw [Vector.foldl_toList, ← Vec.maxAbs] at hpick
  rcases hpick with h0 | ⟨x, hx, h⟩
  · refine ⟨⟨0, hn⟩, le_antisymm ?_ (abs_le_maxAbs v _)⟩
    rw [h0]
    exact abs_nonneg _
  · obtain ⟨j, rfl⟩ := exists_get_of_mem hx
    exact ⟨j, h⟩

theorem maxAbs_single (v : Vec ℝ 1) : v.maxAbs = |v.get 0| := by
  obtain ⟨j, hj⟩ := exists_maxAbs one_pos v
  rw [hj, Subsingleton.elim j 0]

/-- The smaller of what was seen and a magnitude. -/
noncomputable def lesser (seen : Option ℝ) (x : ℝ) : Option ℝ :=
  some <| match seen with
    | none => |x|
    | some m => min m |x|

theorem lesser_eq (seen : Option ℝ) (x : ℝ) : lesser seen x = seen ∨ lesser seen x = some |x| := by
  cases seen with
  | none => exact .inr rfl
  | some m =>
    rcases min_choice m |x| with h | h
    · exact .inl (congrArg some h)
    · exact .inr (congrArg some h)

theorem minAbs?_eq (v : Vec ℝ n) : v.minAbs? = v.toList.foldl lesser none := by
  rw [Vec.minAbs?, ← Vector.foldl_toList]
  congr 1
  funext seen x
  cases seen with
  | none => rfl
  | some m => exact congrArg some (atMost_eq m _)

/-- A running bound stays below all that it has seen. -/
theorem foldl_lesser_le {xs : List ℝ} {seen : Option ℝ} {least : ℝ}
    (h : xs.foldl lesser seen = some least) :
    (∀ a, seen = some a → least ≤ a) ∧ ∀ x ∈ xs, least ≤ |x| := by
  induction xs generalizing seen with
  | nil =>
    refine ⟨?_, by simp⟩
    rintro a rfl
    cases h
    exact le_rfl
  | cons x xs ih =>
    obtain ⟨hnow, hxs⟩ := ih h
    cases seen with
    | none => exact ⟨nofun, by simpa using ⟨hnow _ rfl, hxs⟩⟩
    | some m =>
      have hx : least ≤ min m |x| := hnow _ rfl
      refine ⟨?_, by simpa using ⟨hx.trans (min_le_right _ _), hxs⟩⟩
      rintro a ⟨⟩
      exact hx.trans (min_le_left _ _)

theorem minAbs?_le {v : Vec ℝ n} {least : ℝ} (h : v.minAbs? = some least) (i : Fin n) :
    least ≤ |v.get i| := by
  rw [minAbs?_eq] at h
  exact (foldl_lesser_le h).2 _ (by simp [Vector.get_eq_getElem])

theorem exists_minAbs? (hn : 0 < n) (v : Vec ℝ n) : ∃ i, v.minAbs? = some |v.get i| := by
  obtain ⟨x, xs, hxs⟩ : ∃ x xs, v.toList = x :: xs := by
    refine List.exists_cons_of_length_pos ?_
    rwa [Vector.length_toList]
  rw [minAbs?_eq, hxs, List.foldl_cons]
  rcases foldl_eq_or_exists lesser_eq xs (lesser none x) with h | ⟨y, hy, h⟩
  · obtain ⟨i, hi⟩ := exists_get_of_mem (v := v) (x := x) (hxs ▸ List.mem_cons_self)
    exact ⟨i, hi ▸ h⟩
  · obtain ⟨i, hi⟩ := exists_get_of_mem (v := v) (x := y) (hxs ▸ List.mem_cons_of_mem x hy)
    exact ⟨i, hi ▸ h⟩

variable {d : Vec ℝ n} {size : Nat}

/-- A zero is small beside everything. -/
theorem isNearlySingular_of_eq_zero {i : Fin n} (hi : d.get i = 0) (size : Nat) :
    d.IsNearlySingular size := by
  obtain ⟨j, hj⟩ := exists_maxAbs i.pos d
  refine ⟨i, j, ?_, fun l => hj ▸ abs_le_maxAbs d l, ?_⟩
  · intro l
    rw [hi, abs_zero]
    exact abs_nonneg _
  · rw [hi, abs_zero]
    exact mul_nonneg (mul_nonneg (Nat.cast_nonneg _) epsilon_nonneg) (abs_nonneg _)

theorem isSingularDiagonal_iff (hn : 0 < n) (d : Vec ℝ n) (size : Nat) :
    Direct.isSingularDiagonal d size = true ↔ d.IsNearlySingular size := by
  obtain ⟨j, hj⟩ := exists_maxAbs hn d
  obtain ⟨i, hi⟩ := exists_minAbs? hn d
  have hmax (l : Fin n) : |d.get l| ≤ |d.get j| := hj ▸ abs_le_maxAbs d l
  have hmin (l : Fin n) : |d.get i| ≤ |d.get l| := minAbs?_le hi l
  simp only [Direct.isSingularDiagonal, allFinite_vec, if_true, hi, hj]
  by_cases h0 : |d.get j| = 0
  · have hzero : d.get i = 0 := abs_nonpos_iff.mp (h0 ▸ hmin j)
    exact iff_of_true (by simp [h0]) (isNearlySingular_of_eq_zero hzero size)
  · simp only [beq_eq, h0, if_false, decide_eq_true_eq]
    constructor
    · intro h
      exact ⟨i, j, hmin, hmax, h⟩
    · rintro ⟨i', j', hi', hj', h⟩
      have hleast : |d.get i| = |d.get i'| := le_antisymm (hmin i') (hi' i)
      have hlargest : |d.get j| = |d.get j'| := le_antisymm (hj' j) (hmax j')
      rwa [hleast, hlargest]

theorem isSingularDiagonal_eq_false_iff (hn : 0 < n) (d : Vec ℝ n) (size : Nat) :
    Direct.isSingularDiagonal d size = false ↔ ¬ d.IsNearlySingular size := by
  rw [← isSingularDiagonal_iff hn, Bool.not_eq_true]

/-- An empty diagonal does not pass. -/
theorem pos_of_not_singular (h : Direct.isSingularDiagonal d size = false) : 0 < n := by
  refine Nat.pos_of_ne_zero ?_
  rintro rfl
  have hmax : d.maxAbs = 0 := by
    obtain rfl : d = #v[] := Vec.ext_get nofun
    rfl
  simp [Direct.isSingularDiagonal, hmax] at h

/-- A diagonal that passes the singularity test has no zero. -/
theorem ne_zero_of_not_singular (h : Direct.isSingularDiagonal d size = false) (i : Fin n) :
    d.get i ≠ 0 := by
  intro hi
  exact (isSingularDiagonal_eq_false_iff i.pos d size).mp h (isNearlySingular_of_eq_zero hi size)

/-- A single magnitude above zero passes. -/
theorem isSingularDiagonal_one {A : Mat ℝ 1 1} (hA : A.entry 0 0 ≠ 0)
    (hsize : (size : ℝ) * Scalar.epsilon < 1) :
    Direct.isSingularDiagonal A.diagonal size = false := by
  rw [isSingularDiagonal_eq_false_iff one_pos]
  rintro ⟨i, j, -, -, h⟩
  have hd : A.diagonal.get 0 = A.entry 0 0 := Vector.get_ofFn _ 0
  rw [Subsingleton.elim i 0, Subsingleton.elim j 0, hd] at h
  exact absurd h (not_le.mpr (mul_lt_of_lt_one_left (abs_pos.mpr hA) hsize))

end Exact

end NewtonSolver
