import NewtonSolver.Proofs.Arithmetic.Magnitude
import NewtonSolver.Proofs.Entries

/-! Norms of double precision vectors. One entry that is no number makes the norm no number; without
one, the norm is a magnitude, and an infinite entry makes it infinite. -/
namespace NewtonSolver.Double

variable {n : Nat} {u v : Vec Float n} {xs : List Float} {a x : Float}

theorem foldl_nonneg (hx : ∀ x ∈ xs, (0 : Float) ≤ x) (ha : (0 : Float) ≤ a) :
    (0 : Float) ≤ xs.foldl (· + ·) a := by
  induction xs generalizing a with
  | nil => exact ha
  | cons x xs ih =>
    have hs : (0 : Float) ≤ a + x := add_nonneg ha (hx x (by simp))
    exact ih (fun y hy => hx y (by simp [hy])) hs

theorem foldl_notANumber (h : parts a = .notANumber ∨ ∃ x ∈ xs, parts x = .notANumber) :
    parts (xs.foldl (· + ·) a) = .notANumber := by
  induction xs generalizing a with
  | nil => simpa using h
  | cons x xs ih =>
    refine ih ?_
    rcases h with h | ⟨y, hy, h⟩
    · exact .inl (add_notANumber (.inl h))
    · rcases List.mem_cons.mp hy with rfl | hy
      · exact .inl (add_notANumber (.inr h))
      · exact .inr ⟨y, hy, h⟩

theorem foldl_infinite (hx : ∀ x ∈ xs, (0 : Float) ≤ x) (ha : (0 : Float) ≤ a)
    (h : parts a = .infinity .positive ∨ ∃ x ∈ xs, parts x = .infinity .positive) :
    parts (xs.foldl (· + ·) a) = .infinity .positive := by
  induction xs generalizing a with
  | nil => simpa using h
  | cons x xs ih =>
    have hx0 : (0 : Float) ≤ x := hx x (by simp)
    refine ih (fun y hy => hx y (by simp [hy])) (add_nonneg ha hx0) ?_
    rcases h with h | ⟨y, hy, h⟩
    · exact .inl (add_infinite ha hx0 (.inl h))
    · rcases List.mem_cons.mp hy with rfl | hy
      · exact .inl (add_infinite ha hx0 (.inr h))
      · exact .inr ⟨y, hy, h⟩

/-- Every entry is a number, which may be infinite. -/
def AllNumbers (v : Vec Float n) : Prop := ∀ x ∈ v, x.isNaN = false

theorem AllNumbers.ne (hv : AllNumbers v) (hx : x ∈ v) : parts x ≠ .notANumber := by
  intro h
  have hn := hv x hx
  rw [isNaN_iff.mpr h] at hn
  cases hn

theorem allNumbers_of_finite (hv : v.allFinite = true) : AllNumbers v := by
  intro x hx
  obtain ⟨i, hi, rfl⟩ := Vector.mem_iff_getElem.mp hx
  have hfin : v[i].isFinite = true := Vector.all_eq_true.mp hv i hi
  rw [← Bool.not_eq_true, isNaN_iff]
  exact number_of_finite hfin

theorem squares_nonneg (hv : AllNumbers v) : ∀ x ∈ v.toList.map fun a => a * a, (0 : Float) ≤ x := by
  intro x hx
  obtain ⟨y, hy, rfl⟩ := List.mem_map.mp hx
  exact mul_self_nonneg (hv.ne (Vector.mem_toList_iff.mp hy))

theorem sumSquares_nonneg (hv : AllNumbers v) : (0 : Float) ≤ v.sumSquares := by
  rw [Vec.sumSquares_eq_foldl]
  exact foldl_nonneg (squares_nonneg hv) (by decide)

theorem norm_nonneg (hv : AllNumbers v) : (0 : Float) ≤ v.norm := sqrt_nonneg (sumSquares_nonneg hv)

theorem norm_notANumber (hv : ¬ AllNumbers v) : parts v.norm = .notANumber := by
  refine sqrt_notANumber ?_
  rw [Vec.sumSquares_eq_foldl]
  refine foldl_notANumber (.inr ?_)
  obtain ⟨x, hx, hn⟩ : ∃ x ∈ v, x.isNaN = true := by
    simpa [AllNumbers] using hv
  exact ⟨x * x, List.mem_map.mpr ⟨x, Vector.mem_toList_iff.mpr hx, rfl⟩,
    mul_notANumber (isNaN_iff.mp hn)⟩

theorem norm_infinite (hv : AllNumbers v) (hf : v.allFinite = false) :
    parts v.norm = .infinity .positive := by
  refine sqrt_infinite ?_
  rw [Vec.sumSquares_eq_foldl]
  refine foldl_infinite (squares_nonneg hv) (by decide) (.inr ?_)
  obtain ⟨i, hi, hn⟩ := Vector.all_eq_false.mp hf
  have hmem : v[i] ∈ v := Vector.getElem_mem hi
  obtain ⟨s, hs⟩ := (isFinite_eq_false (hv.ne hmem)).mp (Bool.not_eq_true _ ▸ hn)
  exact ⟨v[i] * v[i], List.mem_map.mpr ⟨v[i], Vector.mem_toList_iff.mpr hmem, rfl⟩,
    mul_self_infinite hs⟩

theorem norm_neg (v : Vec Float n) : (-v).norm = v.norm := by
  have hsq : (-v).zipWith (· * ·) (-v) = v.zipWith (· * ·) v := by
    ext i hi
    simp [neg_mul_neg]
  simp only [Vec.norm, Vec.sumSquares, Vec.dot, hsq]

theorem sub_neg_vec (u v : Vec Float n) : u - -v = u + v := by
  ext i hi
  simp [sub_neg]

end NewtonSolver.Double
