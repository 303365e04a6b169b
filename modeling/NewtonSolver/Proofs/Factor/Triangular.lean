import Mathlib
import NewtonSolver.Factor.Elimination
import NewtonSolver.Proofs.Arithmetic.Linear

/-! Substitution solves triangular systems exactly, unless a diagonal entry is zero. -/
namespace NewtonSolver

variable {n : Nat} {A : Mat ℝ n n} {b x : Vec ℝ n} {i j : Fin n}

theorem foldl_sub {ι : Type} (f : ι → ℝ) (known : List ι) (r : ℝ) :
    known.foldl (fun r k => r - f k) r = r - (known.map f).sum := by
  induction known generalizing r with
  | nil => simp
  | cons k known ih => simp [ih, sub_sub]

namespace Vec

variable {α : Type}

theorem get_put (v : Vec α n) (i j : Fin n) (a : α) :
    (v.put i a).get j = if j = i then a else v.get j := by
  simp [put, Vector.get_eq_getElem, Vector.getElem_set, Fin.ext_iff, eq_comm]

end Vec

namespace Mat

/-- No entry is above the diagonal. -/
def IsLower (A : Mat ℝ n n) : Prop := ∀ i j, i < j → A.entry i j = 0

/-- No entry is below the diagonal. -/
def IsUpper (A : Mat ℝ n n) : Prop := ∀ i j, j < i → A.entry i j = 0

theorem IsUpper.transpose (hA : A.IsUpper) : A.transpose.IsLower := by
  intro i j hij
  rw [entry_transpose]
  exact hA j i hij

theorem remainder_eq (known : List (Fin n)) :
    A.remainder b x i known = b.get i - (known.map fun j => A.entry i j * x.get j).sum := by
  rw [remainder, foldl_sub]

theorem remainder_congr {y : Vec ℝ n} {known : List (Fin n)} (h : ∀ j ∈ known, x.get j = y.get j) :
    A.remainder b x i known = A.remainder b y i known := by
  have hmap : (known.map fun j => A.entry i j * x.get j) = known.map fun j => A.entry i j * y.get j :=
    List.map_congr_left fun j hj => by rw [h j hj]
  rw [remainder_eq, remainder_eq, hmap]

/-- Puts in one unknown after the other, each from those known to it. -/
noncomputable def substitute (A : Mat ℝ n n) (b : Vec ℝ n) (known : Fin n → List (Fin n))
    (order : List (Fin n)) (x : Vec ℝ n) : Vec ℝ n :=
  order.foldl (fun x i => x.put i (A.remainder b x i (known i) / A.entry i i)) x

variable {known : Fin n → List (Fin n)} {order : List (Fin n)}

theorem substitute_get_of_notMem (hj : j ∉ order) :
    (A.substitute b known order x).get j = x.get j := by
  induction order generalizing x with
  | nil => rfl
  | cons i order ih =>
    simp only [List.mem_cons, not_or] at hj
    rw [substitute, List.foldl_cons, ← substitute, ih hj.2, Vec.get_put, if_neg hj.1]

/-- An unknown that was put in stays, and so do those it was computed from, where nothing known to it is
put in later. The induction is on the order. -/
theorem substitute_get (hself : ∀ i, i ∉ known i)
    (hlater : order.Pairwise fun i j => j ≠ i ∧ j ∉ known i) (hi : i ∈ order) :
    (A.substitute b known order x).get i =
      A.remainder b (A.substitute b known order x) i (known i) / A.entry i i := by
  induction order generalizing x with
  | nil => cases hi
  | cons k order ih =>
    obtain ⟨hk, hlater⟩ := List.pairwise_cons.mp hlater
    rw [substitute, List.foldl_cons, ← substitute]
    rcases List.mem_cons.mp hi with rfl | hi
    · have hkeep : ∀ j ∈ known i, (A.substitute b known order
          (x.put i (A.remainder b x i (known i) / A.entry i i))).get j = x.get j := by
        intro j hj
        have hji : j ≠ i := fun h => hself i (h ▸ hj)
        rw [substitute_get_of_notMem (fun h => (hk j h).2 hj), Vec.get_put, if_neg hji]
      rw [substitute_get_of_notMem (fun h => (hk i h).1 rfl), Vec.get_put, if_pos rfl,
        remainder_congr hkeep]
    · exact ih hlater hi

/-- An equation holds once its own unknown is put in, where the coefficients of all that was not known
are zero. -/
theorem mulVec_get_of_remainder (hd : A.entry i i ≠ 0) (hself : i ∉ known i) (hnd : (known i).Nodup)
    (hzero : ∀ j, j ≠ i → j ∉ known i → A.entry i j = 0)
    (hx : x.get i = A.remainder b x i (known i) / A.entry i i) : (A.mulVec x).get i = b.get i := by
  have hknown : ((known i).map fun j => A.entry i j * x.get j).sum =
      ∑ j ∈ (known i).toFinset, A.entry i j * x.get j := (List.sum_toFinset _ hnd).symm
  have hall : ∑ j, A.entry i j * x.get j =
      ∑ j ∈ insert i (known i).toFinset, A.entry i j * x.get j := by
    refine (Finset.sum_subset (Finset.subset_univ _) ?_).symm
    intro j _ hj
    simp only [Finset.mem_insert, List.mem_toFinset, not_or] at hj
    rw [hzero j hj.1 hj.2, zero_mul]
  rw [Exact.mulVec_get, hall, Finset.sum_insert (by simpa using hself), ← hknown, hx, remainder_eq]
  field_simp
  ring

/-- Substitution in an order in which every unknown comes after those known to it. -/
theorem mulVec_substitute (known : Fin n → List (Fin n)) (hd : ∀ i, A.entry i i ≠ 0)
    (hself : ∀ i, i ∉ known i) (hnd : ∀ i, (known i).Nodup)
    (hzero : ∀ i j, j ≠ i → j ∉ known i → A.entry i j = 0)
    (hlater : order.Pairwise fun i j => j ≠ i ∧ j ∉ known i) (hall : ∀ i, i ∈ order) :
    A.mulVec (A.substitute b known order x) = b :=
  Vec.ext_get fun i => mulVec_get_of_remainder (hd i) (hself i) (hnd i) (hzero i)
    (substitute_get hself hlater (hall i))

theorem mulVec_solveLower (hA : A.IsLower) (hd : ∀ i, A.entry i i ≠ 0) (b : Vec ℝ n) :
    A.mulVec (A.solveLower b) = b := by
  refine mulVec_substitute (fun i => (List.finRange n).filter (· < i)) hd (by simp)
    (fun i => (List.nodup_finRange n).filter _) ?_ ?_ (List.mem_finRange)
  · intro i j hji hj
    exact hA i j (lt_of_le_of_ne (by simpa using hj) hji.symm)
  · refine (List.pairwise_lt_finRange n).imp ?_
    intro i j hij
    exact ⟨hij.ne', by simpa using hij.le⟩

theorem mulVec_solveUpper (hA : A.IsUpper) (hd : ∀ i, A.entry i i ≠ 0) (b : Vec ℝ n) :
    A.mulVec (A.solveUpper b) = b := by
  refine mulVec_substitute (fun i => (List.finRange n).reverse.filter (i < ·)) hd (by simp)
    (fun i => (List.nodup_reverse.mpr (List.nodup_finRange n)).filter _) ?_ ?_ (by simp)
  · intro i j hji hj
    exact hA i j (lt_of_le_of_ne (by simpa using hj) hji)
  · refine (List.pairwise_reverse.mpr (List.pairwise_lt_finRange n)).imp ?_
    intro i j hij
    exact ⟨hij.ne, by simpa using hij.le⟩

end Mat

end NewtonSolver
