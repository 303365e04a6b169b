import Mathlib
import NewtonSolver.Proofs.Factor.Elimination

/-! Reflections in exact arithmetic: a matrix with no fewer rows than columns gets orthonormal columns and
an upper factor whose product it is. -/
namespace NewtonSolver

variable {m n : Nat}

namespace Exact

theorem dot_sub_right (u v w : Vec ℝ n) : Vec.dot u (v - w) = Vec.dot u v - Vec.dot u w := by
  simp only [dot_eq_sum, Vec.get_sub, mul_sub, Finset.sum_sub_distrib]

theorem dot_unit_left (i : Fin n) (v : Vec ℝ n) : Vec.dot (Vec.unit i) v = v.get i := by
  simp [dot_eq_sum]

end Exact

namespace Reflector

variable {h : Reflector ℝ m} {x : Vec ℝ m} {k : Fin m} {image : ℝ}

/-- The scale is the one that keeps lengths, unless nothing is reflected. -/
def IsReflection (h : Reflector ℝ m) : Prop :=
  h.scale * h.scale * h.normal.sumSquares = h.scale + h.scale

theorem get_apply (h : Reflector ℝ m) (x : Vec ℝ m) (i : Fin m) :
    (h.apply x).get i = x.get i - h.scale * Vec.dot h.normal x * h.normal.get i := by
  simp [apply]

theorem dot_apply (h : Reflector ℝ m) (u x : Vec ℝ m) :
    Vec.dot u (h.apply x) =
      Vec.dot u x - h.scale * Vec.dot h.normal x * Vec.dot u h.normal := by
  rw [apply, Exact.dot_sub_right, Exact.dot_scale_right]

theorem dot_apply_comm (h : Reflector ℝ m) (u x : Vec ℝ m) :
    Vec.dot u (h.apply x) = Vec.dot (h.apply u) x := by
  rw [Exact.dot_comm (h.apply u), dot_apply, dot_apply, Exact.dot_comm u x, Exact.dot_comm u h.normal,
    Exact.dot_comm x h.normal]
  ring

theorem IsReflection.apply_apply (hr : h.IsReflection) (x : Vec ℝ m) :
    h.apply (h.apply x) = x := by
  refine Vec.ext_get ?_
  intro i
  have hr : h.scale * h.scale * Vec.dot h.normal h.normal = h.scale + h.scale := hr
  rw [get_apply, get_apply, dot_apply]
  linear_combination (Vec.dot h.normal x * h.normal.get i) * hr

theorem IsReflection.dot_apply_apply (hr : h.IsReflection) (x y : Vec ℝ m) :
    Vec.dot (h.apply x) (h.apply y) = Vec.dot x y := by
  rw [← dot_apply_comm, hr.apply_apply]

theorem apply_eq_self (hx : Vec.dot h.normal x = 0) : h.apply x = x := by
  refine Vec.ext_get ?_
  intro i
  rw [get_apply, hx]
  ring

/-- A reflection that leaves the entries before entry `k`, makes that one the image, and clears the
rest. -/
structure Clears (h : Reflector ℝ m) (x : Vec ℝ m) (k : Fin m) (image : ℝ) : Prop where
  isReflection : h.IsReflection
  normal_eq_zero : ∀ i, i < k → h.normal.get i = 0
  get_apply : ∀ i, (h.apply x).get i = if i < k then x.get i else if i = k then image else 0

/-- The entries that a reflection is to clear. -/
noncomputable def rest (x : Vec ℝ m) (k : Fin m) : Vec ℝ m :=
  Vector.ofFn fun i => if k < i then x.get i else 0

/-- The reflection that takes a vector to one of the same length from entry `k` on. -/
noncomputable def onto (x : Vec ℝ m) (k : Fin m) (image : ℝ) : Reflector ℝ m :=
  ⟨Vector.ofFn fun i => if i = k then 1 else if k < i then x.get i / (x.get k - image) else 0,
    (image - x.get k) / image⟩

theorem onto_scale (x : Vec ℝ m) (k : Fin m) (image : ℝ) :
    (onto x k image).scale = (image - x.get k) / image := rfl

theorem dot_rest_self (x : Vec ℝ m) (k : Fin m) :
    Vec.dot (rest x k) x = (rest x k).sumSquares := by
  rw [Vec.sumSquares, Exact.dot_eq_sum, Exact.dot_eq_sum]
  refine Finset.sum_congr rfl ?_
  intro i _
  by_cases hi : k < i <;> simp [rest, hi]

theorem dot_onto (x y : Vec ℝ m) (k : Fin m) (image : ℝ) :
    Vec.dot (onto x k image).normal y = y.get k + Vec.dot (rest x k) y / (x.get k - image) := by
  have hterm (i : Fin m) : (onto x k image).normal.get i * y.get i =
      (if i = k then y.get k else 0) + (rest x k).get i * y.get i / (x.get k - image) := by
    rcases lt_trichotomy i k with hi | rfl | hi
    · simp [onto, rest, hi.ne, not_lt.mpr hi.le]
    · simp [onto, rest]
    · simp [onto, rest, hi, hi.ne', div_mul_eq_mul_div]
  rw [Exact.dot_eq_sum, Exact.dot_eq_sum, Finset.sum_congr rfl fun i _ => hterm i,
    Finset.sum_add_distrib, Finset.sum_ite_eq', if_pos (Finset.mem_univ k), Finset.sum_div]

section Onto

variable (hs : (rest x k).sumSquares ≠ 0)
  (hc : image * image = x.get k * x.get k + (rest x k).sumSquares)

include hs hc

theorem get_sub_image_ne_zero : x.get k - image ≠ 0 := by
  intro h
  have heq : x.get k = image := sub_eq_zero.mp h
  exact hs (by linear_combination -hc - (x.get k + image) * heq)

theorem image_ne_zero : image ≠ 0 := by
  have hpos : 0 < (rest x k).sumSquares := (Exact.sumSquares_nonneg _).lt_of_ne' hs
  rintro rfl
  linarith [mul_self_nonneg (x.get k)]

theorem onto_isReflection : (onto x k image).IsReflection := by
  have hne := get_sub_image_ne_zero hs hc
  have himage := image_ne_zero hs hc
  have hfirst : (onto x k image).normal.get k = 1 := by simp [onto]
  have hrest : (rest x k).get k = 0 := by simp [rest]
  have hsquares : (onto x k image).normal.sumSquares =
      1 + (rest x k).sumSquares / (x.get k - image) / (x.get k - image) := by
    rw [Vec.sumSquares, dot_onto, hfirst, Exact.dot_comm, dot_onto, hrest, zero_add, Vec.sumSquares]
  have hsize : (rest x k).sumSquares = image * image - x.get k * x.get k := by linear_combination -hc
  rw [IsReflection, hsquares, onto_scale, hsize]
  field_simp
  ring

theorem onto_clears : (onto x k image).Clears x k image := by
  have hne := get_sub_image_ne_zero hs hc
  have himage := image_ne_zero hs hc
  have hdot : Vec.dot (onto x k image).normal x = -image := by
    rw [dot_onto, dot_rest_self]
    field_simp
    linear_combination -hc
  have hscale : (onto x k image).scale * -image = x.get k - image := by
    rw [onto_scale]
    field_simp
    ring
  refine ⟨onto_isReflection hs hc, ?_, ?_⟩
  · intro i hi
    simp [onto, hi.ne, not_lt.mpr hi.le]
  · intro i
    rw [get_apply, hdot, hscale]
    rcases lt_trichotomy i k with hi | rfl | hi
    · simp [onto, hi, hi.ne, not_lt.mpr hi.le]
    · simp [onto]
    · simp [onto, hi, hi.ne', not_lt.mpr hi.le, mul_div_cancel₀ _ hne]

end Onto

/-- The image has the length of what is reflected, and the sign that keeps the two apart. -/
theorem clearing_eq_onto (hs : (rest x k).norm ≠ 0) :
    ∃ image, image * image = x.get k * x.get k + (rest x k).sumSquares ∧
      clearing x k = (onto x k image, image) := by
  have hsize : (rest x k).norm * (rest x k).norm = (rest x k).sumSquares :=
    Real.mul_self_sqrt (Exact.sumSquares_nonneg _)
  have hlength : Scalar.sqrt (x.get k * x.get k + (rest x k).norm * (rest x k).norm) *
      Scalar.sqrt (x.get k * x.get k + (rest x k).norm * (rest x k).norm) =
        x.get k * x.get k + (rest x k).sumSquares := by
    rw [← hsize]
    exact Real.mul_self_sqrt (add_nonneg (mul_self_nonneg _) (mul_self_nonneg _))
  refine ⟨_, ?_, if_neg fun h => hs (Exact.beq_eq.mp h)⟩
  split
  · exact hlength
  · exact (neg_mul_neg _ _).trans hlength

theorem clearing_clears (x : Vec ℝ m) (k : Fin m) :
    (clearing x k).1.Clears x k (clearing x k).2 := by
  by_cases hs : (rest x k).norm = 0
  · have hrest : rest x k = 0 :=
      Exact.sumSquares_eq_zero.mp ((Real.sqrt_eq_zero (Exact.sumSquares_nonneg _)).mp hs)
    have hclear : clearing x k = (⟨Vec.unit k, 0⟩, x.get k) := if_pos (Exact.beq_eq.mpr hs)
    rw [hclear]
    refine ⟨by simp [IsReflection], ?_, ?_⟩
    · intro i hi
      simp [hi.ne]
    · intro i
      rcases lt_trichotomy i k with hi | rfl | hi
      · simp [get_apply, hi]
      · simp [get_apply]
      · have hzero := congrArg (fun v : Vec ℝ m => v.get i) hrest
        simpa [get_apply, rest, hi, hi.ne', not_lt.mpr hi.le] using hzero
  · obtain ⟨image, himage, hclear⟩ := clearing_eq_onto hs
    rw [hclear]
    refine onto_clears ?_ himage
    intro hzero
    exact hs ((Real.sqrt_eq_zero (Exact.sumSquares_nonneg _)).mpr hzero)

end Reflector

namespace QR

/-- The reflections in turn, the last one first. -/
noncomputable def undo (reflectors : List (Reflector ℝ m)) (x : Vec ℝ m) : Vec ℝ m :=
  reflectors.foldl (fun x reflector => reflector.apply x) x

variable {reflectors : List (Reflector ℝ m)} {A : Mat ℝ m n} {s : Reduction ℝ m n} {k : Fin n}

theorem undo_cons (h : Reflector ℝ m) (x : Vec ℝ m) :
    undo (h :: reflectors) x = undo reflectors (h.apply x) := rfl

theorem dot_undo_undo (hr : ∀ h ∈ reflectors, h.IsReflection) (x y : Vec ℝ m) :
    Vec.dot (undo reflectors x) (undo reflectors y) = Vec.dot x y := by
  induction reflectors generalizing x y with
  | nil => rfl
  | cons h reflectors ih =>
    obtain ⟨hh, hr⟩ := List.forall_mem_cons.mp hr
    rw [undo_cons, undo_cons, ih hr, hh.dot_apply_apply]

/-- A product with the image is one with the argument, so that the reflections are linear. -/
theorem exists_dot_undo (reflectors : List (Reflector ℝ m)) (w : Vec ℝ m) :
    ∃ u, ∀ x, Vec.dot w (undo reflectors x) = Vec.dot u x := by
  induction reflectors with
  | nil => exact ⟨w, fun x => rfl⟩
  | cons h reflectors ih =>
    obtain ⟨u, hu⟩ := ih
    refine ⟨h.apply u, ?_⟩
    intro x
    rw [undo_cons, hu, h.dot_apply_comm]

/-- The entries of an image, by those of the images of unit vectors. -/
theorem get_undo (reflectors : List (Reflector ℝ m)) (x : Vec ℝ m) (i : Fin m) :
    (undo reflectors x).get i = ∑ l, (undo reflectors (Vec.unit l)).get i * x.get l := by
  obtain ⟨u, hu⟩ := exists_dot_undo reflectors (Vec.unit i)
  simp only [Exact.dot_unit_left] at hu
  rw [hu, Exact.dot_eq_sum]
  refine Finset.sum_congr rfl ?_
  intro l _
  rw [hu, Exact.dot_comm, Exact.dot_unit_left]

/-- The columns so far are those of the matrix, reflected, and those that are done are cleared. -/
structure Reduction.IsExact (A : Mat ℝ m n) (done : Nat) (s : Reduction ℝ m n) : Prop where
  isReflection : ∀ h ∈ s.reflectors, h.IsReflection
  column : ∀ j, undo s.reflectors (s.columns.get j) = A.transpose.get j
  cleared : ∀ j : Fin n, j < done → ∀ i : Fin m, j.val < i → (s.columns.get j).get i = 0

section Step

variable (hk : k.val < m) (hs : s.IsExact A k) {j : Fin n}

theorem step_reflectors (s : Reduction ℝ m n) :
    (s.step k).reflectors = (Reflector.clearing (s.columns.get k) ⟨k, hk⟩).1 :: s.reflectors := by
  simp [Reduction.step, hk]

include hs

/-- The columns that are done have nothing where the reflection acts. -/
theorem clearing_apply_done (hj : j < k) :
    (Reflector.clearing (s.columns.get k) ⟨k, hk⟩).1.apply (s.columns.get j) = s.columns.get j := by
  have hclears := Reflector.clearing_clears (s.columns.get k) ⟨k, hk⟩
  refine Reflector.apply_eq_self ?_
  rw [Exact.dot_eq_sum]
  refine Finset.sum_eq_zero ?_
  intro i _
  rcases lt_or_ge i.val k.val with hi | hi
  · rw [hclears.normal_eq_zero i hi, zero_mul]
  · rw [hs.cleared j hj i (Nat.lt_of_lt_of_le hj hi), mul_zero]

theorem step_columns (j : Fin n) :
    (s.step k).columns.get j =
      (Reflector.clearing (s.columns.get k) ⟨k, hk⟩).1.apply (s.columns.get j) := by
  have hclears := Reflector.clearing_clears (s.columns.get k) ⟨k, hk⟩
  rcases lt_trichotomy j k with hj | rfl | hj
  · rw [clearing_apply_done hk hs hj]
    simp [Reduction.step, hk, hj]
  · refine Vec.ext_get ?_
    intro i
    rw [hclears.get_apply]
    simp [Reduction.step, hk]
  · simp [Reduction.step, hk, hj.ne', not_lt.mpr hj.le]

end Step

theorem Reduction.IsExact.step (hs : s.IsExact A k) (hk : k.val < m) :
    (s.step k).IsExact A (k.val + 1) := by
  have hclears := Reflector.clearing_clears (s.columns.get k) ⟨k, hk⟩
  refine ⟨?_, ?_, ?_⟩
  · rw [step_reflectors hk]
    exact List.forall_mem_cons.mpr ⟨hclears.isReflection, hs.isReflection⟩
  · intro j
    rw [step_reflectors hk, undo_cons, step_columns hk hs, hclears.isReflection.apply_apply,
      hs.column]
  · intro j hj i hi
    rw [step_columns hk hs]
    rcases Nat.lt_succ_iff_lt_or_eq.mp hj with hj | hj
    · rw [clearing_apply_done hk hs hj, hs.cleared j hj i hi]
    · obtain rfl := Fin.ext hj
      have hi : (⟨j, hk⟩ : Fin m) < i := hi
      rw [hclears.get_apply, if_neg (not_lt.mpr hi.le), if_neg hi.ne']

theorem reduce_isExact (hmn : n ≤ m) (A : Mat ℝ m n) : (reduce A).IsExact A n := by
  refine foldl_finRange (fun k s hs => hs.step (k.isLt.trans_le hmn)) ⟨?_, ?_, ?_⟩
  · simp
  · intro j
    rfl
  · simp

section Factors

variable (hmn : n ≤ m) (A : Mat ℝ m n) (i j : Fin n) (l : Fin m)

include hmn

theorem factorize_q_entry :
    (factorize A).q.entry l j = (undo (reduce A).reflectors (Vec.unit (j.castLE hmn))).get l := by
  have hj : j.val < m := j.isLt.trans_le hmn
  simp only [factorize, Mat.entry_ofColumns, Vector.get_ofFn, dif_pos hj]
  rfl

/-- What is below the diagonal is cleared. -/
theorem factorize_r_entry :
    (factorize A).r.entry i j = ((reduce A).columns.get j).get (i.castLE hmn) := by
  have hi : i.val < m := i.isLt.trans_le hmn
  simp only [factorize, Mat.entry_ofFn]
  split
  · simp [Vector.get_eq_getElem, hi]
  · next hij =>
    exact ((reduce_isExact hmn A).cleared j j.isLt _ (not_le.mp hij)).symm

/-- Entries after the last column are cleared, so that the rows of the second factor are all there is. -/
theorem factorize_product :
    ((factorize A).q.mul (factorize A).r).entry l j =
      (undo (reduce A).reflectors ((reduce A).columns.get j)).get l := by
  have hcleared : ∀ i ∉ Set.range (Fin.castLE hmn),
      (undo (reduce A).reflectors (Vec.unit i)).get l * ((reduce A).columns.get j).get i = 0 := by
    intro i hi
    have hin : n ≤ i.val := by
      by_contra hlt
      exact hi ⟨⟨i, not_le.mp hlt⟩, rfl⟩
    rw [(reduce_isExact hmn A).cleared j j.isLt i (j.isLt.trans_le hin), mul_zero]
  simp only [Exact.entry_mul, factorize_q_entry hmn, factorize_r_entry hmn]
  rw [get_undo, Fintype.sum_of_injective _ (Fin.castLE_injective hmn) _ _ hcleared fun i => rfl]

end Factors

theorem factorize_isExact (hmn : n ≤ m) (A : Mat ℝ m n) : (factorize A).IsExact A := by
  have hdone := reduce_isExact hmn A
  refine ⟨Mat.ext_entry ?_, ?_, Mat.ext_entry ?_⟩
  · intro i j
    simp only [Exact.entry_mul, Mat.entry_transpose, factorize_q_entry hmn]
    rw [← Exact.dot_eq_sum, dot_undo_undo hdone.isReflection, Exact.dot_unit_left, Vec.get_unit]
    simp [Mat.identity, Fin.castLE_inj]
  · intro i j hij
    simp [factorize, not_le.mpr hij]
  · intro i j
    rw [factorize_product hmn, hdone.column]
    exact Mat.entry_transpose A j i

end QR

/-- The routines of this library are exact in exact arithmetic, but for the pseudo-inverse, which is an
iteration. -/
theorem Kernels.standard_isExactFor {f : Factorization} (hf : f ≠ .svd) (m n : Nat) :
    Kernels.standard.IsExactFor m n f := by
  cases f with
  | lu => exact LU.factorize_isExact
  | cholesky => exact fun A U hA hU => Cholesky.factorize_isExact hA hU
  | qr =>
    by_cases hmn : n ≤ m
    · simp only [IsExactFor, hmn, if_true]
      exact QR.factorize_isExact hmn
    · simp only [IsExactFor, hmn, if_false]
      exact QR.factorize_isExact (le_of_not_ge hmn)
  | svd => exact absurd rfl hf

end NewtonSolver
