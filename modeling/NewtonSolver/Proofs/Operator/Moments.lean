import Mathlib
import NewtonSolver.Proofs.Operator.Diagonal

/-! The estimate of a diagonal over all choices of signs: on average it is the diagonal, and its spread is
that of the rest of the row. Signs at different places agree as often as they differ. -/
namespace NewtonSolver.Operator

variable {s n : Nat} {A : Mat ℝ n n} {apply : Product ℝ n n} {i j : Fin n}

/-- One of the two signs for each entry of each probe. -/
abbrev SignChoice (s n : Nat) := Fin s → Fin n → ℤˣ

namespace SignChoice

variable {z : SignChoice s n} {k l : Fin s} {m : Fin n}

noncomputable def probe (z : SignChoice s n) (k : Fin s) : Vec ℝ n :=
  Vector.ofFn fun j => ((z k j : ℤ) : ℝ)

noncomputable def probes (z : SignChoice s n) : List (Vec ℝ n) := List.ofFn z.probe

theorem probe_get (z : SignChoice s n) (k : Fin s) (j : Fin n) :
    (z.probe k).get j = ((z k j : ℤ) : ℝ) := by
  rw [probe, Vector.get_ofFn]

theorem probe_isSigns (z : SignChoice s n) (k : Fin s) : (z.probe k).IsSigns := by
  intro j
  rw [probe_get]
  rcases Int.units_eq_one_or (z k j) with h | h
  · exact .inl (by simp [h])
  · exact .inr (by simp [h])

theorem length_probes (z : SignChoice s n) : z.probes.length = s := by simp [probes]

theorem probes_isSigns (z : SignChoice s n) : ∀ v ∈ z.probes, v.IsSigns := by
  intro v hv
  obtain ⟨k, rfl⟩ := (List.mem_ofFn' _ _).mp hv
  exact z.probe_isSigns k

theorem probes_ne_nil (hs : 0 < s) (z : SignChoice s n) : z.probes ≠ [] := by
  intro h
  have hlength := z.length_probes
  rw [h, List.length_nil] at hlength
  omega

/-- The choice with one sign turned over. -/
def flip (z : SignChoice s n) (k : Fin s) (j : Fin n) : SignChoice s n :=
  fun l m => if l = k ∧ m = j then -z l m else z l m

theorem flip_flip (z : SignChoice s n) (k : Fin s) (j : Fin n) : (z.flip k j).flip k j = z := by
  funext l m
  unfold flip
  split <;> simp_all

theorem flip_ne (z : SignChoice s n) (k : Fin s) (j : Fin n) : z.flip k j ≠ z := by
  intro h
  have hflipped := congrFun (congrFun h k) j
  simp [flip] at hflipped

/-- What changes its sign with one of the choices cancels. -/
theorem sum_eq_zero {f : SignChoice s n → ℝ} (k : Fin s) (j : Fin n)
    (hf : ∀ z, f (z.flip k j) = -f z) : ∑ z, f z = 0 := by
  refine Finset.sum_involution (fun z _ => z.flip k j) ?_ ?_ ?_ ?_
  · intro z _
    rw [hf, add_neg_cancel]
  · intro z _ _
    exact z.flip_ne k j
  · intro z _
    exact Finset.mem_univ _
  · intro z _
    exact z.flip_flip k j

/-- Whether two signs of a probe agree, as a sign. -/
noncomputable def agreement (z : SignChoice s n) (k : Fin s) (i j : Fin n) : ℝ :=
  (z.probe k).get i * (z.probe k).get j

theorem probe_flip_of_ne (h : ¬ (l = k ∧ m = j)) : ((z.flip k j).probe l).get m = (z.probe l).get m := by
  rw [probe_get, probe_get, flip, if_neg h]

theorem probe_flip_self (z : SignChoice s n) (k : Fin s) (j : Fin n) :
    ((z.flip k j).probe k).get j = -(z.probe k).get j := by
  rw [probe_get, probe_get, flip, if_pos ⟨rfl, rfl⟩]
  simp

theorem agreement_flip_self (hj : j ≠ i) (z : SignChoice s n) (k : Fin s) :
    (z.flip k j).agreement k i j = -z.agreement k i j := by
  rw [agreement, probe_flip_self, probe_flip_of_ne fun h => hj h.2.symm, agreement, mul_neg]

theorem agreement_flip_of_ne (hj : j ≠ i) (h : ¬ (l = k ∧ m = j)) :
    (z.flip k j).agreement l i m = z.agreement l i m := by
  rw [agreement, probe_flip_of_ne h, probe_flip_of_ne fun h => hj h.2.symm, agreement]

theorem agreement_mul_self (z : SignChoice s n) (k : Fin s) (i j : Fin n) :
    z.agreement k i j * z.agreement k i j = 1 := by
  rw [agreement, mul_mul_mul_comm, (z.probe_isSigns k).mul_self, (z.probe_isSigns k).mul_self, one_mul]

theorem sum_agreement (hj : j ≠ i) (k : Fin s) : ∑ z : SignChoice s n, z.agreement k i j = 0 :=
  sum_eq_zero k j fun z => agreement_flip_self hj z k

/-- Agreements at different places are independent. -/
theorem sum_agreement_mul (hj : j ≠ i) (k l : Fin s) (m : Fin n) :
    ∑ z : SignChoice s n, z.agreement k i j * z.agreement l i m =
      if (l, m) = (k, j) then (Fintype.card (SignChoice s n) : ℝ) else 0 := by
  by_cases h : l = k ∧ m = j
  · obtain ⟨rfl, rfl⟩ := h
    simp [agreement_mul_self]
  · rw [if_neg (by simpa using h)]
    refine sum_eq_zero k j ?_
    intro z
    rw [agreement_flip_self hj, agreement_flip_of_ne hj h, neg_mul]

end SignChoice

/-- The places that enter the estimate of entry `i`: in each probe, all but the diagonal of the row. -/
def places (s : Nat) (i : Fin n) : Finset (Fin s × Fin n) := Finset.univ ×ˢ Finset.univ.erase i

theorem mem_places {p : Fin s × Fin n} : p ∈ places s i ↔ p.2 ≠ i := by simp [places]

/-- How far the estimate is off, place by place. -/
theorem estimate_sub (A : Mat ℝ n n) (z : SignChoice s n) (i : Fin n) :
    (estimate A z.probes).get i - A.entry i i =
      (∑ p ∈ places s i, A.entry i p.2 * z.agreement p.1 i p.2) / s := by
  have hspill (k : Fin s) : spill A i (z.probe k) =
      ∑ j ∈ Finset.univ.erase i, A.entry i j * z.agreement k i j := by
    refine Finset.sum_congr rfl ?_
    intro j _
    rw [SignChoice.agreement, mul_assoc]
  rw [get_estimate, add_sub_cancel_left, SignChoice.length_probes, SignChoice.probes, List.map_ofFn,
    List.sum_ofFn, places, Finset.sum_product]
  simp only [Function.comp_apply, hspill]

/-- The mean over all choices of signs, of which there are `2ⁿ` for each probe. -/
noncomputable def average (f : SignChoice s n → ℝ) : ℝ := (∑ z, f z) / ((2 ^ n) ^ s : Nat)

theorem card_signChoice (s n : Nat) : Fintype.card (SignChoice s n) = (2 ^ n) ^ s := by
  simp

theorem average_const (s n : Nat) (a : ℝ) : average (fun _ : SignChoice s n => a) = a := by
  rw [average, Finset.sum_const, nsmul_eq_mul, Finset.card_univ, card_signChoice]
  exact mul_div_cancel_left₀ a (by simp)

theorem average_add (f g : SignChoice s n → ℝ) :
    average (fun z => f z + g z) = average f + average g := by
  rw [average, Finset.sum_add_distrib, add_div, average, average]

theorem average_estimate_sub (A : Mat ℝ n n) (s : Nat) (i : Fin n) :
    average (fun z : SignChoice s n => (estimate A z.probes).get i - A.entry i i) = 0 := by
  simp only [average, estimate_sub, ← Finset.sum_div]
  rw [Finset.sum_comm]
  have hplace (p : Fin s × Fin n) (hp : p ∈ places s i) :
      ∑ z : SignChoice s n, A.entry i p.2 * z.agreement p.1 i p.2 = 0 := by
    rw [← Finset.mul_sum, SignChoice.sum_agreement (mem_places.mp hp), mul_zero]
  rw [Finset.sum_eq_zero hplace, zero_div, zero_div]

/-- Over all choices only the squares of the terms are left of the square of the sum. -/
theorem sum_sq_agreements (c : Fin s × Fin n → ℝ) (i : Fin n) :
    ∑ z : SignChoice s n, (∑ p ∈ places s i, c p * z.agreement p.1 i p.2) ^ 2 =
      ((2 ^ n) ^ s : Nat) * ∑ p ∈ places s i, c p ^ 2 := by
  have hpair (p q : Fin s × Fin n) (hp : p ∈ places s i) :
      ∑ z : SignChoice s n, c p * z.agreement p.1 i p.2 * (c q * z.agreement q.1 i q.2) =
        if q = p then ((2 ^ n) ^ s : Nat) * (c p * c q) else 0 := by
    have hterm (z : SignChoice s n) : c p * z.agreement p.1 i p.2 * (c q * z.agreement q.1 i q.2) =
        c p * c q * (z.agreement p.1 i p.2 * z.agreement q.1 i q.2) := by ring
    simp only [hterm]
    rw [← Finset.mul_sum, SignChoice.sum_agreement_mul (mem_places.mp hp), card_signChoice, mul_ite,
      mul_zero, mul_comm]
  calc
    ∑ z : SignChoice s n, (∑ p ∈ places s i, c p * z.agreement p.1 i p.2) ^ 2
      = ∑ p ∈ places s i, ∑ q ∈ places s i, ∑ z : SignChoice s n,
          c p * z.agreement p.1 i p.2 * (c q * z.agreement q.1 i q.2) := by
        simp only [sq, Finset.sum_mul_sum]
        rw [Finset.sum_comm]
        refine Finset.sum_congr rfl ?_
        intro p _
        exact Finset.sum_comm
    _ = ∑ p ∈ places s i, ((2 ^ n) ^ s : Nat) * (c p * c p) := by
        refine Finset.sum_congr rfl ?_
        intro p hp
        rw [Finset.sum_congr rfl fun q _ => hpair p q hp, Finset.sum_ite_eq', if_pos hp]
    _ = ((2 ^ n) ^ s : Nat) * ∑ p ∈ places s i, c p ^ 2 := by
        rw [Finset.mul_sum]
        simp only [sq]

theorem average_sq_estimate_sub (hs : 0 < s) (A : Mat ℝ n n) (i : Fin n) :
    average (fun z : SignChoice s n => ((estimate A z.probes).get i - A.entry i i) ^ 2) =
      (∑ j ∈ Finset.univ.erase i, A.entry i j ^ 2) / s := by
  have hs : (s : ℝ) ≠ 0 := by exact_mod_cast hs.ne'
  have hsquares : ∑ p ∈ places s i, A.entry i p.2 ^ 2 =
      s * ∑ j ∈ Finset.univ.erase i, A.entry i j ^ 2 := by
    rw [places, Finset.sum_product]
    dsimp only
    rw [Finset.sum_const, nsmul_eq_mul, Finset.card_univ, Fintype.card_fin]
  simp only [average, estimate_sub, div_pow, ← Finset.sum_div]
  rw [sum_sq_agreements fun p => A.entry i p.2, hsquares]
  field_simp

theorem estimate_diagonal (hA : ∀ i j, j ≠ i → A.entry i j = 0) (probes : List (Vec ℝ n)) :
    estimate A probes = A.diagonal := by
  refine Vec.ext_get ?_
  intro i
  have hspill : spill A i = fun _ => 0 := by
    funext z
    refine Finset.sum_eq_zero ?_
    intro j hj
    rw [hA i j (Finset.ne_of_mem_erase hj), zero_mul, zero_mul]
  rw [get_estimate, hspill]
  simp [Mat.diagonal]

/-- The estimate from the products with a matrix, for every choice of signs, and over all of them. -/
theorem estimateDiagonal_moments (hA : ∀ v, apply v = .ok (A.mulVec v)) (hs : 0 < s) :
    (∀ probes : List (Vec ℝ n), probes.length = s → (∀ z ∈ probes, z.IsSigns) →
      ∃ d, estimateDiagonal apply probes = .ok d ∧
        (∀ i, d.get i = A.entry i i + 1 / s * (probes.map fun z =>
          ∑ j ∈ Finset.univ.erase i, A.entry i j * z.get i * z.get j).sum) ∧
        ((∀ i j, j ≠ i → A.entry i j = 0) → d = A.diagonal)) ∧
    ∃ d : SignChoice s n → Vec ℝ n, (∀ z, estimateDiagonal apply z.probes = .ok (d z)) ∧
      ∀ i, average (fun z => (d z).get i) = A.entry i i ∧
        average (fun z => ((d z).get i - A.entry i i) ^ 2) =
          (∑ j ∈ Finset.univ.erase i, A.entry i j ^ 2) / s := by
  constructor
  · intro probes hlength hz
    have hne : probes ≠ [] := by
      rintro rfl
      exact hs.ne hlength
    refine ⟨_, estimateDiagonal_eq hA hne hz, ?_, fun hdiagonal => estimate_diagonal hdiagonal probes⟩
    intro i
    rw [get_estimate, hlength, div_eq_inv_mul, one_div]
    rfl
  · refine ⟨fun z => estimate A z.probes, ?_, ?_⟩
    · intro z
      exact estimateDiagonal_eq hA (z.probes_ne_nil hs) z.probes_isSigns
    · intro i
      refine ⟨?_, average_sq_estimate_sub hs A i⟩
      have hsplit := average_add (fun z : SignChoice s n => (estimate A z.probes).get i - A.entry i i)
        fun _ => A.entry i i
      simpa [average_estimate_sub, average_const] using hsplit

/-- Two unknowns, each in both equations. -/
noncomputable def skewed : Mat ℝ 2 2 := .ofFn fun i j => ((![![3, 1], ![-2, 5]] i j : ℤ) : ℝ)

theorem skewed_moments :
    ∃ d : SignChoice 2 2 → Vec ℝ 2,
      (∀ z, estimateDiagonal (fun v => .ok (skewed.mulVec v)) z.probes = .ok (d z)) ∧
        average (fun z => (d z).get 1) = 5 ∧ average (fun z => ((d z).get 1 - 5) ^ 2) = 2 := by
  obtain ⟨d, hd, hmoments⟩ :=
    (estimateDiagonal_moments (A := skewed) (s := 2) (fun v => rfl) (by decide)).2
  obtain ⟨hmean, hvariance⟩ := hmoments 1
  have hentry : skewed.entry 1 1 = 5 := by simp [skewed]
  have hrow : ∑ j ∈ Finset.univ.erase (1 : Fin 2), skewed.entry 1 j ^ 2 = 4 := by
    have hrest : Finset.univ.erase (1 : Fin 2) = {0} := by decide
    have hentry : skewed.entry 1 0 = -2 := by simp [skewed]
    rw [hrest, Finset.sum_singleton, hentry]
    norm_num
  rw [hentry] at hmean hvariance
  refine ⟨d, hd, hmean, ?_⟩
  rw [hvariance, hrow]
  norm_num

end NewtonSolver.Operator
