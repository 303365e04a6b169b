import Mathlib
import NewtonSolver.Configuration.Build
import NewtonSolver.Proofs.Descent.MatrixFree
import NewtonSolver.Proofs.Operator.Diagonal

/-! Preconditioners that divide by a diagonal. That of a positive definite matrix is positive definite. The
one that is estimated from products is so exactly where no entry comes out below zero, but for what
counts as too small to divide by. -/
namespace NewtonSolver

variable {m n : Nat} {A : Mat ℝ n n} {apply : Product ℝ n n} {probes : List (Vec ℝ n)} {i : Fin n}

namespace Product

/-- Every entry is multiplied by a number of its own. -/
def Scales (f : Product ℝ n n) (c : Fin n → ℝ) : Prop :=
  ∀ v, f v = .ok (Vector.ofFn fun i => c i * v.get i)

/-- No vector but zero is orthogonal to its product, or turned round by it. -/
def IsDefinite (f : Product ℝ n n) : Prop := ∀ v, v ≠ 0 → ∃ w, f v = .ok w ∧ 0 < Vec.dot v w

theorem Scales.isDefinite_iff {f : Product ℝ n n} {c : Fin n → ℝ} (h : f.Scales c) :
    f.IsDefinite ↔ ∀ i, 0 < c i := by
  have hdot (v : Vec ℝ n) : Vec.dot v (Vector.ofFn fun i => c i * v.get i) =
      ∑ i, c i * (v.get i * v.get i) := by
    rw [Exact.dot_eq_sum]
    refine Finset.sum_congr rfl ?_
    intro i _
    rw [Vector.get_ofFn]
    ring
  constructor
  · intro hdefinite i
    have hne : (Vec.unit i : Vec ℝ n) ≠ 0 := by
      intro h0
      have hi := congrArg (fun v : Vec ℝ n => v.get i) h0
      simp at hi
    obtain ⟨w, hw, hpos⟩ := hdefinite (Vec.unit i) hne
    obtain rfl := Except.ok.inj ((h _).symm.trans hw)
    rw [hdot] at hpos
    simpa using hpos
  · intro hc v hv
    refine ⟨_, h v, ?_⟩
    have hnonneg : ∀ i ∈ Finset.univ, 0 ≤ c i * (v.get i * v.get i) :=
      fun i _ => mul_nonneg (hc i).le (mul_self_nonneg _)
    rw [hdot]
    refine lt_of_le_of_ne (Finset.sum_nonneg hnonneg) ?_
    intro h0
    refine hv (Vec.ext_get ?_)
    intro i
    have hi := (Finset.sum_eq_zero_iff_of_nonneg hnonneg).mp h0.symm i (Finset.mem_univ i)
    have hsquare := (mul_eq_zero.mp hi).resolve_left (hc i).ne'
    rw [mul_self_eq_zero.mp hsquare, Vec.get_zero]

end Product

/-- What is no larger is not divided by. -/
noncomputable def tiny : ℝ := Scalar.decimal 1 300

theorem tiny_pos : 0 < tiny := Exact.decimal_pos one_pos 300

/-- What division by the diagonal multiplies an entry with. -/
noncomputable def multiplier (d : Vec ℝ n) (i : Fin n) : ℝ := 1 / if tiny < |d.get i| then d.get i else 1

theorem inverseDiagonal_scales (d : Vec ℝ n) :
    Product.Scales (fun v => .ok (inverseDiagonal d v)) (multiplier d) := by
  intro v
  refine congrArg Except.ok (Vec.ext_get ?_)
  intro i
  rw [inverseDiagonal, Vec.get_zipWith, Vector.get_ofFn, multiplier, one_div_mul_eq_div]
  rfl

theorem multiplier_pos_iff (d : Vec ℝ n) (i : Fin n) : 0 < multiplier d i ↔ -tiny ≤ d.get i := by
  unfold multiplier
  split
  case isTrue h =>
    rw [one_div_pos]
    constructor
    · intro hpos
      linarith [tiny_pos]
    · intro hle
      by_contra hnot
      rw [abs_of_nonpos (not_lt.mp hnot)] at h
      linarith
  case isFalse h =>
    exact iff_of_true (by norm_num) (abs_le.mp (not_lt.mp h)).1

theorem inverseDiagonal_isDefinite_iff (d : Vec ℝ n) :
    Product.IsDefinite (fun v => .ok (inverseDiagonal d v)) ↔ ∀ i, -tiny ≤ d.get i := by
  simp only [(inverseDiagonal_scales d).isDefinite_iff, multiplier_pos_iff]

namespace Operator

theorem abs_spill_le {z : Vec ℝ n} (hz : z.IsSigns) (i : Fin n) :
    |spill A i z| ≤ ∑ j ∈ Finset.univ.erase i, |A.entry i j| := by
  refine (Finset.abs_sum_le_sum_abs _ _).trans (Finset.sum_le_sum ?_)
  intro j _
  rw [abs_mul, abs_mul, hz.abs_eq, hz.abs_eq, mul_one, mul_one]

/-- The signs that the entries of row `i` are most against. -/
noncomputable def adverse (A : Mat ℝ n n) (i : Fin n) : Vec ℝ n :=
  Vector.ofFn fun j => if j = i ∨ A.entry i j ≤ 0 then 1 else -1

theorem adverse_isSigns (A : Mat ℝ n n) (i : Fin n) : (adverse A i).IsSigns := by
  intro j
  rw [adverse, Vector.get_ofFn]
  split
  · exact .inl rfl
  · exact .inr rfl

theorem spill_adverse (A : Mat ℝ n n) (i : Fin n) :
    spill A i (adverse A i) = -∑ j ∈ Finset.univ.erase i, |A.entry i j| := by
  rw [spill, ← Finset.sum_neg_distrib]
  refine Finset.sum_congr rfl ?_
  intro j hj
  have hji := Finset.ne_of_mem_erase hj
  simp only [adverse, Vector.get_ofFn, true_or, if_true, hji, false_or]
  split
  · next h => rw [abs_of_nonpos h]; ring
  · next h => rw [abs_of_pos (not_le.mp h)]; ring

/-- No choice of signs puts the estimate below a bound exactly if the row is that much dominated. -/
theorem le_estimate_iff {s : Nat} (hs : 0 < s) (A : Mat ℝ n n) (i : Fin n) (bound : ℝ) :
    (∀ probes : List (Vec ℝ n), probes.length = s → (∀ z ∈ probes, z.IsSigns) →
      bound ≤ (estimate A probes).get i) ↔
        bound + ∑ j ∈ Finset.univ.erase i, |A.entry i j| ≤ A.entry i i := by
  have hs' : (0 : ℝ) < s := by exact_mod_cast hs
  constructor
  · intro h
    have hworst := h (List.replicate s (adverse A i)) (List.length_replicate)
      fun z hz => (List.eq_of_mem_replicate hz) ▸ adverse_isSigns A i
    rw [get_estimate, List.map_replicate, List.sum_replicate, List.length_replicate, spill_adverse,
      nsmul_eq_mul, mul_div_cancel_left₀ _ hs'.ne'] at hworst
    linarith
  · intro h probes hlength hz
    have hsum : -(s * ∑ j ∈ Finset.univ.erase i, |A.entry i j|) ≤ (probes.map (spill A i)).sum := by
      have hcard := List.card_nsmul_le_sum (probes.map (spill A i))
        (-∑ j ∈ Finset.univ.erase i, |A.entry i j|) (by
          intro x hx
          obtain ⟨z, hmem, rfl⟩ := List.mem_map.mp hx
          exact (abs_le.mp (abs_spill_le (hz z hmem) i)).1)
      rwa [List.length_map, hlength, nsmul_eq_mul, mul_neg] at hcard
    rw [get_estimate, hlength]
    have hmean : -(∑ j ∈ Finset.univ.erase i, |A.entry i j|) ≤ (probes.map (spill A i)).sum / s := by
      rw [le_div_iff₀ hs']
      linarith
    linarith

end Operator

namespace PreconditionerSpec

variable {samples seed : Setting ℝ} {s t : Int}

/-- The left preconditioner of a system known by its products, when these are the probes. -/
inductive LeftFrom (apply : Product ℝ n n) (probes : List (Vec ℝ n)) : Product ℝ n n → Prop
  | divides {d : Vec ℝ n} (hd : Operator.estimateDiagonal apply probes = .ok d) :
    LeftFrom apply probes fun v => .ok (inverseDiagonal d v)

theorem LeftFrom.unique {f g : Product ℝ n n} (hf : LeftFrom apply probes f)
    (hg : LeftFrom apply probes g) : f = g := by
  cases hf with
  | divides hd =>
    cases hg with
    | divides hd' =>
      obtain rfl := Except.ok.inj (hd.symm.trans hd')
      rfl

theorem LeftFrom.of_signs (hA : ∀ v, apply v = .ok (A.mulVec v)) (hne : probes ≠ [])
    (hz : ∀ z ∈ probes, z.IsSigns) :
    LeftFrom apply probes fun v => .ok (inverseDiagonal (Operator.estimate A probes) v) :=
  .divides (Operator.estimateDiagonal_eq hA hne hz)

/-- All outcomes are definite exactly if the worst one for each row is. -/
theorem LeftFrom.isDefinite_iff (hA : ∀ v, apply v = .ok (A.mulVec v)) {s : Nat} (hs : 0 < s) :
    (∀ probes left, probes.length = s → (∀ z ∈ probes, z.IsSigns) → LeftFrom apply probes left →
      left.IsDefinite) ↔ ∀ i, ∑ j ∈ Finset.univ.erase i, |A.entry i j| ≤ A.entry i i + tiny := by
  have hrows (i : Fin n) : ∑ j ∈ Finset.univ.erase i, |A.entry i j| ≤ A.entry i i + tiny ↔
      -tiny + ∑ j ∈ Finset.univ.erase i, |A.entry i j| ≤ A.entry i i := by
    constructor <;> intro h <;> linarith
  have hne {probes : List (Vec ℝ n)} (hlength : probes.length = s) : probes ≠ [] :=
    List.ne_nil_of_length_pos (hlength.symm ▸ hs)
  simp only [hrows, ← Operator.le_estimate_iff hs]
  constructor
  · intro h i probes hlength hz
    have hleft := LeftFrom.of_signs hA (hne hlength) hz
    exact (inverseDiagonal_isDefinite_iff _).mp (h probes _ hlength hz hleft) i
  · intro h probes left hlength hz hleft
    obtain rfl := hleft.unique (.of_signs hA (hne hlength) hz)
    exact (inverseDiagonal_isDefinite_iff _).mpr fun i => h i probes hlength hz

end PreconditionerSpec

end NewtonSolver
