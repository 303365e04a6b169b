import Mathlib
import NewtonSolver.Operator
import NewtonSolver.Proofs.Arithmetic.Linear

/-! The diagonal that is estimated from products with signs: each entry, and the mean of what the signs
make of the rest of its row. -/
namespace NewtonSolver

variable {n : Nat} {A : Mat ℝ n n} {apply : Product ℝ n n} {probes : List (Vec ℝ n)} {z : Vec ℝ n}
  {i : Fin n}

/-- Every entry is one or minus one. -/
def Vec.IsSigns (z : Vec ℝ n) : Prop := ∀ i, z.get i = 1 ∨ z.get i = -1

theorem Vec.IsSigns.mul_self (hz : z.IsSigns) (i : Fin n) : z.get i * z.get i = 1 := by
  rcases hz i with h | h <;> rw [h] <;> norm_num

theorem Vec.IsSigns.abs_eq (hz : z.IsSigns) (i : Fin n) : |z.get i| = 1 := by
  rcases hz i with h | h <;> rw [h] <;> norm_num

namespace Operator

/-- What the rest of row `i` adds to the entry on the diagonal when the signs are `z`. -/
noncomputable def spill (A : Mat ℝ n n) (i : Fin n) (z : Vec ℝ n) : ℝ :=
  ∑ j ∈ Finset.univ.erase i, A.entry i j * z.get i * z.get j

theorem sample_get (hz : z.IsSigns) (i : Fin n) :
    z.get i * (A.mulVec z).get i = A.entry i i + spill A i z := by
  have hrow : z.get i * (A.mulVec z).get i = ∑ j, A.entry i j * z.get i * z.get j := by
    rw [Exact.mulVec_get, Finset.mul_sum]
    refine Finset.sum_congr rfl ?_
    intro j _
    ring
  rw [hrow, ← Finset.add_sum_erase _ _ (Finset.mem_univ i), mul_assoc, hz.mul_self, mul_one, spill]

theorem get_foldl_add (samples : List (Vec ℝ n)) (v : Vec ℝ n) (i : Fin n) :
    (samples.foldl (· + ·) v).get i = v.get i + (samples.map fun u => u.get i).sum := by
  induction samples generalizing v with
  | nil => simp
  | cons u samples ih => rw [List.foldl_cons, ih, Vec.get_add, List.map_cons, List.sum_cons, add_assoc]

/-- The estimate is the mean of the samples. -/
theorem estimateDiagonal_ok (hA : ∀ v, apply v = .ok (A.mulVec v)) (probes : List (Vec ℝ n)) :
    estimateDiagonal apply probes = .ok (Vector.ofFn fun i =>
      (probes.map fun z => z.get i * (A.mulVec z).get i).sum / probes.length) := by
  have hsample : sampleDiagonal apply = fun z => .ok (z.zipWith (· * ·) (A.mulVec z)) := by
    funext z
    simp [sampleDiagonal, hA]
  have hsamples : probes.mapM (sampleDiagonal apply) =
      .ok (probes.map fun z => z.zipWith (· * ·) (A.mulVec z)) := by
    rw [hsample]
    exact List.mapM_pure
  rw [estimateDiagonal, hsamples]
  refine congrArg Except.ok (Vec.ext_get ?_)
  intro i
  rw [Vector.get_map, get_foldl_add]
  simp [Function.comp_def]

/-- With signs for probes, what is wrong is the mean of what the rows add. -/
noncomputable def estimate (A : Mat ℝ n n) (probes : List (Vec ℝ n)) : Vec ℝ n :=
  Vector.ofFn fun i => A.entry i i + (probes.map (spill A i)).sum / probes.length

theorem get_estimate (A : Mat ℝ n n) (probes : List (Vec ℝ n)) (i : Fin n) :
    (estimate A probes).get i = A.entry i i + (probes.map (spill A i)).sum / probes.length := by
  rw [estimate, Vector.get_ofFn]

theorem estimateDiagonal_eq (hA : ∀ v, apply v = .ok (A.mulVec v)) (hne : probes ≠ [])
    (hz : ∀ z ∈ probes, z.IsSigns) : estimateDiagonal apply probes = .ok (estimate A probes) := by
  rw [estimateDiagonal_ok hA]
  refine congrArg Except.ok (Vec.ext_get ?_)
  intro i
  have hlength : (probes.length : ℝ) ≠ 0 := by simpa using hne
  have hsamples : (probes.map fun z => z.get i * (A.mulVec z).get i) =
      probes.map fun z => A.entry i i + spill A i z :=
    List.map_congr_left fun z hmem => sample_get (hz z hmem) i
  rw [Vector.get_ofFn, get_estimate, hsamples, List.sum_map_add]
  simp
  field_simp

end Operator

end NewtonSolver
