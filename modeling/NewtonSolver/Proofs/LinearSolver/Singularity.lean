import Mathlib
import NewtonSolver.Proofs.Factor.Reflections
import NewtonSolver.Proofs.LinearSolver.LeastSquares

/-! Square solves by triangular and by orthogonal factors. A solve answers with a solution, or it says
that the matrix is singular, which it says of every singular matrix and of no matrix but those with a
pivot that is small beside the largest one. -/
namespace NewtonSolver

variable {n : Nat} {K : Kernels ℝ} {A : Mat ℝ n n} {b : Vec ℝ n}

theorem Mat.IsInvertedBy.det_ne_zero {solve : Vec ℝ n → Vec ℝ n} (h : A.IsInvertedBy solve) :
    A.toMatrix.det ≠ 0 := by
  have hsurj := toMatrix_mulVec_surjective fun b => ⟨solve b, h b⟩
  have hunit := Matrix.mulVec_surjective_iff_isUnit.mp hsurj
  exact ((Matrix.isUnit_iff_isUnit_det _).mp hunit).ne_zero

namespace Direct

/-- The answer is that the matrix is singular. -/
def FindsSingular (answer : Except (Failure ℝ) (Vec ℝ n)) : Prop :=
  ∃ e, answer = .error (.linearSolve e) ∧ e.reason = .singular

/-- What a square solve that goes by these pivots may answer. -/
structure Decides (A : Mat ℝ n n) (pivots b : Vec ℝ n) (answer : Except (Failure ℝ) (Vec ℝ n)) :
    Prop where
  ends : (∃ x, answer = .ok x ∧ A.mulVec x = b) ∨ FindsSingular answer
  singular : A.toMatrix.det = 0 → FindsSingular answer
  finds_iff : FindsSingular answer ↔ pivots.IsNearlySingular n

/-- A solve that is prepared where the pivots pass the singularity test. -/
theorem decides_of_pivots (hn : 0 < n) {pivots : Vec ℝ n} {e : LinearSolveFailure ℝ}
    {solve : Vec ℝ n → Vec ℝ n} (he : e.reason = .singular)
    (hsolve : isSingularDiagonal pivots n = false → A.IsInvertedBy solve) (b : Vec ℝ n) :
    Decides A pivots b
      (finish (if isSingularDiagonal pivots n then .error e else .ok solve) b) := by
  cases ht : isSingularDiagonal pivots n with
  | true =>
    have hfinds : FindsSingular (finish (.error e : Prepared ℝ n n) b) := ⟨e, rfl, he⟩
    have hnear := (Exact.isSingularDiagonal_iff hn pivots n).mp ht
    exact ⟨.inr hfinds, fun _ => hfinds, iff_of_true hfinds hnear⟩
  | false =>
    have hinv := hsolve ht
    have hfar := (Exact.isSingularDiagonal_eq_false_iff hn pivots n).mp ht
    rw [if_neg Bool.false_ne_true, finish_prepared]
    refine ⟨.inl ⟨solve b, rfl, hinv b⟩, fun h0 => absurd h0 hinv.det_ne_zero, iff_of_false ?_ hfar⟩
    rintro ⟨e, he, -⟩
    cases he

end Direct

namespace Kernels.IsExactFor

theorem lu_decides (h : K.IsExactFor n n .lu) (hn : 0 < n) (A : Mat ℝ n n) (b : Vec ℝ n) :
    Direct.Decides A (K.lu n A).upper.diagonal b (Direct.finish (Direct.lu K A) b) := by
  refine Direct.decides_of_pivots hn rfl ?_ b
  intro ht
  exact h.lu_inverts (by simp [Direct.lu, ht])

theorem qr_decides (h : K.IsExactFor n n .qr) (hn : 0 < n) (A : Mat ℝ n n) (b : Vec ℝ n) :
    Direct.Decides A (K.qr n n A).r.diagonal b (Direct.finish (Direct.qr K A) b) := by
  simp only [Direct.qr, max_self]
  refine Direct.decides_of_pivots hn rfl ?_ b
  intro ht
  exact (h.square_fits (by simp) (by simp [Direct.square, Direct.qr, ht])).2 (by simp)

end Kernels.IsExactFor

/-- Solves by both factorizations are sound and find every singular matrix, whatever was factorized
before. -/
theorem solveLinear_decides {memory : Nat → Table ℝ} {cache : LinearCache ℝ} (hn : 0 < n)
    (hlu : K.IsExactFor n n .lu) (hqr : K.IsExactFor n n .qr) (hc : cache.Sound K memory)
    (held : Held ℝ n n) (hr : held.Reads memory) (b : Vec ℝ n) (P : Preconditioners ℝ n) :
    (∀ name, Direct.Decides held.matrix (K.lu n held.matrix).upper.diagonal b
      (solveLinear K (.direct .lu name) (.matrix held) b P cache).1) ∧
    ∀ name, Direct.Decides held.matrix (K.qr n n held.matrix).r.diagonal b
      (solveLinear K (.direct .qr name) (.matrix held) b P cache).1 := by
  constructor
  · intro name
    rw [solveLinear_uncached Exact.eq_of_beq hc hr .lu name b P]
    exact hlu.lu_decides hn _ b
  · intro name
    rw [solveLinear_uncached Exact.eq_of_beq hc hr .qr name b P]
    exact hqr.qr_decides hn _ b

/-- Two rows that are the same. -/
noncomputable def twoAlike : Held ℝ 2 2 := ⟨.ofFn fun _ _ => 1, none⟩

theorem twoAlike_det : twoAlike.matrix.toMatrix.det = 0 := by
  simp [Matrix.det_fin_two, twoAlike]

theorem twoAlike_singular :
    (∀ name, Direct.FindsSingular
      (solveLinear .standard (.direct .lu name) (.matrix twoAlike) #v[1, 0] .absent .empty).1) ∧
    ∀ name, Direct.FindsSingular
      (solveLinear .standard (.direct .qr name) (.matrix twoAlike) #v[1, 0] .absent .empty).1 := by
  have hr : twoAlike.Reads fun _ => .ofMat twoAlike.matrix := nofun
  obtain ⟨hlu, hqr⟩ := solveLinear_decides two_pos
    (Kernels.standard_isExactFor (f := .lu) nofun 2 2)
    (Kernels.standard_isExactFor (f := .qr) nofun 2 2) SolveCall.empty_sound twoAlike hr
    #v[1, 0] .absent
  exact ⟨fun name => (hlu name).singular twoAlike_det,
    fun name => (hqr name).singular twoAlike_det⟩

end NewtonSolver
