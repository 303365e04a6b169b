import Mathlib
import NewtonSolver.Proofs.Factor.Definite
import NewtonSolver.Proofs.LinearSolver.Singularity

/-! Square solves by the upper factor of a symmetric matrix. They solve with the symmetric matrix of which
they read the upper triangle, so that they are sound exactly for the matrices that are symmetric and for
those that are refused. -/
namespace NewtonSolver

variable {n : Nat} {K : Kernels ℝ} {A B : Mat ℝ n n} {solve : Vec ℝ n → Vec ℝ n}

namespace Mat

theorem eq_of_mulVec (h : ∀ v, A.mulVec v = B.mulVec v) : A = B := by
  refine ext_entry ?_
  intro i j
  have hcolumn := congrArg (fun v : Vec ℝ n => v.get i) (h (Vec.unit j))
  simpa [Exact.mulVec_unit, column] using hcolumn

/-- Matrices that the same solve inverts are equal. -/
theorem IsInvertedBy.unique (hA : A.IsInvertedBy solve) (hB : B.IsInvertedBy solve) : A = B := by
  refine eq_of_mulVec ?_
  intro v
  have hv : solve (B.mulVec v) = v := hB.injective (hB _)
  have hb := hA (B.mulVec v)
  rwa [hv] at hb

theorem transpose_of_posDef (hA : A.toMatrix.PosDef) : A.transpose = A := by
  refine ext_entry ?_
  intro i j
  rw [entry_transpose]
  simpa using hA.isHermitian.apply i j

end Mat

namespace Cholesky

/-- The symmetric matrix that is read is positive definite, and no pivot of its factor is small beside
the largest one. -/
structure Accepts (K : Kernels ℝ) (A : Mat ℝ n n) : Prop where
  nonempty : 0 < n
  definite : A.mirrored.toMatrix.PosDef
  pivots : ∀ U, K.cholesky n A = some U → ¬ U.diagonal.IsNearlySingular n

/-- What the solves with a matrix answer, and for which matrices these answers are right. -/
structure Answers (K : Kernels ℝ) (A : Mat ℝ n n)
    (answer : Vec ℝ n → Except (Failure ℝ) (Vec ℝ n)) : Prop where
  accepted : Accepts K A → ∀ b, ∃ x, answer b = .ok x ∧ A.mirrored.mulVec x = b
  refused : ¬ Accepts K A → ∀ b, Direct.FindsSingular (answer b)
  solves : 0 < n → A.toMatrix.PosDef →
    (∀ U, K.cholesky n A = some U → ¬ U.diagonal.IsNearlySingular n) →
    ∀ b, ∃ x, answer b = .ok x ∧ A.mulVec x = b
  sound_iff : (∀ b x, answer b = .ok x → A.mulVec x = b) ↔ A.transpose = A ∨ ¬ Accepts K A
  finds_iff : (¬ A.toMatrix.PosDef → ∀ b, Direct.FindsSingular (answer b)) ↔
    A.transpose = A ∨ ¬ Accepts K A

namespace Answers

variable {answer : Vec ℝ n → Except (Failure ℝ) (Vec ℝ n)}

/-- No matrix but the one that is read has these answers. -/
theorem of_accepted (h : Accepts K A) (hanswer : ∀ b, answer b = .ok (solve b))
    (hinv : A.mirrored.IsInvertedBy solve) : Answers K A answer := by
  have hsymm (hA : A.transpose = A) : A.IsInvertedBy solve := by
    rwa [Mat.mirrored_eq_iff.mpr hA] at hinv
  refine ⟨fun _ b => ⟨solve b, hanswer b, hinv b⟩, fun hnot => absurd h hnot, ?_, ?_, ?_⟩
  · intro _ hA _ b
    exact ⟨solve b, hanswer b, hsymm (Mat.transpose_of_posDef hA) b⟩
  · constructor
    · intro hsound
      have hA : A.IsInvertedBy solve := fun b => hsound b _ (hanswer b)
      exact .inl (Mat.mirrored_eq_iff.mp (hinv.unique hA))
    · rintro (hA | hnot) b x hx
      · obtain rfl := Except.ok.inj ((hanswer b).symm.trans hx)
        exact hsymm hA b
      · exact absurd h hnot
  · constructor
    · intro hfinds
      refine .inl (Mat.transpose_of_posDef ?_)
      by_contra hdef
      obtain ⟨e, he, -⟩ := hfinds hdef 0
      cases (hanswer 0).symm.trans he
    · rintro (hA | hnot) hdef
      · rw [← Mat.mirrored_eq_iff.mpr hA] at hdef
        exact absurd h.definite hdef
      · exact absurd h hnot

theorem of_refused (h : ¬ Accepts K A) (hfinds : ∀ b, Direct.FindsSingular (answer b)) :
    Answers K A answer := by
  refine ⟨fun hyes => absurd hyes h, fun _ => hfinds, ?_, ?_, ?_⟩
  · intro hn hA hpivots
    refine absurd ⟨hn, ?_, hpivots⟩ h
    rwa [Mat.mirrored_eq_iff.mpr (Mat.transpose_of_posDef hA)]
  · refine iff_of_true ?_ (.inr h)
    intro b x hx
    obtain ⟨e, he, -⟩ := hfinds b
    cases he.symm.trans hx
  · exact iff_of_true (fun _ => hfinds) (.inr h)

end Answers

end Cholesky

namespace Kernels.ReadsUpper

open Cholesky (Accepts Answers)
open FactorsExactly (diagonal_ne_zero)

variable (hK : K.ReadsUpper n)

include hK

theorem cholesky_accepted (h : Accepts K A) :
    ∃ solve, Direct.cholesky K A = .ok solve ∧ A.mirrored.IsInvertedBy solve := by
  obtain ⟨U, hU⟩ := (hK.definite_iff A).mpr h.definite
  have ht := (Exact.isSingularDiagonal_eq_false_iff h.nonempty _ n).mpr (h.pivots U hU)
  refine ⟨Cholesky.solve U, by simp [Direct.cholesky, hU, ht], ?_⟩
  exact (hK.exact A U hU).mulVec_solve (diagonal_ne_zero ht)

theorem cholesky_refused (h : ¬ Accepts K A) :
    ∃ e, Direct.cholesky K A = .error e ∧ e.reason = .singular := by
  cases hU : K.cholesky n A with
  | none => exact ⟨.notPositiveDefinite, by simp [Direct.cholesky, hU], rfl⟩
  | some U =>
    cases ht : Direct.isSingularDiagonal U.diagonal n with
    | true => exact ⟨.zeroPivotCholesky, by simp [Direct.cholesky, hU, ht], rfl⟩
    | false =>
      have hn := Exact.pos_of_not_singular ht
      refine absurd ⟨hn, (hK.definite_iff A).mp ⟨U, hU⟩, ?_⟩ h
      intro V hV
      obtain rfl := Option.some.inj (hU.symm.trans hV)
      exact (Exact.isSingularDiagonal_eq_false_iff hn _ n).mp ht

theorem cholesky_answers (A : Mat ℝ n n) :
    Answers K A fun b => Direct.finish (Direct.cholesky K A) b := by
  by_cases h : Accepts K A
  · obtain ⟨solve, hsolve, hinv⟩ := hK.cholesky_accepted h
    refine .of_accepted h ?_ hinv
    intro b
    rw [hsolve, Direct.finish_prepared]
  · obtain ⟨e, he, hreason⟩ := hK.cholesky_refused h
    refine .of_refused h ?_
    intro b
    rw [he]
    exact ⟨e, rfl, hreason⟩

end Kernels.ReadsUpper

/-- The solves with a matrix, whatever was factorized before. -/
theorem solveLinear_cholesky_answers {memory : Nat → Table ℝ} {cache : LinearCache ℝ}
    (hK : K.ReadsUpper n) (hc : cache.Sound K memory) (held : Held ℝ n n)
    (hr : held.Reads memory) (name : Setting ℝ) (P : Preconditioners ℝ n) :
    Cholesky.Answers K held.matrix fun b =>
      (solveLinear K (.direct .cholesky name) (.matrix held) b P cache).1 := by
  simp only [solveLinear_uncached Exact.eq_of_beq hc hr]
  exact hK.cholesky_answers held.matrix

namespace Cholesky

/-- The identity has no pivots but those of magnitude one. -/
theorem IsExact.abs_pivot {U : Mat ℝ 2 2} (h : IsExact U Mat.identity) (i : Fin 2) :
    |U.entry i i| = 1 := by
  have hentry (i j : Fin 2) :
      U.entry 0 i * U.entry 0 j + U.entry 1 i * U.entry 1 j = if i = j then 1 else 0 := by
    have hij := congrArg (fun M : Mat ℝ 2 2 => M.entry i j) h.product
    simpa [Exact.entry_mul, Fin.sum_univ_two, Mat.identity] using hij
  have hlower : U.entry 1 0 = 0 := h.upper 1 0 (by decide)
  have hfirst : U.entry 0 0 * U.entry 0 0 = 1 := by simpa [hlower] using hentry 0 0
  have hzero : U.entry 0 1 = 0 := by
    have h01 : U.entry 0 0 * U.entry 0 1 = 0 := by simpa [hlower] using hentry 0 1
    refine (mul_eq_zero.mp h01).resolve_left ?_
    intro h0
    simp [h0] at hfirst
  have hsecond : U.entry 1 1 * U.entry 1 1 = 1 := by simpa [hzero] using hentry 1 1
  have hsquare : U.entry i i * U.entry i i = 1 := by
    fin_cases i
    · exact hfirst
    · exact hsecond
  rw [← abs_one]
  exact abs_eq_abs.mpr (mul_self_eq_one_iff.mp hsquare)

theorem accepts_of_identity {A : Mat ℝ 2 2} (hA : A.mirrored = Mat.identity) :
    Accepts .standard A where
  nonempty := two_pos
  definite := by
    have hone : (Mat.identity : Mat ℝ 2 2).toMatrix = 1 := by
      ext i j
      simp [Mat.identity, Matrix.one_apply]
    rw [hA, hone]
    exact Matrix.PosDef.one
  pivots := by
    intro U hU
    have hexact := (Kernels.standard_readsUpper 2).exact A U hU
    rw [hA] at hexact
    rintro ⟨i, j, -, -, h⟩
    rw [Mat.diagonal, Vector.get_ofFn, Vector.get_ofFn, hexact.abs_pivot, hexact.abs_pivot] at h
    norm_num [Scalar.epsilon] at h

/-- A matrix that exchanges two entries, which is symmetric but not positive definite. -/
noncomputable def exchanging : Held ℝ 2 2 := ⟨.ofFn ![![0, 1], ![1, 0]], none⟩

theorem exchanging_transpose : exchanging.matrix.transpose = exchanging.matrix := by
  refine Mat.ext_entry ?_
  intro i j
  fin_cases i <;> fin_cases j <;> simp [exchanging]

theorem exchanging_not_posDef : ¬ exchanging.matrix.toMatrix.PosDef := by
  intro h
  have hdiag := h.diag_pos (i := 0)
  simp [exchanging] at hdiag

/-- The solves with the identity, and with a matrix that has to be refused. -/
theorem identity_solves_exchanging_refused :
    (∀ name b, ∃ x, (solveLinear .standard (.direct .cholesky name)
        (.matrix ⟨(Mat.identity : Mat ℝ 2 2), none⟩) b .absent .empty).1 = .ok x ∧
      Mat.identity.mulVec x = b) ∧
    ∀ name b, Direct.FindsSingular (solveLinear .standard (.direct .cholesky name)
      (.matrix exchanging) b .absent .empty).1 := by
  have hidentity : (Mat.identity : Mat ℝ 2 2).transpose = Mat.identity := by
    refine Mat.ext_entry ?_
    intro i j
    simp [Mat.identity, eq_comm]
  have hmirrored := Mat.mirrored_eq_iff.mpr hidentity
  have haccepts := accepts_of_identity hmirrored
  have hdef := haccepts.definite
  rw [hmirrored] at hdef
  have hreads (A : Mat ℝ 2 2) : Held.Reads (fun _ => .ofMat A) ⟨A, none⟩ := by
    rintro mark ⟨⟩
  constructor
  · intro name
    have hanswers := solveLinear_cholesky_answers (Kernels.standard_readsUpper 2)
      SolveCall.empty_sound _ (hreads Mat.identity) name .absent
    exact hanswers.solves two_pos hdef haccepts.pivots
  · intro name
    have hanswers := solveLinear_cholesky_answers (Kernels.standard_readsUpper 2)
      SolveCall.empty_sound exchanging (hreads _) name .absent
    exact hanswers.finds_iff.mpr (.inl exchanging_transpose) exchanging_not_posDef

/-- A shear, with the upper triangle of the identity. -/
noncomputable def shear : Held ℝ 2 2 := ⟨.ofFn ![![1, 0], ![1, 1]], none⟩

theorem shear_mirrored : shear.matrix.mirrored = Mat.identity := by
  refine Mat.ext_entry ?_
  intro i j
  fin_cases i <;> fin_cases j <;> simp [shear, Mat.identity]

/-- A shear is solved with as if it were the identity. -/
theorem shear_unsound :
    ¬ shear.matrix.toMatrix.PosDef ∧
    ∃ x, (solveLinear .standard (.direct .cholesky (.text "dense_cholesky")) (.matrix shear)
        #v[1, 0] .absent .empty).1 = .ok x ∧ x = #v[1, 0] ∧ shear.matrix.mulVec x ≠ #v[1, 0] := by
  constructor
  · intro h
    have hentry := congrArg (fun A : Mat ℝ 2 2 => A.entry 0 1) (Mat.transpose_of_posDef h)
    simp [shear] at hentry
  · obtain ⟨solve, hsolve, hinv⟩ := (Kernels.standard_readsUpper 2).cholesky_accepted
      (accepts_of_identity shear_mirrored)
    have hx : solve #v[1, 0] = #v[1, 0] := by
      have hb := hinv #v[1, 0]
      rwa [shear_mirrored, Mat.identity_mulVec] at hb
    have hr : shear.Reads fun _ => .ofMat shear.matrix := nofun
    refine ⟨solve #v[1, 0], ?_, hx, ?_⟩
    · rw [solveLinear_uncached Exact.eq_of_beq SolveCall.empty_sound hr]
      exact (congrArg (Direct.finish · #v[1, 0]) hsolve).trans (Direct.finish_prepared solve _)
    · rw [hx]
      intro h
      have hsecond : (#v[1, 0] : Vec ℝ 2).get 1 = 0 := rfl
      have hget := congrArg (fun v : Vec ℝ 2 => v.get 1) h
      simp [Exact.mulVec_get, Fin.sum_univ_two, shear, hsecond] at hget

end Cholesky

end NewtonSolver
