import Mathlib
import NewtonSolver.Proofs.Descent
import NewtonSolver.Proofs.Factor.SingleColumn
import NewtonSolver.Proofs.LinearSolver.CacheTransparency

/-! Least squares solves, whatever was factorized before. Orthogonal factors give a least squares point of
a tall matrix and the shortest solution of a wide system, and refuse every matrix without full rank. The
pseudo-inverse gives the shortest least squares point of any matrix. -/
namespace NewtonSolver

variable {m n : Nat} {K : Kernels ℝ} {A : Mat ℝ m n} {b : Vec ℝ m} {solve : Vec ℝ m → Vec ℝ n}

namespace Direct

variable {usage : Usage} {factorize : Mat ℝ m n → Prepared ℝ m n} {f : Factorization}
  {e : LinearSolveFailure ℝ}

theorem leastSquares?_qr (K : Kernels ℝ) (m n : Nat) :
    ∃ usage factorize, leastSquares? K m n .qr = some (usage, factorize) := by
  unfold leastSquares?
  split <;> exact ⟨_, _, rfl⟩

/-- A least squares solve is refused for nothing but a lack of rank. -/
theorem leastSquares?_error (hf : leastSquares? K m n f = some (usage, factorize))
    (h : factorize A = .error e) : e.reason = .singular := by
  cases f with
  | lu => cases hf
  | cholesky => cases hf
  | svd =>
    cases hf
    cases h
  | qr =>
    simp only [leastSquares?, Option.some.injEq] at hf
    split at hf <;>
    · cases hf
      simp only [qr, qrTransposed] at h
      split at h <;> cases h
      rfl

end Direct

/-- What a solve by orthogonal factors may answer. -/
structure QR.Answers (A : Mat ℝ m n) (b : Vec ℝ m) (answer : Except (Failure ℝ) (Vec ℝ n)) :
    Prop where
  ends : (∃ x, answer = .ok x) ∨ ∃ e, answer = .error (.linearSolve e) ∧ e.reason = .singular
  tall : n ≤ m → ∀ x, answer = .ok x → A.IsLeastSquares b x
  wide : m < n → ∀ x, answer = .ok x →
    A.mulVec x = b ∧ ∀ y, A.mulVec y = b → x.norm ≤ y.norm
  deficient : A.toMatrix.rank ≠ min m n →
    ∃ e, answer = .error (.linearSolve e) ∧ e.reason = .singular

namespace QR.Answers

theorem refused {e : LinearSolveFailure ℝ} (he : e.reason = .singular) :
    Answers A b (.error (.linearSolve e)) where
  ends := .inr ⟨e, rfl, he⟩
  tall := nofun
  wide := nofun
  deficient _ := ⟨e, rfl, he⟩

theorem solved {x : Vec ℝ n} (hrank : A.toMatrix.rank = min m n)
    (htall : n ≤ m → A.IsLeastSquares b x)
    (hwide : m < n → A.mulVec x = b ∧ ∀ y, A.mulVec y = b → x.norm ≤ y.norm) :
    Answers A b (.ok x) where
  ends := .inl ⟨x, rfl⟩
  tall := by
    rintro hmn _ ⟨⟩
    exact htall hmn
  wide := by
    rintro hmn _ ⟨⟩
    exact hwide hmn
  deficient hne := absurd hrank hne

end QR.Answers

namespace Kernels.IsExactFor

variable (h : K.IsExactFor m n .qr)

include h

theorem qr_answers (hmn : n ≤ m) (hs : Direct.qr K A = .ok solve) (b : Vec ℝ m) :
    QR.Answers A b (.ok (solve b)) := by
  obtain ⟨hinj, hfit⟩ := qr_fits (h.qr_exact hmn A) hs
  refine .solved ?_ (fun _ => (hfit.normal b).isLeastSquares) (fun hlt => absurd hmn (not_le.mpr hlt))
  rw [Mat.rank_eq_cols hinj, min_eq_right hmn]

theorem qrTransposed_answers (hmn : ¬ n ≤ m) (hs : Direct.qrTransposed K A = .ok solve)
    (b : Vec ℝ m) : QR.Answers A b (.ok (solve b)) := by
  obtain ⟨hinv, hrow⟩ := h.qrTransposed_inverts hmn hs
  refine .solved ?_ (fun hle => absurd hle hmn) (fun _ => ⟨hinv b, ?_⟩)
  · rw [Mat.rank_eq_rows fun b => ⟨solve b, hinv b⟩, min_eq_left (not_le.mp hmn).le]
  · intro y hy
    exact (hrow b).norm_le (hy.trans (hinv b).symm)

theorem leastSquares_answers {usage : Usage} {factorize : Mat ℝ m n → Direct.Prepared ℝ m n}
    (hf : Direct.leastSquares? K m n .qr = some (usage, factorize)) (b : Vec ℝ m) :
    QR.Answers A b (Direct.finish (factorize A) b) := by
  cases hs : factorize A with
  | error e => exact .refused (Direct.leastSquares?_error hf hs)
  | ok solve =>
    rw [Direct.finish_prepared]
    simp only [Direct.leastSquares?, Option.some.injEq] at hf
    split at hf
    case isTrue hmn =>
      cases hf
      exact h.qr_answers hmn hs b
    case isFalse hmn =>
      cases hf
      exact h.qrTransposed_answers hmn hs b

end Kernels.IsExactFor

/-- Solves by orthogonal factors and by the pseudo-inverse, for any shape and any rank. -/
theorem solveLeastSquares_correct {memory : Nat → Table ℝ} {cache : LinearCache ℝ}
    (hqr : K.IsExactFor m n .qr) (hsvd : K.IsExactFor m n .svd) (hc : cache.Sound K memory)
    (held : Held ℝ m n) (hr : held.Reads memory) (b : Vec ℝ m) :
    (∀ name, QR.Answers held.matrix b
      (solveLeastSquares K (.direct .qr name) held b cache).1) ∧
    ∀ name, ∃ x, (solveLeastSquares K (.direct .svd name) held b cache).1 = .ok x ∧
      held.matrix.IsShortestLeastSquares b x := by
  constructor
  · intro name
    obtain ⟨usage, factorize, hf⟩ := Direct.leastSquares?_qr K m n
    rw [solveLeastSquares_uncached Exact.eq_of_beq hc hr name hf b]
    exact hqr.leastSquares_answers hf b
  · intro name
    have hexact := hsvd held.matrix
    refine ⟨(K.pseudoInverse m n held.matrix).mulVec b, ?_, ?_⟩
    · rw [solveLeastSquares_uncached Exact.eq_of_beq hc hr name rfl b]
      exact Direct.finish_prepared _ b
    · exact (hexact.solvesNormal b).isShortest (hexact.mulVec_inRowSpace b)

/-- Factors of the transposed matrix that pass the singularity test give a solution. -/
theorem Kernels.FactorsExactly.qrTransposed_ok (h : K.FactorsExactly .qr A.transpose) :
    ∃ solve, Direct.qrTransposed K A = .ok solve := by
  cases h with
  | qr _ ht =>
    refine ⟨fun b => (K.qr n m A.transpose).q.mulVec
      ((K.qr n m A.transpose).r.transpose.solveLower b), ?_⟩
    simp only [Direct.qrTransposed, ht]
    rfl

/-- One equation in two unknowns. -/
noncomputable def pairSum : Held ℝ 1 2 := ⟨.ofFn fun _ _ => 1, none⟩

theorem pairSum_reads : pairSum.Reads fun _ => .ofMat pairSum.matrix := nofun

theorem pairSum_returns (name : Setting ℝ) :
    ∃ x, (solveLeastSquares .standard (.direct .qr name) pairSum #v[2] .empty).1 = .ok x := by
  have hne : pairSum.matrix.transpose.squares ≠ 0 := by norm_num [Mat.squares, pairSum]
  have hfactors := Kernels.FactorsExactly.standard_qr_column (by norm_num [Scalar.epsilon]) hne
  obtain ⟨solve, hsolve⟩ := hfactors.qrTransposed_ok
  refine ⟨solve #v[2], ?_⟩
  rw [solveLeastSquares_uncached Exact.eq_of_beq SolveCall.empty_sound pairSum_reads
    name rfl]
  exact (congrArg (Direct.finish · #v[2]) hsolve).trans (Direct.finish_prepared solve _)

theorem pairSum_shortest :
    (∃ x, (solveLeastSquares .standard (.direct .qr (.text "dense_qr")) pairSum #v[2] .empty).1 =
        .ok x ∧ pairSum.matrix.mulVec x = #v[2] ∧
          ∀ y, pairSum.matrix.mulVec y = #v[2] → x.norm ≤ y.norm) ∧
    ∃ x, (solveLeastSquares .standard (.direct .svd (.text "dense_svd")) pairSum #v[2] .empty).1 =
        .ok x ∧ pairSum.matrix.IsShortestLeastSquares #v[2] x := by
  obtain ⟨hqr, hsvd⟩ := solveLeastSquares_correct (Kernels.standard_isExactFor (f := .qr) nofun 1 2)
    (Kernels.standard_svd_row (by norm_num [Scalar.epsilon]) (by decide)) SolveCall.empty_sound
    pairSum pairSum_reads #v[2]
  obtain ⟨x, hx⟩ := pairSum_returns (.text "dense_qr")
  exact ⟨⟨x, hx, (hqr _).wide (by decide) x hx⟩, hsvd _⟩

end NewtonSolver
