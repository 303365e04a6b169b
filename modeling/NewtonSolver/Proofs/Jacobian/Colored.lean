import NewtonSolver.Proofs.Jacobian.Decompression
import NewtonSolver.Proofs.Run.Points

/-! Colored Jacobians are the dense ones wherever the pattern has all entries that are not zero. A pattern
that is found about a point has them there. -/
namespace NewtonSolver

variable {m n : Nat}

/-- The residual is a vector function, and its products are those with the matrix at each point. -/
structure Residual.HasJacobian (F : Residual ℝ m n) (J : Vec ℝ n → Mat ℝ m n) : Prop where
  vector : F.isBare = false
  forward : ∀ x v, F.forward x v = (J x).mulVec v
  backward : ∀ x u, F.backward x u = (J x).vecMul u

variable {F : Residual ℝ m n} {P : Problem ℝ m n} {J : Vec ℝ n → Mat ℝ m n} {d : DenseBackend ℝ}
  {x z : Vec ℝ n} {pattern : Pattern m n}

namespace Residual.HasJacobian

theorem forwardJacobian_eq (hF : F.HasJacobian J) (x : Vec ℝ n) : F.forwardJacobian x = J x := by
  refine Mat.ext_entry ?_
  intro i j
  rw [forwardJacobian, Mat.entry_ofColumns, Vector.get_ofFn, hF.forward, Exact.mulVec_get]
  simp [Vec.unit]

theorem backwardJacobian_eq (hF : F.HasJacobian J) (x : Vec ℝ n) : F.backwardJacobian x = J x := by
  refine Mat.ext_entry ?_
  intro i j
  rw [backwardJacobian, Mat.entry, Vector.get_ofFn, hF.backward, Exact.vecMul_get]
  simp [Vec.unit]

theorem at_point (hF : F.HasJacobian J) (x : Vec ℝ n) : F.HasJacobianAt (J x) x :=
  ⟨hF.vector, hF.forward x, hF.backward x⟩

/-- One product for each color is enough, where the pattern covers the Jacobian. -/
theorem compressedJacobian_eq (hF : F.HasJacobian J) (hd : d.mode ≠ .finite)
    (hP : pattern.Covers (J z)) :
    F.compressedJacobian d pattern (.greedy d.mode pattern) z = .ok (J z) := by
  have hcount (color : Nat) (h : color ∈ (Compression.greedy d.mode pattern).colors) :
      color < (Compression.greedy d.mode pattern).count := Compression.lt_count _ h
  rw [compressedJacobian,
    (hF.at_point z).coloredJacobian_ok (Compression.greedy_suits hd pattern) hcount,
    Compression.gathered_eq (Compression.greedy_valid d.mode pattern) hP]

end Residual.HasJacobian

namespace Pattern

theorem covers_ofMat (A : Mat ℝ m n) : (ofMat A).Covers A := by
  intro i j hne
  have he : (ofMat A).entry i j = isNonzero (A.entry i j) := by simp [ofMat, Mat.entry]
  rw [he, isNonzero, Bool.not_eq_true', ← Bool.not_eq_true, Exact.beq_eq]
  exact hne

theorem covers_union {Q : Pattern m n} {A : Mat ℝ m n} (h : pattern.Covers A) :
    (pattern.union Q).Covers A := by
  intro i j hne
  simp [union, h i j hne]

theorem foldlM_covers {A : Mat ℝ m n} (found : Random.Block → Pattern m n)
    (keys : List Random.Block) (h : pattern.Covers A) :
    ∃ Q, keys.foldlM (fun P key => (.ok (P.union (found key)) : Except Fault (Pattern m n))) pattern =
      .ok Q ∧ Q.Covers A := by
  induction keys generalizing pattern with
  | nil => exact ⟨pattern, rfl, h⟩
  | cons key keys ih => exact ih (covers_union h)

/-- A pattern that is found has what the Jacobian has at the point itself. -/
theorem detect_covers (J : Vec ℝ n → Mat ℝ m n) (x : Vec ℝ n) (points seed : Nat) :
    ∃ Q, detect (fun z => .ok (J z)) x points seed = .ok Q ∧ Q.Covers (J x) :=
  foldlM_covers (fun key => ofMat (J (perturb x key))) _ (covers_ofMat (J x))

end Pattern

namespace Problem

theorem automaticMatrix_eq (hF : P.residual.HasJacobian J) (mode : DerivativeMode) :
    P.automaticMatrix mode = fun x => .ok (J x) := by
  funext x
  have ha : P.automatic mode x = J x := by
    cases mode
    · exact hF.forwardJacobian_eq x
    · exact hF.backwardJacobian_eq x
    · exact hF.forwardJacobian_eq x
  simp [automaticMatrix, ha]

theorem dense_eq (hF : P.residual.HasJacobian J) (ht : P.traceable = true) (hd : d.mode ≠ .finite) :
    P.dense (some d) = .ok (fun x => .ok (J x), .automatic d.mode) := by
  cases d with
  | finite scheme step => exact absurd rfl hd
  | forward name => simp [dense, dense.automatically, requireTraceable, ht, automaticMatrix_eq hF]
  | reverse name => simp [dense, dense.automatically, requireTraceable, ht, automaticMatrix_eq hF]

/-- Without a stated pattern one is found that covers the Jacobian at the point. -/
theorem pattern_covers (hF : P.residual.HasJacobian J) (ht : P.traceable = true)
    (hd : d.mode ≠ .finite) (hs : P.sparsity = none) (x : Vec ℝ n) :
    ∃ pattern, P.pattern d x = .ok pattern ∧ pattern.Covers (J x) := by
  obtain ⟨Q, hQ, hc⟩ := Pattern.detect_covers J x 2 0
  refine ⟨Q, ?_, hc⟩
  simp [pattern, hs, hF.vector, dense_eq hF ht hd, hQ]

theorem sparse_eq (ht : P.traceable = true) (hp : P.pattern d x = .ok pattern) :
    P.sparse d x = .ok (P.residual.compressedJacobian d pattern (.greedy d.mode pattern),
      .sparse d.mode (Compression.greedy d.mode pattern).count) := by
  simp [sparse, requireTraceable, ht, hp]

theorem sparse_ok {materialize : Materializer ℝ m n} {source : JacobianSource}
    (ht : P.traceable = true) (h : P.sparse d x = .ok (materialize, source)) :
    ∃ pattern, P.pattern d x = .ok pattern ∧
      materialize = P.residual.compressedJacobian d pattern (.greedy d.mode pattern) := by
  cases hp : P.pattern d x with
  | error f => simp [sparse, requireTraceable, ht, hp] at h
  | ok pattern =>
    rw [sparse_eq ht hp] at h
    cases h
    exact ⟨pattern, rfl, rfl⟩

/-- The path of a run that needs matrices takes them from the colored products. -/
theorem resolvePath_sparse {c : Configuration ℝ} (hj : P.jacobian = none)
    (hb : c.jacobianBackend = some (.sparse d)) (hc : c.concrete = true) :
    P.resolvePath c x = do
      let (materialize, source) ← P.sparse d x
      return ⟨c.solverFor m n, source, some materialize, c.leastSquares m n,
        P.residual.isBare && source.isAutomatic⟩ := by
  simp [resolvePath, hc, materializer, hj, hb]

end Problem

namespace Setup

/-- The matrices of a run by colored products are the dense ones wherever the pattern covers them, and
where the pattern is found, the first one is. -/
structure ColoredIsDense (S : Setup ℝ m n) (d : DenseBackend ℝ) (J : Vec ℝ n → Mat ℝ m n) : Prop where
  covered : ∀ x path materialize, S.problem.resolvePath S.configuration x = .ok path →
    path.materialize = some materialize →
      ∃ pattern, S.problem.pattern d x = .ok pattern ∧
        ∀ z, pattern.Covers (J z) → materialize z = .ok (J z) ∧
          S.problem.automaticMatrix d.mode z = .ok (J z)
  found : S.configuration.concrete = true → S.problem.sparsity = none →
    ∀ x, ∃ path materialize, S.problem.resolvePath S.configuration x = .ok path ∧
      path.materialize = some materialize ∧ materialize x = .ok (J x) ∧
      S.problem.automaticMatrix d.mode x = .ok (J x) ∧
      ∀ v, S.visit (.initial x) = .ok v → S.jacobianAt v = .ok (path, .matrix (J x))

variable {S : Setup ℝ m n}

theorem colored_eq_dense (hF : S.problem.residual.HasJacobian J) (ht : S.problem.traceable = true)
    (hj : S.problem.jacobian = none) (hd : d.mode ≠ .finite)
    (hb : S.configuration.jacobianBackend = some (.sparse d)) : S.ColoredIsDense d J := by
  have hauto := Problem.automaticMatrix_eq hF d.mode
  constructor
  · intro x path materialize hp hm
    by_cases hc : S.configuration.concrete = true
    · rw [Problem.resolvePath_sparse hj hb hc] at hp
      obtain ⟨⟨materialize', source⟩, hs, hp⟩ := Outcome.bind_eq_ok.mp hp
      cases hp
      cases hm
      obtain ⟨pattern, hpat, rfl⟩ := Problem.sparse_ok ht hs
      refine ⟨pattern, hpat, ?_⟩
      intro z hcov
      exact ⟨hF.compressedJacobian_eq hd hcov, congrFun hauto z⟩
    · simp only [Problem.resolvePath, hc] at hp
      cases hp
      cases hm
  · intro hc hs x
    obtain ⟨pattern, hpat, hcov⟩ := Problem.pattern_covers hF ht hd hs x
    have hz := hF.compressedJacobian_eq hd hcov
    have hpath := Problem.resolvePath_sparse (x := x) hj hb hc
    rw [Problem.sparse_eq ht hpat, Outcome.ok_bind] at hpath
    refine ⟨_, _, hpath, rfl, hz, congrFun hauto x, ?_⟩
    intro v hv
    rw [jacobianAt_eq reached_initial hv, jacobianFrom]
    simp [Progress.initial, hpath, Problem.acquire, hz]

/-- Two equations without common unknowns, whose pattern is to be found and needs one color. -/
noncomputable def uncoupled : Setup ℝ 2 2 where
  kernels := .standard
  problem :=
    { residual := .affine Mat.identity (Vector.replicate 2 1)
      jacobian := none
      products := none
      transposedProducts := none
      sparsity := none
      traceable := true }
  configuration :=
    { needsMatrix := none
      kind := .newton
      linearSolver := none
      preconditioner := none
      lineSearch := .fullStep (.text "none")
      jacobianBackend := some (.sparse (.reverse (.text "reverse")))
      transposedBackend := none
      policy := .fail }
  limits := ⟨100, 1, 1⟩

theorem uncoupled_coloredIsDense :
    uncoupled.ColoredIsDense (.reverse (.text "reverse")) fun _ => Mat.identity :=
  colored_eq_dense ⟨rfl, fun _ _ => rfl, fun _ _ => rfl⟩ rfl rfl (by decide) rfl

end Setup

end NewtonSolver
