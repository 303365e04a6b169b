import Mathlib
import NewtonSolver.Proofs.Descent
import NewtonSolver.Proofs.Factor.Elimination
import NewtonSolver.Proofs.Jacobian.Representation
import NewtonSolver.Proofs.LineSearch.Backtracking

/-! Affine problems are solved in at most one update, with one factorization. The first full step leads
to the least squares point, from where the next direction is zero. -/
namespace NewtonSolver

variable {m n : Nat}

section Affine

variable {A : Mat ℝ m n} {b : Vec ℝ m} {x d : Vec ℝ n}

theorem Exact.mulVec_step (A : Mat ℝ m n) (b : Vec ℝ m) (x d : Vec ℝ n) :
    A.mulVec (x + (1 : ℝ) * d) - b = (A.mulVec x - b) + A.mulVec d := by
  rw [mulVec_along]
  refine Vec.ext_get ?_
  intro i
  simp

namespace Mat.SolvesNormal

/-- The full step along a direction that solves the normal equations leads to a point that does. -/
theorem step (hd : A.SolvesNormal (-(A.mulVec x - b)) d) :
    A.SolvesNormal b (x + (1 : ℝ) * d) := by
  have hsum : A.vecMul ((A.mulVec x - b) + A.mulVec d) =
      A.vecMul (A.mulVec x - b) + A.vecMul (A.mulVec d) := Exact.mulVec_add A.transpose _ _
  rw [solvesNormal_iff, Exact.mulVec_step, hsum, hd.vecMul_direction]
  refine Vec.ext_get ?_
  intro i
  simp

/-- From such a point the direction is zero. -/
theorem direction_eq_zero (hx : A.SolvesNormal b x) (hA : Function.Injective A.mulVec)
    (hd : A.SolvesNormal (-(A.mulVec x - b)) d) : d = 0 := by
  refine gram_injective hA ?_
  rw [gram_mulVec, hd.vecMul_direction, solvesNormal_iff.mp hx, Exact.mulVec_zero]
  refine Vec.ext_get ?_
  intro i
  simp

/-- The full step takes away half of what the slope predicts. -/
theorem halfSquare_step (hd : A.SolvesNormal (-(A.mulVec x - b)) d) :
    LineSearch.halfSquare (A.mulVec (x + (1 : ℝ) * d) - b) =
      LineSearch.halfSquare (A.mulVec x - b) +
        1 / 2 * Vec.dot (A.mulVec x - b) (A.mulVec d) := by
  rw [Exact.mulVec_step, Exact.halfSquare_eq, Exact.halfSquare_eq, Exact.sumSquares_add,
    hd.dot_residual]
  ring

end Mat.SolvesNormal

end Affine

theorem LineSearch.isDescent_of_neg {slope : ℝ} (h : slope < 0) : isDescent slope = true := by
  simp [isDescent, Scalar.isFinite, h]

namespace LineSearchStrategy

/-- A search that takes the full step where it brings half of the predicted decrease: none at all, or
backtracking with usable fields that asks for no more. -/
inductive TakesFullStep : LineSearchStrategy ℝ → Prop
  | fullStep (name : Setting ℝ) : TakesFullStep (.fullStep name)
  | backtracking {fields : BacktrackingFields ℝ} {s : LineSearch.Backtracking ℝ}
    (hv : (LineSearchStrategy.backtracking fields).validate = .ok ())
    (hs : LineSearch.Backtracking.ofFields fields = .ok s) (hc : s.decrease ≤ 1 / 2) :
    TakesFullStep (.backtracking fields)

theorem TakesFullStep.select_eq_one {strategy : LineSearchStrategy ℝ}
    (h : strategy.TakesFullStep) {merit : LineSearch.Merit ℝ}
    (hslope : strategy.isFullStep = false → merit.slopeAtZero < 0 ∧
      merit.value 1 ≤ merit.valueAtZero + 1 / 2 * merit.slopeAtZero) :
    (LineSearch.select strategy merit).step = .ok 1 := by
  cases h with
  | fullStep name => rfl
  | @backtracking fields s hv hs hc =>
    obtain ⟨hneg, hhalf⟩ := hslope rfl
    obtain ⟨k, hk⟩ : ∃ k, s.maxSteps = k + 1 :=
      ⟨s.maxSteps - 1, by have := LineSearch.Backtracking.one_le_maxSteps hv hs; omega⟩
    have hdescent := LineSearch.isDescent_of_neg hneg
    have henough : merit.value 1 ≤ merit.valueAtZero + s.decrease * 1 * merit.slopeAtZero := by
      nlinarith
    have haccepts : s.accepts merit 1 (merit.value 1) = true := by
      simpa [LineSearch.Backtracking.accepts, Scalar.isFinite] using henough
    have hsearch : s.search merit s.maxSteps 1 = (some 1, 1) := by
      simp [hk, LineSearch.Backtracking.search, haccepts]
    simp [LineSearch.select, LineSearch.backtrack, hdescent, hs, hsearch]

end LineSearchStrategy

namespace Setup

variable {S : Setup ℝ m n} {A : Mat ℝ m n} {b : Vec ℝ m} {start : Vec ℝ n}

/-- The residual is `A x - b`, and steps are taken with its matrix, which comes with both axes, by an exact
factorization. -/
structure StepsExactly (S : Setup ℝ m n) (A : Mat ℝ m n) (b : Vec ℝ m) (start : Vec ℝ n) : Prop where
  value : ∀ x, S.problem.residual.value x = A.mulVec x - b
  jacobian : ∀ x, ∃ path, S.jacobianFrom start x = .ok (path, .matrix A) ∧ path.lacksRows = false
  independent : Function.Injective A.mulVec
  solver : ∃ f name, S.configuration.solverFor m n = .direct f (.text name) ∧
    S.kernels.SolvesExactly S.configuration f A
  lineSearch : S.configuration.lineSearch.TakesFullStep
  stepBound : 0 ≤ S.limits.stepTolerance

/-- The run converges with at most one update and at most one factorization. An update leads to the only
least squares point, which solves the equations if there are as many as unknowns. -/
def SolvedInOneUpdate (S : Setup ℝ m n) (A : Mat ℝ m n) (b : Vec ℝ m) (start : Vec ℝ n) : Prop :=
  ∃ final, (S.iterate start).ending = .finished final ∧ final.status = .converged ∧
    final.iteration ≤ 1 ∧ final.stats.factorizations ≤ 1 ∧
    (final.iteration = 1 → A.IsLeastSquares b final.x ∧
      (∀ y, A.IsLeastSquares b y → y = final.x) ∧ (m = n → A.mulVec final.x = b))

/-- The run from the point on converges there, whatever budget is left. -/
structure ConvergesAt (S : Setup ℝ m n) (p : Progress ℝ m n) (final : IterationState ℝ m n) :
    Prop where
  ending : ∀ updates, (S.trace updates p).ending = .finished final
  x : final.x = p.x
  status : final.status = .converged
  iteration : final.iteration = p.iteration
  factorizations : final.stats.factorizations ≤ 1

section Point

variable {solver : LinearSolver ℝ} {solve : Vec ℝ m → Vec ℝ n} {shared : LinearCache ℝ → Prop}
  {earlier : List (Vec ℝ n)} {p : Progress ℝ m n} (h : S.StepsExactly A b start)
  (hsolver : S.configuration.solverFor m n = solver)
  (hrep : Descent.Repeats S.kernels S.configuration solver A solve shared)
  (hr : S.Reached start earlier p) (hc : shared p.cache)

include h hsolver hrep hr hc

/-- At every point the run converges or has a direction that solves the normal equations. -/
theorem converges_or_heads :
    (∃ final, S.ConvergesAt p final) ∨ ∃ v heading, S.visit p = .ok v ∧ S.aim v = .ok heading ∧
      S.HeadsFrom start p heading ∧ shared heading.progress.cache ∧ heading.jacobian = .matrix A ∧
        heading.direction = solve (-(A.mulVec p.x - b)) := by
  have hf : (S.problem.residual.value p.x).allFinite = true := Exact.allFinite_vec _
  have honce := hrep.once p.cache hc
  by_cases ht : (S.problem.residual.value p.x).maxAbs ≤ S.limits.tolerance
  · exact .inl ⟨_, trace_ending_of_visit (visit_of_small hf ht), rfl, rfl, rfl, honce⟩
  · have hv := visit_of_large hf ht
    obtain ⟨path, hj, hrows⟩ := h.jacobian p.x
    have hpath := resolvePath_linearSolver (jacobianFrom_ok hj).1
    obtain ⟨cache, hd, hshared⟩ := hrep.compute_ok hc (S.problem.residual.value p.x)
    have hjv := (jacobianAt_eq hr hv).trans hj
    rw [← hsolver, ← hpath, ← direct_of_rows hrows] at hd
    by_cases hn : (solve (-S.problem.residual.value p.x)).norm ≤ S.limits.stepTolerance
    · exact .inl ⟨_, trace_ending_of_aim hv (aim_of_short hjv hd hn), rfl, rfl, rfl,
        hrep.once cache hshared⟩
    · have ha := aim_of_long hjv hd hn
      exact .inr ⟨_, _, hv, ha, aim_ok hr hv ha, hshared, rfl, by rw [h.value]⟩

end Point

section Update

variable {p : Progress ℝ m n} {heading : Heading ℝ m n} (h : S.StepsExactly A b start)
  (hh : S.HeadsFrom start p heading)

include h hh

theorem slope_neg (hd : A.SolvesNormal (-(A.mulVec p.x - b)) heading.direction) :
    Vec.dot (A.mulVec p.x - b) (A.mulVec heading.direction) < 0 := by
  have hne : (A.mulVec heading.direction).sumSquares ≠ 0 := by
    intro h0
    apply hh.long
    rw [Mat.eq_zero_of_mulVec_sumSquares h.independent h0, Exact.norm_zero]
    exact h.stepBound
  have hpos := lt_of_le_of_ne (Exact.sumSquares_nonneg (A.mulVec heading.direction)) (Ne.symm hne)
  rw [hd.dot_residual]
  linarith

/-- The full step is taken. -/
theorem advances_fully (hJ : heading.jacobian = .matrix A)
    (hd : A.SolvesNormal (-(A.mulVec p.x - b)) heading.direction) :
    ∃ q, S.advance heading = .ok q ∧ q.x = p.x + (1 : ℝ) * heading.direction ∧
      q.iteration = p.iteration + 1 ∧ q.cache = heading.progress.cache := by
  have hF : heading.residual = A.mulVec p.x - b := hh.residual.trans (h.value p.x)
  have hstep {slope : ℝ} (hs : heading.slope S.configuration.lineSearch = .ok slope)
      (ha : (S.selection heading slope).step = .ok 1) :
      ∃ q, S.advance heading = .ok q ∧ q.x = p.x + (1 : ℝ) * heading.direction ∧
        q.iteration = p.iteration + 1 ∧ q.cache = heading.progress.cache :=
    ⟨_, advance_of_step hs ha, by rw [← hh.x]; rfl, by rw [← hh.iteration]; rfl, rfl⟩
  by_cases hfull : S.configuration.lineSearch.isFullStep = true
  · have hs : heading.slope S.configuration.lineSearch = .ok 0 := by simp [Heading.slope, hfull]
    exact hstep hs (h.lineSearch.select_eq_one (by simp [hfull]))
  · have hs : heading.slope S.configuration.lineSearch =
        .ok (Vec.dot (A.mulVec p.x - b) (A.mulVec heading.direction)) := by
      simp [Heading.slope, hfull, hJ, JacobianInfo.apply, hF]
    refine hstep hs (h.lineSearch.select_eq_one fun _ => ⟨slope_neg h hh hd, ?_⟩)
    simp only [LineSearch.Merit.along, hh.x, h.value, hF]
    exact hd.halfSquare_step.le

end Update

/-- Whatever the start and the limits, an affine problem is solved in at most one update. -/
theorem affine_solvedInOneUpdate (h : S.StepsExactly A b start) (hmax : 1 ≤ S.limits.maxIters) :
    S.SolvedInOneUpdate A b start := by
  obtain ⟨f, name, hsolver, hexact⟩ := h.solver
  obtain ⟨solve, shared, hrep⟩ := Descent.exists_repeats h.independent hexact
  obtain ⟨updates, hupdates⟩ : ∃ k, S.limits.maxIters = k + 1 := ⟨S.limits.maxIters - 1, by omega⟩
  have hrun : S.iterate start = S.trace (updates + 1) (.initial start) := by
    simp [iterate, hupdates]
  rw [SolvedInOneUpdate, hrun]
  rcases converges_or_heads h hsolver hrep reached_initial hrep.empty with
    ⟨final, hfinal⟩ | ⟨v, heading, hv, ha, hh, hshared, hJ, hdir⟩
  · have hi : final.iteration = 0 := hfinal.iteration
    exact ⟨final, hfinal.ending _, hfinal.status, by omega, hfinal.factorizations, by simp [hi]⟩
  · have hd : A.SolvesNormal (-(A.mulVec start - b)) heading.direction := hdir ▸ hrep.normal _
    obtain ⟨q, hadvance, hx, hi, hcache⟩ := advances_fully h hh hJ hd
    have hnext : S.next v = .ok q := Outcome.bind_eq_ok.mpr ⟨heading, ha, hadvance⟩
    have hq : A.SolvesNormal b q.x := hx ▸ hd.step
    rw [trace_ending_of_next hv hnext]
    rcases converges_or_heads h hsolver hrep (next_ok reached_initial hv hnext).1
      (hcache ▸ hshared) with ⟨final, hfinal⟩ | ⟨_, again, -, -, hagain, -, -, hdir'⟩
    · have hone : final.iteration = 1 := hfinal.iteration.trans hi
      refine ⟨final, hfinal.ending _, hfinal.status, hone.le, hfinal.factorizations, fun _ => ?_⟩
      rw [hfinal.x]
      refine ⟨hq.isLeastSquares, fun y => hq.unique h.independent, ?_⟩
      rintro rfl
      obtain ⟨y, hy⟩ := Mat.mulVec_surjective h.independent b
      exact hq.mulVec_eq hy
    · -- The second direction is zero, and so not longer than the bound.
      have hzero : again.direction = 0 :=
        hq.direction_eq_zero h.independent (hdir' ▸ hrep.normal _)
      refine absurd ?_ hagain.long
      rw [hzero, Exact.norm_zero]
      exact h.stepBound

/-- Two equations in one unknown that contradict each other, by normal equations and a search that asks
for half of the predicted decrease. -/
noncomputable def overdetermined : Setup ℝ 2 1 where
  kernels := .standard
  problem :=
    { residual := .affine (.ofFn fun _ _ => 1) (.ofFn fun i => (i.val : ℝ))
      jacobian := none
      products := none
      transposedProducts := none
      sparsity := none
      traceable := true }
  configuration :=
    { needsMatrix := none
      kind := .gaussNewton
      linearSolver := some (.direct .lu (.text "dense_lu"))
      preconditioner := none
      lineSearch := .backtracking ⟨.real Scalar.half, .real Scalar.half, .whole 20, .whole 2⟩
      jacobianBackend := none
      transposedBackend := none
      policy := .fail }
  limits := ⟨1, Scalar.decimal 1 2, 0⟩

theorem overdetermined_gram :
    (Mat.ofFn fun _ _ => 1 : Mat ℝ 2 1).transpose.mul (Mat.ofFn fun _ _ => 1) =
      (Mat.ofFn fun _ _ => 2 : Mat ℝ 1 1) := by
  refine Mat.ext_entry ?_
  intro i j
  simp only [Exact.entry_mul, Mat.entry_transpose, Mat.entry_ofFn, Fin.sum_univ_two]
  norm_num

theorem overdetermined_isAffine :
    overdetermined.problem.IsAffine (.ofFn fun _ _ => 1) (.ofFn fun i => (i.val : ℝ)) where
  vector := rfl
  value _ := rfl
  automatic _ := ⟨rfl, fun _ _ => rfl, fun _ _ => rfl⟩
  jacobian := nofun
  products := nofun
  transposedProducts := nofun
  sparsity := nofun

theorem overdetermined_stepsExactly (start : Vec ℝ 1) :
    overdetermined.StepsExactly (.ofFn fun _ _ => 1) (.ofFn fun i => (i.val : ℝ)) start where
  value _ := rfl
  jacobian := jacobianFrom_eq_matrix overdetermined_isAffine (by rintro B (⟨⟨⟩⟩ | ⟨⟨⟩⟩)) rfl
    (by simp [Problem.IsLimited, overdetermined]) start
  independent := by
    intro u v huv
    have h0 := congrArg (fun w : Vec ℝ 2 => w.get 0) huv
    refine Vec.ext_get ?_
    intro j
    simpa [Exact.mulVec_get, Subsingleton.elim j 0] using h0
  solver := ⟨.lu, "dense_lu", rfl,
    .normal (.inl rfl) (.inl rfl) (.of_library nofun)
      (overdetermined_gram ▸ .standard_lu_one two_ne_zero)⟩
  lineSearch := by
    refine .backtracking ?_ rfl ?_
    · norm_num [LineSearchStrategy.validate, Setting.isInsideUnit, Setting.numberOr, Setting.number?,
        Setting.isBelow, liftFault, require, Setting.same, Exact.half_eq]
    · exact Exact.half_eq.le
  stepBound := le_rfl

/-- The budget is used up, and what is left of the equations is far above the bound. -/
theorem overdetermined_solved :
    overdetermined.StepsExactly (.ofFn fun _ _ => 1) (.ofFn fun i => (i.val : ℝ)) #v[5] ∧
      1 ≤ overdetermined.limits.maxIters ∧
        overdetermined.SolvedInOneUpdate (.ofFn fun _ _ => 1) (.ofFn fun i => (i.val : ℝ)) #v[5] :=
  ⟨overdetermined_stepsExactly _, le_rfl,
    affine_solvedInOneUpdate (overdetermined_stepsExactly _) le_rfl⟩

end Setup

end NewtonSolver
