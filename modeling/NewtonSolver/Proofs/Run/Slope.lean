import Mathlib
import NewtonSolver.Proofs.Descent.Direct
import NewtonSolver.Proofs.Factor.Reflections
import NewtonSolver.Proofs.Run.Affine
import NewtonSolver.Proofs.Run.Endings

/-! Directions of exact direct solvers go down, for any matrix in the place of the Jacobian. The test of
the residual and that of the step put the points aside where the slope could be zero. -/
namespace NewtonSolver

variable {m n : Nat}

namespace LineSearch

variable {R : Type} [Scalar R]

/-- Only slopes that do not go down are refused as such. -/
theorem select_notDescent {strategy : LineSearchStrategy R} {merit : Merit R} {slope : R}
    (h : (select strategy merit).step = .error (.lineSearch (.notDescent slope))) :
    strategy.isFullStep = false ∧ isDescent merit.slopeAtZero = false := by
  cases strategy with
  | fullStep name => cases h
  | backtracking fields =>
    refine ⟨rfl, ?_⟩
    simp only [select, backtrack] at h
    split at h
    · split at h
      · next f _ => cases f <;> cases h
      · split at h <;> cases h
    · next hd => simpa using hd
  | external method =>
    simp only [select, consult] at h
    split at h
    · simp only [usable] at h
      split at h
      · cases h
      · split at h <;> cases h
    · cases h
    · cases h

end LineSearch

namespace Setup

section Cache

variable {R : Type} [Scalar R] {S : Setup R m n} {start : Vec R n} {memory : Nat → Table R}
  (heq : ∀ a b : R, (a == b) = true → a = b)

include heq

theorem descentAt_sound (x : Vec R n) {cache : LinearCache R} (hc : cache.Sound S.kernels memory) :
    (S.descentAt start x cache).2.Sound S.kernels memory := by
  unfold descentAt
  split
  case h_1 => exact hc
  case h_2 path J _ =>
    unfold direct
    split
    · exact hc
    · exact Descent.compute_sound heq hc S.configuration J _

theorem cacheAfter_sound (points : List (Vec R n)) :
    (S.cacheAfter start points).Sound S.kernels memory := by
  induction points using List.reverseRecOn with
  | nil => exact SolveCall.empty_sound
  | append_singleton points x ih =>
    rw [cacheAfter_concat]
    exact descentAt_sound heq x ih

end Cache

/-- The slope is known and goes down. It is what the length of `J d` predicts, and for a square Newton
step by factors of `J` also what the length of the residual does. -/
structure GoesDown (S : Setup ℝ m n) (f : Factorization) (h : Heading ℝ m n) (J : Mat ℝ m n) : Prop
    where
  jacobian : h.jacobian = .matrix J
  slope : S.configuration.lineSearch.isFullStep = false →
    h.slope S.configuration.lineSearch = .ok (Vec.dot h.residual (J.mulVec h.direction))
  negative : Vec.dot h.residual (J.mulVec h.direction) < 0
  fitted : Vec.dot h.residual (J.mulVec h.direction) = -(J.mulVec h.direction).sumSquares
  product_ne_zero : J.mulVec h.direction ≠ 0
  root : S.configuration.kind = .newton → m = n → f = .lu ∨ f = .qr →
    Vec.dot h.residual (J.mulVec h.direction) = -h.residual.sumSquares

/-- Every direction of a run goes down, and no line search is refused for want of that. -/
structure DescendsDirectly (S : Setup ℝ m n) (f : Factorization) (start : Vec ℝ n) : Prop where
  headings : ∀ i h, S.Heads start i h → ∃ J, S.GoesDown f h J
  searches : ∀ i h slope, S.Heads start i h → h.slope S.configuration.lineSearch = .ok slope →
    ∀ a, (S.selection h slope).step ≠ .error (.lineSearch (.notDescent a))
  final : ∀ s, (S.iterate start).ending = .finished s →
    ∀ a, s.status ≠ .failed (.lineSearch (.notDescent a))

variable {S : Setup ℝ m n} {f : Factorization} {name : Setting ℝ} {start : Vec ℝ n}
  {h : Heading ℝ m n} {J : Mat ℝ m n}

theorem GoesDown.searches (hd : S.GoesDown f h J) {slope : ℝ}
    (hs : h.slope S.configuration.lineSearch = .ok slope) (a : ℝ) :
    (S.selection h slope).step ≠ .error (.lineSearch (.notDescent a)) := by
  intro hstep
  obtain ⟨hfull, hnot⟩ := LineSearch.select_notDescent hstep
  obtain rfl := Except.ok.inj ((hd.slope hfull).symm.trans hs)
  exact Bool.false_ne_true (hnot.symm.trans (LineSearch.isDescent_of_neg hd.negative))

section Direct

variable (hconcrete : S.configuration.concrete = true)
  (hsolver : S.configuration.solverFor m n = .direct f name)
  (hroute : f = .cholesky → S.configuration.kind = .newton → m ≠ n)
  (hexact : S.kernels.IsExactFor m n f) (hstep : 0 ≤ S.limits.stepTolerance)

include hconcrete hsolver hroute hexact hstep

theorem heads_goesDown {i : Nat} (hh : S.Heads start i h) : ∃ J, S.GoesDown f h J := by
  obtain ⟨p, v, ha, hv, haim⟩ := hh
  obtain ⟨earlier, -, hr⟩ := ha.reached
  have hfrom := aim_ok hr hv haim
  have hc : p.cache.Sound S.kernels fun _ => .ofMat (Mat.identity : Mat ℝ 0 0) :=
    hr.cache ▸ cacheAfter_sound (fun _ _ => Exact.beq_eq.mp) earlier
  have hst := S.aims v
  rw [haim] at hst
  cases hst with
  | @aimed path J cache d hj hd hlong =>
    rw [jacobianAt_eq hr hv] at hj
    obtain ⟨A, rfl⟩ := jacobianFrom_matrix hconcrete hj
    obtain ⟨rfl, -, -⟩ := visit_ok hv
    have hrows := direct_ok (congrArg Prod.fst hd)
    rw [direct_of_rows hrows, resolvePath_linearSolver (jacobianFrom_ok hj).1, hsolver] at hd
    obtain ⟨hfits, hroot⟩ := Descent.compute_direct_fits hc hexact hroute (congrArg Prod.fst hd)
    have hne : d ≠ 0 := by
      rintro rfl
      exact hlong (Exact.norm_zero.trans_le hstep)
    refine ⟨A, ⟨rfl, ?_, hfits.dot_neg hne, hfits.normal.dot_residual,
      fun h0 => hne (hfits.eq_zero h0), ?_⟩⟩
    · intro hfull
      simp [Heading.slope, hfull, JacobianInfo.apply]
    · intro hk hmn hf
      have hsvd : f ≠ .svd := by rcases hf with rfl | rfl <;> simp
      rw [hroot hk hmn hsvd, Exact.dot_comm, Exact.dot_neg_left]
      rfl

/-- Runs by an exact direct solver go down in every step, for whatever matrices they are given. Cholesky
factors are only for the normal equations, whose matrix is symmetric. -/
theorem direct_descends : S.DescendsDirectly f start := by
  have hdown (i : Nat) (h : Heading ℝ m n) (hh : S.Heads start i h) : ∃ J, S.GoesDown f h J :=
    heads_goesDown hconcrete hsolver hroute hexact hstep hh
  refine ⟨hdown, ?_, ?_⟩
  · intro i h slope hh hs a
    obtain ⟨J, hJ⟩ := hdown i h hh
    exact hJ.searches hs a
  · intro s hend a hs
    obtain ⟨i, h, slope, -, hh, hslope, hstep⟩ := iterate_lineSearch hend hs
    obtain ⟨J, hJ⟩ := hdown i h hh
    exact hJ.searches hslope a hstep

end Direct

/-- The equations contradict each other, so no step makes the residual small. -/
theorem overdetermined_descends :
    overdetermined.configuration.concrete = true ∧
      overdetermined.configuration.solverFor 2 1 = .direct .lu (.text "dense_lu") ∧
      overdetermined.kernels.IsExactFor 2 1 .lu ∧ 0 ≤ overdetermined.limits.stepTolerance ∧
      overdetermined.DescendsDirectly .lu #v[5] :=
  have hexact : overdetermined.kernels.IsExactFor 2 1 .lu :=
    Kernels.standard_isExactFor (f := .lu) nofun 2 1
  ⟨rfl, rfl, hexact, le_rfl, direct_descends rfl rfl nofun hexact le_rfl⟩

end Setup

end NewtonSolver
