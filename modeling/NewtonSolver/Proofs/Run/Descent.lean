import Mathlib
import NewtonSolver.Proofs.Configuration
import NewtonSolver.Proofs.LineSearch.Backtracking
import NewtonSolver.Proofs.Run.Arrival
import NewtonSolver.Proofs.Run.Shape

/-! Runs by backtracking go down strictly, whatever is known of the derivatives, as long as a search
that fails ends them. -/
namespace NewtonSolver

open LineSearch

variable {R : Type} {m n : Nat}

namespace IterationState

variable [Scalar R] {states : List (IterationState R m n)}

/-- What is recorded after a point comes from later ones. -/
theorem mem_residualNorms {i : Nat} (hmono : states.Pairwise (·.iteration ≤ ·.iteration))
    (hi : ∀ s ∈ states, i ≤ s.iteration) {x : R} (hx : x ∈ residualNorms (some i) states) :
    ∃ t ∈ states, i < t.iteration ∧ ∃ residual, t.residual = some residual ∧ x = residual.norm := by
  induction states generalizing i with
  | nil => cases hx
  | cons s rest ih =>
    obtain ⟨hs, hrest⟩ := List.pairwise_cons.mp hmono
    have hle := hi s (by simp)
    have later {k : Nat} (hk : i ≤ k) (hk' : ∀ t ∈ rest, k ≤ t.iteration)
        (hx : x ∈ residualNorms (some k) rest) :
        ∃ t ∈ s :: rest, i < t.iteration ∧
          ∃ residual, t.residual = some residual ∧ x = residual.norm := by
      obtain ⟨t, ht, hlt, hres⟩ := ih hrest hk' hx
      exact ⟨t, by simp [ht], by omega, hres⟩
    have hkeep : ∀ t ∈ rest, i ≤ t.iteration := fun t ht => hi t (by simp [ht])
    unfold residualNorms at hx
    split at hx
    · next residual hres =>
      split at hx
      · exact later le_rfl hkeep hx
      · next hne =>
        rcases List.mem_cons.mp hx with rfl | hx
        · have hne : i ≠ s.iteration := by simpa using hne
          exact ⟨s, by simp, by omega, residual, hres, rfl⟩
        · exact later hle hs hx
    · exact later le_rfl hkeep hx

/-- Norms that go down from point to point go down in the record. -/
theorem residualNorms_pairwise {recorded : Option Nat}
    (hmono : states.Pairwise (·.iteration ≤ ·.iteration))
    (hdown : ∀ s ∈ states, ∀ t ∈ states, s.iteration < t.iteration → ∀ u w, s.residual = some u →
      t.residual = some w → w.norm < u.norm) :
    (residualNorms recorded states).Pairwise (· > ·) := by
  induction states generalizing recorded with
  | nil => exact .nil
  | cons s rest ih =>
    obtain ⟨hs, hrest⟩ := List.pairwise_cons.mp hmono
    have hdown' : ∀ s ∈ rest, ∀ t ∈ rest, s.iteration < t.iteration → ∀ u w, s.residual = some u →
        t.residual = some w → w.norm < u.norm :=
      fun s hs t ht => hdown s (by simp [hs]) t (by simp [ht])
    unfold residualNorms
    split
    · next residual hres =>
      split
      · exact ih hrest hdown'
      · refine List.pairwise_cons.mpr ⟨?_, ih hrest hdown'⟩
        intro x hx
        obtain ⟨t, ht, hlt, w, hw, rfl⟩ := mem_residualNorms hrest hs hx
        exact hdown s (by simp) t (by simp [ht]) hlt residual w hres hw
    · exact ih hrest hdown'

end IterationState

theorem Run.history_ok [Scalar R] {r : Run R m n} {H : RunHistory R n} (h : r.history = .ok H) :
    ∃ final, r.ending = .finished final ∧
      H.residualNorms = IterationState.residualNorms none (r.running ++ [final]) := by
  obtain ⟨final, hf, h⟩ := Outcome.bind_eq_ok.mp h
  cases h
  unfold Run.final at hf
  split at hf
  · next he =>
    cases hf
    exact ⟨final, he, by simp [states, he]⟩
  · cases hf

namespace Setup

variable [ExactScalar R] {S : Setup R m n} {start : Vec R n} {i j : Nat} {p q : Progress R m n}
  {fields : BacktrackingFields R}

/-- An update along the direction at a point, by a positive step length at which the residual has gone
down as far as the search asks, by the slope at the point. -/
structure StepsDown (S : Setup R m n) (start : Vec R n) (s : Backtracking R) (p q : Progress R m n)
    (J : JacobianInfo R m n) (d : Vec R n) (w : Vec R m) : Prop where
  jacobian : ∃ path, S.jacobianFrom start p.x = .ok (path, J)
  direction : (S.descentAt start p.x p.cache).1 = .ok ⟨d, none⟩
  image : J.apply d = .ok w
  point : q.x = p.x + q.stepLength * d
  pos : 0 < q.stepLength
  slope_neg : Vec.dot (S.problem.residual.value p.x) w < 0
  decrease : halfSquare (S.problem.residual.value q.x) ≤
    halfSquare (S.problem.residual.value p.x) +
      s.decrease * q.stepLength * Vec.dot (S.problem.residual.value p.x) w

/-- The residual at `q` is smaller than the one at `p`. -/
def Below (S : Setup R m n) (q p : Progress R m n) : Prop :=
  ∃ phi e, ExactScalar.real? (halfSquare (S.problem.residual.value p.x)) = some phi ∧
    ExactScalar.real? (halfSquare (S.problem.residual.value q.x)) = some e ∧ e < phi

namespace Below

variable {r : Progress R m n}

theorem trans (h : S.Below r q) (h' : S.Below q p) : S.Below r p := by
  obtain ⟨psi, e, hpsi, he, hlt⟩ := h
  obtain ⟨phi, psi', hphi, hpsi', hlt'⟩ := h'
  obtain rfl := Option.some.inj (hpsi.symm.trans hpsi')
  exact ⟨phi, e, hphi, he, hlt.trans hlt'⟩

theorem x_ne (h : S.Below q p) : q.x ≠ p.x := by
  obtain ⟨phi, e, hphi, he, hlt⟩ := h
  intro hx
  rw [hx] at he
  exact hlt.ne (Option.some.inj (he.symm.trans hphi))

theorem allFinite (h : S.Below q p) : (S.problem.residual.value q.x).allFinite = true := by
  obtain ⟨-, e, -, he, -⟩ := h
  obtain ⟨s, hs⟩ := ExactScalar.sumSquares_of_halfSquare he
  exact ExactScalar.allFinite_of_sumSquares hs

theorem norm_lt (h : S.Below q p) :
    (S.problem.residual.value q.x).norm < (S.problem.residual.value p.x).norm := by
  have hq := h.allFinite
  obtain ⟨phi, e, hphi, he, hlt⟩ := h
  obtain ⟨sp, hsp⟩ := ExactScalar.sumSquares_of_halfSquare hphi
  obtain ⟨sq, h0, hsq⟩ := ExactScalar.real?_sumSquares hq
  have hphi' := Option.some.inj (hphi.symm.trans (ExactScalar.real?_halfSquare hsp))
  have he' := Option.some.inj (he.symm.trans (ExactScalar.real?_halfSquare hsq))
  have hs : sq < sp := by linarith
  have hnorm := ExactScalar.real?_norm hsq h0
  have hnorm' := ExactScalar.real?_norm hsp (h0.trans hs.le)
  exact (ExactScalar.lt_iff hnorm hnorm').mpr (Real.sqrt_lt_sqrt h0 hs)

end Below

theorem aim_jacobian {v : Visit R m n} {h : Heading R m n} (ha : S.aim v = .ok h) :
    ∃ path, S.jacobianAt v = .ok (path, h.jacobian) := by
  have hs := S.aims v
  rw [ha] at hs
  cases hs with
  | aimed hj hd ht => exact ⟨_, hj⟩

/-- An update is made with the step length that was selected, if a search that fails ends the run. -/
theorem advance_stepped {h : Heading R m n} (hpolicy : S.configuration.policy = .fail)
    (ha : S.advance h = .ok q) :
    ∃ slope, h.slope S.configuration.lineSearch = .ok slope ∧
      (S.selection h slope).step = .ok q.stepLength ∧
        q.x = h.progress.x + q.stepLength * h.direction := by
  have hs := S.advances h
  rw [ha] at hs
  cases hs with
  | stepped hslope hstep => exact ⟨_, hslope, hstep, rfl⟩
  | halved _ _ hp => exact absurd (hp.symm.trans hpolicy) (by decide)

section Backtracking

variable (hv : S.configuration.lineSearch.validate = .ok ())
  (hfields : S.configuration.lineSearch = .backtracking fields)
  (hpolicy : S.configuration.policy = .fail)

include hv hfields hpolicy

/-- Every update goes down. -/
theorem next_stepsDown {earlier : List (Vec R n)} {v : Visit R m n}
    (hr : S.Reached start earlier p) (hvisit : S.visit p = .ok v) (hn : S.next v = .ok q) :
    (∃ s J d w, Backtracking.ofFields fields = .ok s ∧ S.StepsDown start s p q J d w) ∧
      S.Below q p := by
  obtain ⟨h, ha, hadvance⟩ := Outcome.bind_eq_ok.mp hn
  have hh := aim_ok hr hvisit ha
  obtain ⟨path, hj⟩ := aim_jacobian ha
  obtain ⟨slope, hslope, hstep, hx⟩ := advance_stepped hpolicy hadvance
  rw [hfields] at hslope
  obtain ⟨w, hw, hslope⟩ := Outcome.bind_eq_ok.mp hslope
  cases hslope
  obtain ⟨-, hfinite, -⟩ := visit_ok hvisit
  obtain ⟨sq, -, hsq⟩ := ExactScalar.real?_sumSquares hfinite
  have hphi := ExactScalar.real?_halfSquare hsq
  rw [hh.x] at hx
  rw [selection, hfields, select, hh.x, hh.residual] at hstep
  obtain ⟨s, hs, hfinds⟩ := backtrack_finds (hfields ▸ hv) hphi hstep
  refine ⟨⟨s, h.jacobian, h.direction, w, hs, ⟨path, (jacobianAt_eq hr hvisit).symm.trans hj⟩,
    congrArg Prod.fst hh.descent, hw, hx, hfinds.pos, hfinds.slope_neg, ?_⟩, ?_⟩
  · rw [hx]
    exact hfinds.decrease
  · obtain ⟨phi, e, hphi, he, hlt⟩ := hfinds.lower
    refine ⟨phi, e, hphi, ?_, hlt⟩
    rw [hx]
    exact he

/-- The residuals at all points of a run go down. -/
theorem arrives_below (hp : S.Arrives start i p) (hq : S.Arrives start j q) (hij : i < j) :
    S.Below q p := by
  induction hq with
  | start => omega
  | @update j r q v hr _ hvisit hn ih =>
    obtain ⟨earlier, -, hreached⟩ := hr.reached
    have hstep : S.Below q r := (next_stepsDown hv hfields hpolicy hreached hvisit hn).2
    by_cases h : i < j
    · exact hstep.trans (ih h)
    · obtain rfl : i = j := by omega
      obtain rfl := hp.unique hr
      exact hstep

end Backtracking

/-- What backtracking guarantees of a run from the start. -/
structure DescendsStrictly (S : Setup R m n) (fields : BacktrackingFields R) (start : Vec R n) :
    Prop where
  updates : ∀ i p q, S.Arrives start i p → S.Arrives start (i + 1) q →
    ∃ s J d w, Backtracking.ofFields fields = .ok s ∧ S.StepsDown start s p q J d w
  norms : ∀ H, (S.iterate start).history = .ok H → H.residualNorms.Pairwise (· > ·)
  points : ∀ i j p q, S.Arrives start i p → S.Arrives start j q → p.x = q.x → i = j
  finite : ∀ final, (S.iterate start).ending = .finished final → 1 ≤ final.iteration →
    final.status ≠ .failed .nonFiniteResidual

/-- The states of a completed run come in the order of their updates. -/
theorem Completes.states_pairwise {running : List (IterationState R m n)}
    {final : IterationState R m n} (h : S.Completes start [] (.initial start) running final) :
    (running ++ [final]).Pairwise (·.iteration ≤ ·.iteration) := by
  have hi : running.map (·.iteration) = List.range' 0 running.length := h.iterations
  have hfinal := h.final_iteration.1
  simp only [List.length_nil, Nat.zero_add] at hfinal
  have hrange : (running.map (·.iteration)).Pairwise (· ≤ ·) := by
    rw [hi]
    exact (List.pairwise_lt_range' 1).imp Nat.le_of_lt
  refine List.pairwise_append.mpr
    ⟨List.pairwise_map.mp hrange, List.pairwise_singleton _ _, ?_⟩
  · intro s hs t ht
    obtain rfl := List.mem_singleton.mp ht
    have hmem : s.iteration ∈ List.range' 0 running.length := hi ▸ List.mem_map_of_mem hs
    have hlt := (List.mem_range'_1.mp hmem).2
    omega

/-- Runs with backtracking by an accepted configuration descend strictly, if a search that fails ends
them. -/
theorem backtracking_descends {kind : Setting R} {o : Options R} {notices : List Notice}
    (hbuild : o.build kind = .ok ⟨S.configuration, notices⟩)
    (hfields : S.configuration.lineSearch = .backtracking fields)
    (hpolicy : S.configuration.policy = .fail) : S.DescendsStrictly fields start := by
  have hv : S.configuration.lineSearch.validate = .ok () := Options.build_validate hbuild
  have hbelow {i j p q} (hp : S.Arrives start i p) (hq : S.Arrives start j q) (hij : i < j) :
      S.Below q p := arrives_below hv hfields hpolicy hp hq hij
  constructor
  case updates =>
    intro i p q hp hq
    cases hq with
    | update hp' _ hvisit hn =>
      obtain rfl := hp.unique hp'
      obtain ⟨earlier, -, hr⟩ := hp.reached
      exact (next_stepsDown hv hfields hpolicy hr hvisit hn).1
  case norms =>
    intro H hH
    obtain ⟨final, hf, hnorms⟩ := Run.history_ok hH
    rw [hnorms]
    by_cases hmax : S.limits.maxIters = 0
    · simp only [iterate, hmax, if_true, Run.unstarted] at hf ⊢
      cases hf
      exact .nil
    · have hone : 1 ≤ S.limits.maxIters := by omega
      have hstates : (S.iterate start).states = (S.iterate start).running ++ [final] := by
        simp [Run.states, hf]
      refine IterationState.residualNorms_pairwise (iterate_completes hone hf).states_pairwise ?_
      intro s hs t ht hlt u w hu hw
      rw [← hstates] at hs ht
      obtain ⟨p, hp, hseen, -, -⟩ := (iterate_observes hone).of_mem hs
      obtain ⟨q, hq, hseen', -, -⟩ := (iterate_observes hone).of_mem ht
      rw [hseen.residual] at hu
      rw [hseen'.residual] at hw
      cases hu
      cases hw
      exact (hbelow hp hq hlt).norm_lt
  case points =>
    intro i j p q hp hq hx
    rcases lt_trichotomy i j with hij | hij | hij
    · exact absurd hx.symm (hbelow hp hq hij).x_ne
    · exact hij
    · exact absurd hx (hbelow hq hp hij).x_ne
  case finite =>
    intro final hf hi hstatus
    have hmax : 1 ≤ S.limits.maxIters := by
      refine Nat.one_le_iff_ne_zero.mpr ?_
      intro hmax
      simp only [iterate, hmax, if_true, Run.unstarted] at hf
      cases hf
      exact absurd hi (Nat.not_succ_le_zero 0)
    have hnot := (iterate_completes hmax hf).ends.of_nonFinite hstatus
    obtain ⟨-, ⟨q, hq, hseen, -⟩, -⟩ := (iterate_observes hmax).final final hf
    have hfinite := (hbelow .start hq hi).allFinite
    rw [← hseen.x, hnot] at hfinite
    cases hfinite

/-- The logarithm with a Jacobian that is not its own, by Newton steps. -/
noncomputable def logarithm : Setup PartialReal 1 1 where
  kernels := .standard
  problem :=
    { residual := .ofExpressions (.ofFn fun i => .unary .log (.var i)) false
      jacobian := some fun _ => .ok (.ofMat (Mat.identity : Mat PartialReal 1 1))
      products := none
      transposedProducts := none
      sparsity := none
      traceable := true }
  configuration :=
    { needsMatrix := none
      kind := .newton
      linearSolver := none
      preconditioner := none
      lineSearch := .backtracking .standard
      jacobianBackend := none
      transposedBackend := none
      policy := .fail }
  limits := ⟨100, Scalar.decimal 1 8, Scalar.decimal 1 8⟩

/-- The options that ask for a search and leave everything else as it is. -/
noncomputable def logarithmOptions : Options PartialReal :=
  { Options.defaults with lineSearch := Tag.backtrackingLineSearch.setting fun _ => none }

theorem logarithm_build :
    logarithmOptions.build (.text "newton") = .ok ⟨logarithm.configuration, []⟩ := by
  have hsearch : logarithmOptions.strategy = .ok (.backtracking .standard, []) :=
    Outcome.bind_eq_ok.mpr ⟨_, LineSearchStrategy.recognize_standard, rfl⟩
  simp only [Options.build, hsearch]
  rfl

theorem logarithm_descends :
    logarithmOptions.build (.text "newton") = .ok ⟨logarithm.configuration, []⟩ ∧
      logarithm.configuration.lineSearch = .backtracking .standard ∧
      logarithm.configuration.policy = .fail ∧ logarithm.DescendsStrictly .standard #v[2] :=
  ⟨logarithm_build, rfl, rfl, backtracking_descends logarithm_build rfl rfl⟩

end Setup

end NewtonSolver
