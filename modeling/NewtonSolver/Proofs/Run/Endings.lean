import NewtonSolver.Proofs.Descent.Failures
import NewtonSolver.Proofs.Run.Arrival

/-! Where a run ends: at one of the points it comes to, in one of the stages there. -/
namespace NewtonSolver.Setup

variable {R : Type} [Scalar R] {m n : Nat}

/-- How a run ends at a point, after so many updates. -/
inductive StopsAt (S : Setup R m n) (i : Nat) (p : Progress R m n) : Ending R m n → Prop
  | visiting {e : Ending R m n} (hv : S.visit p = .error e) : StopsAt S i p e
  | aiming {v : Visit R m n} {e : Ending R m n} (hv : S.visit p = .ok v) (ha : S.aim v = .error e) :
    StopsAt S i p e
  | exhausted {v : Visit R m n} {h : Heading R m n} (hi : i = S.limits.maxIters)
    (hv : S.visit p = .ok v) (ha : S.aim v = .ok h) :
    StopsAt S i p (.finished (h.progress.state h.residual .maxItersReached))
  | advancing {v : Visit R m n} {h : Heading R m n} {e : Ending R m n} (hi : i < S.limits.maxIters)
    (hv : S.visit p = .ok v) (ha : S.aim v = .ok h) (hn : S.advance h = .error e) : StopsAt S i p e

variable {S : Setup R m n} {start : Vec R n} {i j updates : Nat} {p q : Progress R m n}
  {v : Visit R m n} {h : Heading R m n} {e e' : Ending R m n}

theorem next_of_aim (ha : S.aim v = .ok h) : S.next v = S.advance h := by
  rw [next, ha]
  rfl

theorem next_of_aim_error (ha : S.aim v = .error e) : S.next v = .error e := by
  rw [next, ha]
  rfl

/-- A run whose budget is not used up ends in the stage that fails. -/
theorem stopsAt_of_next (hi : i < S.limits.maxIters) (hv : S.visit p = .ok v)
    (hn : S.next v = .error e) : S.StopsAt i p e := by
  cases ha : S.aim v with
  | error e' =>
    rw [next_of_aim_error ha] at hn
    cases hn
    exact .aiming hv ha
  | ok h =>
    rw [next_of_aim ha] at hn
    exact .advancing hi hv ha hn

theorem last_stops (hi : i = S.limits.maxIters) (p : Progress R m n) :
    S.StopsAt i p (S.trace 0 p).ending := by
  rw [trace]
  cases hv : S.visit p with
  | error e => exact .visiting hv
  | ok v =>
    cases ha : S.aim v with
    | error e =>
      simp only [ha]
      exact .aiming hv ha
    | ok h =>
      simp only [ha]
      exact .exhausted hi hv ha

/-- The induction is on the updates that are left, as the run makes them. -/
theorem trace_stops (ha : S.Arrives start i p) (hu : i + updates = S.limits.maxIters) :
    ∃ j q, S.Arrives start j q ∧ S.StopsAt j q (S.trace updates p).ending := by
  induction updates generalizing i p with
  | zero => exact ⟨i, p, ha, last_stops hu p⟩
  | succ updates ih =>
    rw [trace]
    cases hv : S.visit p with
    | error e => exact ⟨i, p, ha, .visiting hv⟩
    | ok v =>
      cases hn : S.next v with
      | error e =>
        simp only [hn]
        exact ⟨i, p, ha, stopsAt_of_next (by omega) hv hn⟩
      | ok q =>
        simp only [hn, Run.cons]
        exact ih (.update ha (by omega) hv hn) (by omega)

theorem iterate_stops (hmax : 1 ≤ S.limits.maxIters) (start : Vec R n) :
    ∃ i p, S.Arrives start i p ∧ S.StopsAt i p (S.iterate start).ending := by
  rw [iterate_eq_trace hmax]
  exact trace_stops .start (Nat.zero_add _)

namespace StopsAt

/-- The run does not go on. -/
theorem not_next (hs : S.StopsAt i p e) (hv : S.visit p = .ok v) (hn : S.next v = .ok q) :
    S.limits.maxIters ≤ i := by
  cases hs with
  | visiting hv' => rw [hv] at hv'; cases hv'
  | aiming hv' ha =>
    obtain rfl := Except.ok.inj (hv.symm.trans hv')
    rw [next_of_aim_error ha] at hn
    cases hn
  | exhausted hi => exact Nat.le_of_eq hi.symm
  | advancing hi hv' ha he =>
    obtain rfl := Except.ok.inj (hv.symm.trans hv')
    rw [next_of_aim ha, he] at hn
    cases hn

theorem unique (hs : S.StopsAt i p e) (hs' : S.StopsAt i p e') : e = e' := by
  cases hs with
  | visiting hv => cases hs' <;> simp_all
  | aiming hv ha => cases hs' <;> simp_all
  | exhausted hi hv ha =>
    cases hs' with
    | visiting hv' => simp_all
    | aiming hv' ha' => simp_all
    | exhausted _ hv' ha' => simp_all
    | advancing hi' => omega
  | advancing hi hv ha hn =>
    cases hs' with
    | visiting hv' => simp_all
    | aiming hv' ha' => simp_all
    | exhausted hi' => omega
    | advancing _ hv' ha' hn' => simp_all

end StopsAt

/-- A run that comes to a point where it stops has the ending of that point. -/
theorem iterate_ending (ha : S.Arrives start i p) (hs : S.StopsAt i p e)
    (hmax : 1 ≤ S.limits.maxIters) : (S.iterate start).ending = e := by
  obtain ⟨j, q, hq, hend⟩ := iterate_stops hmax start
  have hji : j ≤ i := ha.last (fun _ _ => hs.not_next) hq
  have hij : i ≤ j := hq.last (fun _ _ => hend.not_next) ha
  obtain rfl : i = j := by omega
  obtain rfl := ha.unique hq
  exact hend.unique hs

/-- The run from `start` comes to a point and acquires this Jacobian there. -/
def Acquires (S : Setup R m n) (start : Vec R n) (v : Visit R m n) (path : JacobianPath R m n)
    (J : JacobianInfo R m n) : Prop :=
  ∃ i p, S.Arrives start i p ∧ S.visit p = .ok v ∧ S.jacobianAt v = .ok (path, J)

theorem Acquires.from {path : JacobianPath R m n} {J : JacobianInfo R m n}
    (h : S.Acquires start v path J) :
    S.jacobianFrom start v.progress.x = .ok (path, J) ∧
      v.residual = S.problem.residual.value v.progress.x := by
  obtain ⟨i, p, ha, hv, hj⟩ := h
  obtain ⟨earlier, -, hr⟩ := ha.reached
  rw [jacobianAt_eq hr hv] at hj
  obtain ⟨rfl, -, -⟩ := visit_ok hv
  exact ⟨hj, rfl⟩

/-- The run from `start` heads on from the point that it comes to after so many updates. -/
def Heads (S : Setup R m n) (start : Vec R n) (i : Nat) (h : Heading R m n) : Prop :=
  ∃ p v, S.Arrives start i p ∧ S.visit p = .ok v ∧ S.aim v = .ok h

/-- The descent from a visited point with its Jacobian. -/
def descentWith (S : Setup R m n) (v : Visit R m n) (path : JacobianPath R m n)
    (J : JacobianInfo R m n) : Except (Failure R) (Descent R n) :=
  (S.direct path J v.residual v.progress.cache).1

theorem descentWith_failsOnly {reason : Prop} {path : JacobianPath R m n} {J : JacobianInfo R m n}
    (hpre : reason ∨ PreconditionerSpec.BuildsPairs S.configuration.preconditioner)
    (h : reason ∨ (path.linearSolver.requiresMatrix = true → ∃ A, J = .matrix A)) (v : Visit R m n) :
    Outcome.FailsOnly (fun f => Failure.InSolve reason f ∧ ∀ g, f ≠ .linearSolve g)
      (S.descentWith v path J) := by
  unfold descentWith direct
  split
  · exact .error ⟨.fault (.unfit _), nofun⟩
  · exact Descent.compute_failsOnly hpre h v.residual

/-- The failures that no stage takes up. -/
inductive Escapes (S : Setup R m n) (start : Vec R n) : Failure R → Prop
  | acquiring {v : Visit R m n} {misfit : Misfit} (hj : S.jacobianAt v = .error (.unfit misfit)) :
    Escapes S start (.unfit misfit)
  | directing {v : Visit R m n} {path : JacobianPath R m n} {J : JacobianInfo R m n} {f : Failure R}
    (ha : S.Acquires start v path J) (hd : S.descentWith v path J = .error f)
    (hf : ∀ g, f ≠ .differentiation g) : Escapes S start f
  | sloping {i : Nat} {h : Heading R m n} {f : Fault} (hi : i < S.limits.maxIters)
    (hh : S.Heads start i h) (hs : h.slope S.configuration.lineSearch = .error f) :
    Escapes S start (.ofFault f)
  | searching {i : Nat} {h : Heading R m n} {slope : R} {f : Failure R} (hh : S.Heads start i h)
    (hs : h.slope S.configuration.lineSearch = .ok slope)
    (hstep : (S.selection h slope).step = .error f) (hf : ∀ g, f ≠ .lineSearch g) :
    Escapes S start f

theorem iterate_escaped {f : Failure R} (hend : (S.iterate start).ending = .escaped f) :
    S.Escapes start f := by
  by_cases hmax : S.limits.maxIters = 0
  · rw [iterate, if_pos hmax] at hend
    cases hend
  · obtain ⟨i, p, ha, hstop⟩ := iterate_stops (Nat.one_le_iff_ne_zero.mpr hmax) start
    rw [hend] at hstop
    cases hstop with
    | visiting hv =>
      have hs := S.visits p
      rw [hv] at hs
      cases hs
    | @aiming v _ hv haim =>
      have hs := S.aims v
      rw [haim] at hs
      cases hs with
      | unfit hj => exact .acquiring hj
      | escaped hj hd hf => exact .directing ⟨i, p, ha, hv, hj⟩ (congrArg Prod.fst hd) hf
    | @advancing v h _ hi hv haim hn =>
      have hs := S.advances h
      rw [hn] at hs
      cases hs with
      | slopeless hslope => exact .sloping hi ⟨p, v, ha, hv, haim⟩ hslope
      | escaped hslope hstep hf => exact .searching ⟨p, v, ha, hv, haim⟩ hslope hstep hf

/-- A run that fails in a line search does so on the way from one of its points. -/
theorem iterate_lineSearch {s : IterationState R m n} {f : LineSearchFailure R}
    (hend : (S.iterate start).ending = .finished s) (hs : s.status = .failed (.lineSearch f)) :
    ∃ i h slope, i < S.limits.maxIters ∧ S.Heads start i h ∧
      h.slope S.configuration.lineSearch = .ok slope ∧
        (S.selection h slope).step = .error (.lineSearch f) := by
  by_cases hmax : S.limits.maxIters = 0
  · rw [iterate, if_pos hmax] at hend
    cases hend
    cases hs
  · obtain ⟨i, p, ha, hstop⟩ := iterate_stops (Nat.one_le_iff_ne_zero.mpr hmax) start
    rw [hend] at hstop
    cases hstop with
    | visiting hv =>
      have hst := S.visits p
      rw [hv] at hst
      cases hst <;> cases hs
    | @aiming v _ hv haim =>
      have hst := S.aims v
      rw [haim] at hst
      cases hst <;> cases hs
    | exhausted hi hv haim => cases hs
    | @advancing v h _ hi hv haim hn =>
      have hst := S.advances h
      rw [hn] at hst
      cases hst with
      | stuck hslope hstep hp =>
        cases hs
        exact ⟨i, h, _, hi, ⟨p, v, ha, hv, haim⟩, hslope, hstep⟩

end NewtonSolver.Setup
