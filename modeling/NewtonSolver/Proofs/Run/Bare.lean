import NewtonSolver.Proofs.Descent
import NewtonSolver.Proofs.Jacobian.Bare
import NewtonSolver.Proofs.LinearSolver.Acceptance
import NewtonSolver.Proofs.Run.Agreement
import NewtonSolver.Proofs.Run.Forgetting
import NewtonSolver.Proofs.Run.Shape

/-! Runs with a residual that is a bare number beside runs with the vector of length one. Where the
steps need the vector, the number is not lifted and the run makes no update. -/
namespace NewtonSolver

open Problem (DerivativeForm Refuses)

variable {R : Type} [Scalar R] {m n : Nat}

/-- No column is found where every product fails. -/
theorem JacobianOperator.columns_refused {op : JacobianOperator R m n} {f : Fault} (hn : 0 < n)
    (h : ∀ v, op.apply v = .error f) : op.columns = .error f := by
  have happly : op.apply = fun _ => .error f := funext h
  have hmap (xs : Vector (Vec R n) n) :
      xs.mapM (fun _ => (.error f : Except Fault (Vec R m))) = .error f := by
    have hlist : Vector.toArray <$> xs.mapM (fun _ => (.error f : Except Fault (Vec R m))) =
        List.toArray <$> xs.toArray.toList.mapM fun _ => .error f :=
      Vector.toArray_mapM.trans Array.mapM_eq_mapM_toList
    cases hxs : xs.toArray.toList with
    | nil =>
      have hlength := congrArg List.length hxs
      simp at hlength
      omega
    | cons x rest =>
      rw [hxs, List.mapM_cons] at hlist
      generalize xs.mapM (fun _ => (.error f : Except Fault (Vec R m))) = result at hlist
      cases result with
      | error e =>
        cases hlist
        rfl
      | ok ys => cases hlist
  rw [columns, happly, hmap]
  rfl

theorem Problem.NeedsVector.of_forgetful {P : Problem R m n} {c : Configuration R}
    {form : DerivativeForm} (h : P.forgetful.NeedsVector c form) : P.NeedsVector c form := by
  cases h with
  | entries hc hj => exact .entries hc hj
  | automatic hc hj hp ht hb => exact .automatic hc hj hp ht hb
  | central hc hj hp hs h => exact .central hc hj hp hs h
  | automaticTransposed h => cases h.transposedProducts
  | centralTransposed hc hj hp => cases hp
  | centralBorrowed hc hj hp => cases hp

namespace Setup

/-- The same setup with a vector for the residual. -/
def lifted (S : Setup R m n) : Setup R m n := { S with problem := S.problem.lifted }

variable {S : Setup R m n} {start : Vec R n}

/-- No direction comes from a Jacobian that does not serve. -/
theorem direct_refused {form : DerivativeForm} {path : JacobianPath R m n} {J : JacobianInfo R m n}
    (hn : 0 < n) (h : Refuses S.configuration path form J) (residual : Vec R m)
    (cache : LinearCache R) (d : Vec R n) : (S.direct path J residual cache).1 ≠ .ok ⟨d, none⟩ := by
  intro hd
  have hrows := direct_ok hd
  rw [direct_of_rows hrows] at hd
  cases h with
  | entries h =>
    rw [h] at hrows
    cases hrows
  | @products op h =>
    cases ht : op.traceable with
    | true =>
      obtain ⟨image, himage⟩ := Descent.compute_operator_ok ht hd
      rw [h] at himage
      cases himage
    | false =>
      obtain ⟨J', hJ', -⟩ := Descent.compute_solved hd
      simp [Descent.settle, ht, op.columns_refused hn h] at hJ'
  | @transposed op hl ht h =>
    obtain ⟨J', hJ', hmodel⟩ := Descent.compute_solved hd
    obtain rfl : JacobianInfo.operator op = J' := by simpa [Descent.settle, ht] using hJ'
    have hk : S.configuration.kind = .gaussNewton ∨ m ≠ n := by
      simpa [Configuration.leastSquares] using hl
    rw [Descent.solveModel_leastSquares hk, Descent.leastSquares_operator, Descent.normalEquations,
      h] at hmodel
    cases hmodel

/-- The automatic derivative of a bare number is found. It has no axis for the equations, and the run breaks
off where the numbers of rows and columns are taken. -/
theorem iterate_automatic {mode : DerivativeMode} (hbare : S.problem.residual.isBare = true)
    (hmax : 1 ≤ S.limits.maxIters) (hf : (S.problem.residual.value start).allFinite = true)
    (ht : ¬ (S.problem.residual.value start).maxAbs ≤ S.limits.tolerance)
    (hc : S.configuration.concrete = true)
    (hentries : S.problem.materializer S.configuration.jacobianBackend start =
      .ok (S.problem.automaticMatrix mode, .automatic mode))
    (hJ : (S.problem.automatic mode start).allFinite = true) :
    (S.iterate start).ending = .escaped (.unfit (.tooFew 2 1)) := by
  have hv := visit_of_large (p := .initial start) hf ht
  have hj : S.jacobianFrom start start =
      .ok (⟨S.configuration.solverFor m n, .automatic mode, some (S.problem.automaticMatrix mode),
        S.configuration.leastSquares m n, true⟩, .matrix (S.problem.automatic mode start)) := by
    simp [jacobianFrom, Problem.resolvePath, Problem.acquire, Problem.automaticMatrix,
      JacobianSource.isAutomatic, hc, hentries, hJ, hbare]
  have hjacobian := (jacobianAt_eq reached_initial hv).trans hj
  rw [iterate_eq_trace hmax]
  refine trace_ending_of_aim hv ?_ _
  simp [aim, hjacobian, head, direct]

section Served

variable (h : ∀ form, ¬ S.problem.NeedsVector S.configuration form)

include h

theorem agrees_lifted (ha : ¬ S.problem.AutomaticTransposes S.configuration) :
    S.Agrees S.lifted where
  limits := rfl
  value := rfl
  path := funext fun x => (Problem.resolvePath_lifted h x).symm
  acquire := (Problem.acquire_lifted h ha).symm
  descent := rfl
  lineSearch := rfl
  merit := rfl
  policy := rfl

theorem iterate_lifted_forget (start : Vec R n) :
    (S.iterate start).forget = (S.lifted.iterate start).forget := by
  by_cases ha : S.problem.AutomaticTransposes S.configuration
  · have hl : S.configuration.leastSquares m n = false :=
      Bool.eq_false_iff.mpr fun hl => h .transposedProducts (.automaticTransposed ha hl)
    have ha' : S.lifted.problem.AutomaticTransposes S.lifted.configuration :=
      ⟨ha.concrete, ha.jacobian, ha.transposedProducts, ha.traceable, ha.mode⟩
    have hagrees : S.forgetful.Agrees S.forgetful.lifted :=
      agrees_lifted (fun form hneeds => h form hneeds.of_forgetful) fun hforgetful =>
        nomatch hforgetful.transposedProducts
    rw [iterate_forget (fun x fx => ⟨_, ha.found x fx⟩) hl, hagrees.iterate_eq]
    exact (iterate_forget (S := S.lifted) (fun x fx => ⟨_, ha'.found x fx⟩) hl start).symm
  · rw [(agrees_lifted h ha).iterate_eq]

end Served

section Refused

variable {form : DerivativeForm} (hbare : S.problem.residual.isBare = true)
  (h : S.problem.NeedsVector S.configuration form) (hn : 0 < n)

include hbare h hn

theorem not_arrives {i : Nat} {p : Progress R m n} : ¬ S.Arrives start (i + 1) p := by
  intro ha
  cases ha with
  | @update _ q _ v ha hb hv hnext =>
    obtain ⟨earlier, -, hr⟩ := ha.reached
    obtain ⟨-, d, hd, -⟩ := next_ok hr hv hnext
    cases hj : S.jacobianFrom start q.x with
    | error f =>
      rw [descentAt, hj] at hd
      cases hd
    | ok found =>
      obtain ⟨path, J⟩ := found
      obtain ⟨hpath, hJ⟩ := jacobianFrom_ok hj
      rw [descentAt_of_jacobian hj] at hd
      exact direct_refused hn (Problem.acquire_bare hbare h hpath hJ) _ _ d hd

/-- The run is over at its first point. -/
theorem states_refused {s : IterationState R m n} (hs : s ∈ (S.iterate start).states) :
    s.iteration = 0 := by
  by_cases hmax : S.limits.maxIters = 0
  · rw [iterate, if_pos hmax] at hs
    obtain rfl := List.mem_singleton.mp hs
    rfl
  · obtain ⟨p, ha, -⟩ := (iterate_observes (Nat.one_le_iff_ne_zero.mpr hmax)).of_mem hs
    cases hi : s.iteration with
    | zero => rfl
    | succ i =>
      rw [hi] at ha
      exact absurd ha (not_arrives hbare h hn)

end Refused

/-- A residual that is a bare number is as good as the vector exactly where the steps need no vector,
as far as a run makes an update with the vector. The runs differ at most in transposed products that
no step asks for, and where a vector is needed the run with the number makes no update at all. -/
theorem iterate_bare {S : Setup R 1 n} (hbare : S.problem.residual.isBare = true) (hn : 0 < n) :
    ((∀ form, ¬ S.problem.NeedsVector S.configuration form) → ∀ start,
      (S.iterate start).forget = (S.lifted.iterate start).forget ∧
        (¬ S.problem.AutomaticTransposes S.configuration →
          S.iterate start = S.lifted.iterate start)) ∧
    (∀ form, S.problem.NeedsVector S.configuration form → ∀ start,
      ∀ s ∈ (S.iterate start).states, s.iteration = 0) ∧
    ∀ start, (∃ s ∈ (S.lifted.iterate start).states, 1 ≤ s.iteration) →
      ((S.iterate start).forget = (S.lifted.iterate start).forget ↔
        ∀ form, ¬ S.problem.NeedsVector S.configuration form) := by
  refine ⟨?_, fun form h start s => states_refused hbare h hn, ?_⟩
  · intro h start
    exact ⟨iterate_lifted_forget h start, fun ha => congrFun (agrees_lifted h ha).iterate_eq start⟩
  · rintro start ⟨s, hs, hi⟩
    refine ⟨?_, fun h => iterate_lifted_forget h start⟩
    intro heq form h
    have hmem : s.forget ∈ (S.lifted.iterate start).forget.states := by
      rw [Run.forget_states]
      exact List.mem_map_of_mem hs
    rw [← heq, Run.forget_states] at hmem
    obtain ⟨t, ht, hts⟩ := List.mem_map.mp hmem
    have hzero : t.iteration = 0 := states_refused hbare h hn ht
    have hsame : t.forget.iteration = s.forget.iteration := by rw [hts]
    change t.iteration = s.iteration at hsame
    omega

/-- The method for the square root of two with default options, where the residual is a number. -/
def bareRoot (jacobian : Option (Vec Float 1 → Except Fault (Table Float))) : Setup Float 1 1 :=
  { rootOfTwo with
    problem :=
      { rootOfTwo.problem with
        residual := { rootOfTwo.problem.residual with isBare := true }
        jacobian }
    configuration :=
      { rootOfTwo.configuration with
        linearSolver := none
        lineSearch := .fullStep (.text "no_line_search") } }

theorem bareRoot_updates :
    ∃ s ∈ ((bareRoot none).lifted.iterate #v[1]).states, 1 ≤ s.iteration := by
  have hany : ((bareRoot none).lifted.iterate #v[1]).states.any (1 ≤ ·.iteration) = true := by
    decide +kernel
  simpa using hany

/-- The number is not lifted for the matrix, which comes without an axis for the equations: a value error
escapes. The run with the vector converges. -/
theorem bareRoot_escapes :
    Options.defaults.build (.text "newton") = .ok ⟨(bareRoot none).configuration, []⟩ ∧
      (∃ final, ((bareRoot none).lifted.iterate #v[1]).final = .ok final ∧
        final.status.hasConverged = true) ∧
      ∃ misfit, ((bareRoot none).iterate #v[1]).ending = .escaped (.unfit misfit) ∧
        misfit.toClass = .value ∧
          misfit.message? = some "not enough values to unpack (expected 2, got 1)" := by
  have hrun : ((bareRoot none).lifted.iterate #v[1]).final.toOption.map (·.status.hasConverged) =
      some true := by
    decide +kernel
  have hescapes : ((bareRoot none).iterate #v[1]).ending = .escaped (.unfit (.tooFew 2 1)) :=
    iterate_automatic rfl (by decide) (by decide +kernel) (by decide +kernel) rfl rfl
      (by decide +kernel)
  cases hfinal : ((bareRoot none).lifted.iterate #v[1]).final with
  | error f => simp [hfinal, Except.toOption] at hrun
  | ok final =>
    simp only [hfinal, Except.toOption, Option.map_some, Option.some.injEq] at hrun
    exact ⟨rfl, ⟨final, rfl, hrun⟩, _, hescapes, rfl, by decide +kernel⟩

/-- Without a stated Jacobian the run stays where it is, and with one it is the run with the vector. -/
theorem bareRoot_stated :
    (∀ s ∈ ((bareRoot none).iterate #v[1]).states, s.iteration = 0) ∧
      ((bareRoot none).iterate #v[1]).forget ≠ ((bareRoot none).lifted.iterate #v[1]).forget ∧
      ∀ jacobian, (bareRoot (some jacobian)).iterate #v[1] =
        (bareRoot (some jacobian)).lifted.iterate #v[1] := by
  have hneeds : (bareRoot none).problem.NeedsVector (bareRoot none).configuration .entries :=
    .entries rfl rfl
  obtain ⟨-, hstays, hiff⟩ := iterate_bare (S := bareRoot none) rfl Nat.one_pos
  refine ⟨hstays .entries hneeds #v[1], ?_, ?_⟩
  · intro heq
    exact (hiff #v[1] bareRoot_updates).mp heq .entries hneeds
  · intro jacobian
    have hserved : ∀ form, ¬ (bareRoot (some jacobian)).problem.NeedsVector
        (bareRoot (some jacobian)).configuration form := by
      intro form h
      cases h with
      | entries hc hj => cases hj
      | automatic hc => cases hc
      | central hc => cases hc
      | automaticTransposed h => cases h.concrete
      | centralTransposed hc => cases hc
      | centralBorrowed hc => cases hc
    exact ((iterate_bare (S := bareRoot (some jacobian)) rfl Nat.one_pos).1 hserved #v[1]).2
      fun h => nomatch h.concrete

end Setup

end NewtonSolver
