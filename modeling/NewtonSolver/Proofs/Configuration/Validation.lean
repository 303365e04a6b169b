import NewtonSolver.Proofs.Configuration.Checks

/-! Options and limits as lists of checks. The builder gives a configuration or a failure of the
configuration, unless it comes to a field that it has to compare and that holds no number. -/
namespace NewtonSolver

variable {R : Type} [Scalar R]

namespace Check.Answers

theorem notBelowZero (s : Setting R) (g : ConfigurationFailure R) :
    Answers [.field s .notBelowZero]
      (s.isBelow 0 >>= fun below => NewtonSolver.require (!below) g) := by
  rw [Setting.isBelow, bind_assoc]
  exact .compared rfl Iff.rfl fun x => .require (by simp) g

theorem notBelowOne (s : Setting R) (g : ConfigurationFailure R) :
    Answers [.field s .notBelowOne]
      (s.isBelow 1 >>= fun below => NewtonSolver.require (!below) g) := by
  rw [Setting.isBelow, bind_assoc]
  exact .compared rfl Iff.rfl fun x => .require (by simp) g

theorem insideUnit (s : Setting R) (g : ConfigurationFailure R) :
    Answers [.field s .insideUnit]
      (s.isInsideUnit >>= fun inside => NewtonSolver.require inside g) := by
  rw [Setting.isInsideUnit, bind_assoc]
  exact .compared rfl Iff.rfl fun x => .require (by simp) g

end Check.Answers

/-! The checks of a solver, of a line search, of a preconditioner and of limits. -/

open Check (Answers)

def KrylovMethod.checks : KrylovMethod R → List (Check R)
  | gmres restart => [.field restart .notBelowOne]
  | _ => []

namespace LinearSolver

def checks : LinearSolver R → List (Check R)
  | direct _ _ => []
  | krylov method f => [.field f.tol .notBelowZero, .field f.atol .notBelowZero] ++
      (Check.ifGiven f.maxiter [.field f.maxiter .notBelowOne] ++ method.checks)

/-- The second tolerance is reached where the first one is passed. -/
theorem tolerance_answers (f : KrylovFields R) (g : ConfigurationFailure R) :
    Answers [.field f.tol .notBelowZero, .field f.atol .notBelowZero]
      (hasNegativeTolerance f >>= fun negative => require (!negative) g) := by
  have hsplit : (hasNegativeTolerance f >>= fun negative => require (!negative) g) =
      (f.tol.isBelow 0 >>= fun below => require (!below) g >>= fun _ =>
        f.atol.isBelow 0 >>= fun below => require (!below) g) := by
    unfold hasNegativeTolerance
    cases f.tol.isBelow 0 with
    | error e => rfl
    | ok below => cases below <;> rfl
  rw [hsplit]
  exact .test (.notBelowZero f.tol g) fun _ => .notBelowZero f.atol g

theorem iterations_answers (f : KrylovFields R) (g : ConfigurationFailure R) :
    Answers (Check.ifGiven f.maxiter [.field f.maxiter .notBelowOne])
      (hasNoIterations f >>= fun none => require (!none) g) := by
  unfold hasNoIterations Check.ifGiven
  cases f.maxiter with
  | none => exact .ok ()
  | _ => exact .notBelowOne _ g

theorem restart_answers (method : KrylovMethod R) (g : ConfigurationFailure R) :
    Answers method.checks (hasNoRestart method >>= fun none => require (!none) g) := by
  cases method with
  | cg => exact .ok ()
  | bicgstab => exact .ok ()
  | gmres restart => exact .notBelowOne restart g

theorem validate_answers (solver : LinearSolver R) : Answers solver.checks solver.validate := by
  cases solver with
  | direct f name => exact .ok ()
  | krylov method f =>
    exact .test (tolerance_answers f _) fun _ =>
      .test (iterations_answers f _) fun _ => restart_answers method _

end LinearSolver

namespace LineSearchStrategy

def checks : LineSearchStrategy R → List (Check R)
  | fullStep _ => []
  | backtracking f => [.field f.decrease .insideUnit, .field f.contraction .insideUnit,
      .field f.maxSteps .notBelowOne, .field f.order .oneOrTwo]
  | external method => [.holds (method.isCallable = true)]

theorem validate_answers (strategy : LineSearchStrategy R) :
    Answers strategy.checks strategy.validate := by
  cases strategy with
  | fullStep name => exact .ok ()
  | external method => exact .require Iff.rfl _
  | backtracking f =>
    have horder : Answers [.field f.order .oneOrTwo]
        (require (f.order.same (.whole 1) || f.order.same (.whole 2))
          (.orderRange (backtracking f))) :=
      .field (Bool.or_eq_true_iff ..) (.inl rfl) (.require Iff.rfl _)
    exact .test (p := id) (.insideUnit f.decrease _) fun _ =>
      .test (p := id) (.insideUnit f.contraction _) fun _ =>
        .test (.notBelowOne f.maxSteps _) fun _ => horder

end LineSearchStrategy

namespace LimitOptions

def checks (o : LimitOptions R) : List (Check R) :=
  [.holds (∃ k : Nat, o.maxIters = .whole k)] ++ ([.field o.tolerance .positive] ++
    Check.ifGiven o.stepTolerance [.field o.stepTolerance .notNegative])

theorem updates_answers (o : LimitOptions R) :
    Answers [.holds (∃ k : Nat, o.maxIters = .whole k)] o.updates := by
  unfold updates
  cases h : o.maxIters with
  | whole i =>
    cases i with
    | ofNat k => exact .given ⟨k, rfl⟩ k
    | negSucc k => exact .lacking (by simp) _
  | _ => exact .lacking (by simp) _

theorem residualBound_answers (o : LimitOptions R) :
    Answers [.field o.tolerance .positive] o.residualBound :=
  .compared rfl Iff.rfl fun x => (Answers.require decide_eq_true_iff _).map fun _ => x

theorem stepBound_answers (o : LimitOptions R) (residualBound : R) :
    Answers (Check.ifGiven o.stepTolerance [.field o.stepTolerance .notNegative])
      (o.stepBound residualBound) := by
  have hbound (s : Setting R) : Answers [.field s .notNegative]
      (liftFault (s.numberOr (.unordered .less s.kind .real)) >>= fun bound =>
        require (!decide (bound < 0)) (.stepTolerance s) >>= fun _ => pure bound) :=
    .compared rfl Iff.rfl fun x => (Answers.require (by simp) _).map fun _ => x
  unfold stepBound Check.ifGiven
  cases o.stepTolerance with
  | none => exact .ok _
  | _ => exact hbound _

theorem validate_answers (o : LimitOptions R) : Answers o.checks o.validate :=
  o.updates_answers.bind fun _ _ => o.residualBound_answers.bind fun bound _ =>
    (o.stepBound_answers bound).map _

end LimitOptions

def PreconditionerSpec.checks : PreconditionerSpec R → List (Check R)
  | jacobi samples _ => [.field samples .atLeastOne]
  | custom _ => []

namespace PreconditionerSpec

variable {s : Setting R}

theorem accepts_of_ne (hs : s ≠ .none) : accepts s = match ofSetting? s with
    | none => .ok false
    | some (custom _) => .ok true
    | some (jacobi samples _) => do
      return decide (1 ≤ (← samples.numberOr (.unordered .atLeast samples.kind .whole))) := by
  unfold accepts
  split <;> simp_all

omit [Scalar R] in
theorem recognize_of_ne (hs : s ≠ .none) : recognize s = match ofSetting? s with
    | none => .error (.configuration (.preconditioner s))
    | some spec => .ok (some spec) := by
  unfold recognize
  split
  · exact absurd rfl hs
  · split <;> simp_all

end PreconditionerSpec

theorem LineSearchStrategy.recognize_answers (s : Setting R) :
    Answers (Check.named (ofSetting? s) checks) (recognize s) := by
  unfold recognize
  cases ofSetting? s with
  | none => exact .named_none _
  | some strategy => exact .named_some strategy (strategy.validate_answers.map fun _ => strategy)

namespace Options

variable (o : Options R)

/-- A solver is recognized, has usable fields and does not need a matrix that is ruled out. -/
def solverChecks : List (Check R) :=
  Check.ifGiven o.linearSolver <| Check.named (LinearSolver.ofSetting? o.linearSolver) fun solver =>
    solver.checks ++ [.holds (¬ (o.concrete = .flag false ∧ solver.requiresMatrix = true))]

def preconditionerChecks : List (Check R) :=
  Check.ifGiven o.preconditioner <|
    Check.named (PreconditionerSpec.ofSetting? o.preconditioner) PreconditionerSpec.checks

def backendChecks (s : Setting R) : List (Check R) :=
  Check.ifGiven s <| Check.named (Backend.ofSetting? s) fun _ => []

def strategyChecks : List (Check R) :=
  match o.lineSearch with
  | .none | .callable _ => []
  | s => Check.named (LineSearchStrategy.ofSetting? s) LineSearchStrategy.checks

/-- All checks, in the order in which they are made. -/
def checks (kind : Setting R) (o : Options R) : List (Check R) :=
  [.holds (kind = .text "newton" ∨ kind = .text "gauss_newton")] ++
  ([.holds (o.concrete = .none ∨ ∃ b, o.concrete = .flag b)] ++
  (o.solverChecks ++ (o.preconditionerChecks ++
  (backendChecks o.autodiff ++ (backendChecks o.vjpAutodiff ++
  ([.holds (o.policy = .text "fail" ∨ o.policy = .text "halve")] ++ o.strategyChecks))))))

theorem kind_answers (kind : Setting R) :
    Answers [.holds (kind = .text "newton" ∨ kind = .text "gauss_newton")]
      (DescentKind.ofSetting kind) := by
  unfold DescentKind.ofSetting
  split
  · exact .given (.inl rfl) _
  · exact .given (.inr rfl) _
  case h_3 hnewton hgauss => exact .lacking (not_or.mpr ⟨hnewton, hgauss⟩) _

theorem policy_answers (s : Setting R) :
    Answers [.holds (s = .text "fail" ∨ s = .text "halve")] (FailurePolicy.ofSetting s) := by
  unfold FailurePolicy.ofSetting
  split
  · exact .given (.inl rfl) _
  · exact .given (.inr rfl) _
  case h_3 hfail hhalve => exact .lacking (not_or.mpr ⟨hfail, hhalve⟩) _

theorem needsMatrix_answers :
    Answers [.holds (o.concrete = .none ∨ ∃ b, o.concrete = .flag b)] o.needsMatrix := by
  unfold needsMatrix
  cases o.concrete with
  | none => exact .given (.inl rfl) _
  | flag b => exact .given (.inr ⟨b, rfl⟩) _
  | _ => exact .lacking (by simp) _

omit [Scalar R] in
theorem needsMatrix_eq_false {needsMatrix : Option Bool} (h : o.needsMatrix = .ok needsMatrix) :
    needsMatrix = some false ↔ o.concrete = .flag false := by
  unfold Options.needsMatrix at h
  split at h
  · cases h
    simp [*]
  · cases h
    simp [*]
  · cases h

theorem solver_answers {needsMatrix : Option Bool} (h : o.needsMatrix = .ok needsMatrix) :
    Answers o.solverChecks (o.solver needsMatrix) := by
  unfold solverChecks solver LinearSolver.recognize
  split
  case h_1 hs =>
    rw [hs, Check.ifGiven_none]
    exact .ok none
  case h_2 s hs =>
    rw [Check.ifGiven_of_ne hs]
    cases LinearSolver.ofSetting? o.linearSolver with
    | none => exact .named_none _
    | some solver =>
      refine .named_some solver ?_
      have hallowed : (!(needsMatrix == some false && solver.requiresMatrix)) = true ↔
          ¬ (o.concrete = .flag false ∧ solver.requiresMatrix = true) := by
        rw [← o.needsMatrix_eq_false h]
        simp [Decidable.imp_iff_not_or]
      rw [bind_assoc]
      exact solver.validate_answers.bind fun _ _ => (Answers.require hallowed _).map _

theorem preconditioner_answers : Answers o.preconditionerChecks o.preconditionerSpec := by
  unfold preconditionerChecks preconditionerSpec
  by_cases hs : o.preconditioner = .none
  · rw [hs, Check.ifGiven_none]
    exact .ok none
  · rw [Check.ifGiven_of_ne hs, PreconditionerSpec.accepts_of_ne hs,
      PreconditionerSpec.recognize_of_ne hs]
    cases PreconditionerSpec.ofSetting? o.preconditioner with
    | none => exact .named_none _
    | some spec =>
      cases spec with
      | custom f => exact .named_some _ (.ok _)
      | jacobi samples seed =>
        have hsamples : Answers [.field samples .atLeastOne]
            (liftFault (samples.numberOr (.unordered .atLeast samples.kind .whole) >>= fun x =>
              pure (decide (1 ≤ x))) >>= fun enough =>
                require enough (.preconditioner o.preconditioner)) := by
          rw [liftFault_bind, bind_assoc]
          exact .compared rfl Iff.rfl fun x => .require decide_eq_true_iff _
        have hspec := hsamples.map fun _ => some (PreconditionerSpec.jacobi samples seed)
        rw [bind_assoc] at hspec
        exact .named_some _ hspec

theorem backend_answers (role : BackendOption) (s : Setting R) :
    Answers (backendChecks s) (backend role s) := by
  unfold backendChecks backend
  split
  case h_1 => exact .ok none
  case h_2 hs =>
    rw [Check.ifGiven_of_ne hs]
    cases Backend.ofSetting? s with
    | none => exact .named_none _
    | some b => exact .named_some b (.ok _)

theorem strategy_answers : Answers o.strategyChecks o.strategy := by
  unfold strategyChecks strategy
  cases o.lineSearch with
  | none => exact .ok _
  | callable f => exact .ok _
  | _ => exact (LineSearchStrategy.recognize_answers _).map _

theorem build_answers (kind : Setting R) : Answers (o.checks kind) (o.build kind) :=
  (kind_answers kind).bind fun _ _ =>
    o.needsMatrix_answers.bind fun _ hneeds =>
      (o.solver_answers hneeds).bind fun _ _ =>
        o.preconditioner_answers.bind fun _ _ =>
          (backend_answers .autodiff o.autodiff).bind fun _ _ =>
            (backend_answers .vjpAutodiff o.vjpAutodiff).bind fun _ _ =>
              (policy_answers o.policy).bind fun _ _ => o.strategy_answers.map _

theorem configure_answers (k : DescentKind) :
    Answers (o.checks (.text k.text)) (o.configure k) :=
  (o.build_answers (.text k.text)).map _

end Options

/-- A result, or a failure of the configuration. -/
def AllOrNothing {α : Type} (x : Except (Failure R) α) : Prop :=
  (∃ a, x = .ok a) ∨ ∃ f, x = .error (.configuration f)

/-- What becomes of a computation is decided by the first of the checks that is not passed. What escapes
is the misfit of that check, and tells of two kinds of values that are in no order. -/
structure Check.Decide {α : Type} (cs : List (Check R)) (x : Except (Failure R) α) : Prop where
  accepted : (∃ a, x = .ok a) ↔ ∀ c ∈ cs, c.Passes
  refused : (∃ f, x = .error (.configuration f)) ↔ ∃ c, FirstFails cs c ∧ ¬ c.IsUnreadable
  escaped : ∀ misfit, x = .error (.unfit misfit) ↔ ∃ c, FirstFails cs c ∧ c.misfit? = some misfit
  unordered : ∀ misfit, x = .error (.unfit misfit) →
    ∃ comparison left right, misfit = .unordered comparison left right
  allOrNothing : AllOrNothing x ↔ ¬ ∃ c, FirstFails cs c ∧ c.IsUnreadable

namespace Check

theorem unordered_of_misfit? {c : Check R} {misfit : Misfit} (h : c.misfit? = some misfit) :
    ∃ comparison left right, misfit = .unordered comparison left right := by
  cases c with
  | holds p => cases h
  | field s r =>
    simp only [misfit?] at h
    split at h
    · cases h
    · cases r <;> cases h <;> exact ⟨_, _, _, rfl⟩

theorem Answers.allOrNothing_iff {α : Type} {cs : List (Check R)} {x : Except (Failure R) α}
    (hx : Answers cs x) : AllOrNothing x ↔ ¬ ∃ c, FirstFails cs c ∧ c.IsUnreadable := by
  cases hx with
  | passed a h =>
    exact iff_of_true (.inl ⟨a, rfl⟩) fun ⟨c, hc, _⟩ => hc.not_passes (h c hc.mem)
  | refused f h hc => exact iff_of_true (.inr ⟨f, rfl⟩) fun ⟨d, hd, hread⟩ => hc (h.unique hd ▸ hread)
  | unfit h hc =>
    exact iff_of_false (by simp [AllOrNothing])
      (not_not_intro ⟨_, h, isUnreadable_iff.mpr ⟨_, hc⟩⟩)

theorem Answers.decide {α : Type} {cs : List (Check R)} {x : Except (Failure R) α}
    (hx : Answers cs x) : Decide cs x where
  accepted := hx.exists_ok_iff
  refused := hx.configuration_iff
  escaped := hx.unfit_iff
  unordered misfit hmisfit := by
    obtain ⟨c, -, hc⟩ := (hx.unfit_iff misfit).mp hmisfit
    exact unordered_of_misfit? hc
  allOrNothing := hx.allOrNothing_iff

end Check

namespace Options

/-- Options make a configuration or are refused as options, unless the first check that they do not pass
compares a field that holds no number. -/
theorem build_decide (o : Options R) (kind : Setting R) :
    Check.Decide (o.checks kind) (o.build kind) ∧
      ∀ k : DescentKind, Check.Decide (o.checks (.text k.text)) (o.configure k) :=
  ⟨(o.build_answers kind).decide, fun k => (o.configure_answers k).decide⟩

/-- A tolerance in words. -/
def wordyTolerance : Options Float :=
  { defaults with linearSolver := .tag .krylovCG [.text "abc", .real 0, .none] }

/-- What escapes is a type error in words of the comparison. -/
theorem wordyTolerance_escapes :
    (∃ misfit, wordyTolerance.build (.text "newton") = .error (.unfit misfit) ∧ misfit.toClass = .type ∧
      misfit.message? = some "'<' not supported between instances of 'str' and 'int'") ∧
    ¬ AllOrNothing (wordyTolerance.build (.text "newton")) ∧
    ∀ k : DescentKind, ¬ AllOrNothing (wordyTolerance.configure k) := by
  have hbuild (k : DescentKind) :
      wordyTolerance.build (.text k.text) = .error (.unfit (.unordered .less .text .whole)) := by
    cases k <;> rfl
  have hnot (k : DescentKind) : ¬ AllOrNothing (wordyTolerance.build (.text k.text)) := by
    rw [hbuild]
    simp [AllOrNothing]
  refine ⟨⟨_, hbuild .newton, rfl, by decide +kernel⟩, hnot .newton, fun k => ?_⟩
  rw [configure, hbuild]
  simp [AllOrNothing]

end Options

end NewtonSolver
