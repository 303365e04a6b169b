import NewtonSolver.Proofs.Outcome
import NewtonSolver.Proofs.Run.Agreement
import NewtonSolver.Proofs.Run.Shape

/-! Residuals without automatic derivatives are used through their values only. What stands in the
problem for their derivatives can be exchanged, and no run shows it. -/
namespace NewtonSolver

variable {R : Type} [Scalar R] {m n : Nat}

/-- The backend takes differences, of single columns or of columns that share a color. -/
def Backend.TakesDifferences (b : Option (Backend R)) : Prop :=
  ∃ scheme step, b = some (.dense (.finite scheme step)) ∨ b = some (.sparse (.finite scheme step))

namespace Problem

/-- The same problem but for the automatic derivatives of the residual. -/
def withDerivatives (P : Problem R m n) (forward : Vec R n → Vec R n → Vec R m)
    (backward : Vec R n → Vec R m → Vec R n) : Problem R m n :=
  { P with residual := { P.residual with forward, backward } }

/-- Two problems without automatic derivatives that state the same, with residuals of the same values. -/
structure AgreesOnValues (P Q : Problem R m n) : Prop where
  untraceable : P.traceable = false
  traceable : P.traceable = Q.traceable
  value : ∀ x, P.residual.value x = Q.residual.value x
  isBare : P.residual.isBare = Q.residual.isBare
  jacobian : P.jacobian = Q.jacobian
  products : P.products = Q.products
  transposedProducts : P.transposedProducts = Q.transposedProducts
  sparsity : P.sparsity = Q.sparsity

omit [Scalar R] in
theorem AgreesOnValues.eq_withDerivatives {P Q : Problem R m n} (h : P.AgreesOnValues Q) :
    Q = P.withDerivatives Q.residual.forward Q.residual.backward := by
  obtain ⟨⟨value, forward, backward, isBare⟩, jacobian, products, transposed, sparsity, traceable⟩ := Q
  obtain ⟨-, rfl, hvalue, rfl, rfl, rfl, rfl, rfl⟩ := h
  obtain rfl : P.residual.value = value := funext hvalue
  rfl

/-- Differences of single columns need nothing but values. -/
theorem resolvePath_differences {P : Problem R m n} (hj : P.jacobian = none) {c : Configuration R}
    (hc : c.concrete = true) {scheme step : Setting R}
    (hb : c.jacobianBackend = some (.dense (.finite scheme step))) (x : Vec R n) :
    ∃ path, P.resolvePath c x = .ok path := by
  have hdense : P.materializer c.jacobianBackend x = P.dense (some (.finite scheme step)) := by
    unfold materializer
    rw [hj, hb]
  rw [resolvePath, if_pos hc, hdense]
  exact ⟨_, rfl⟩

section Untraceable

variable {P : Problem R m n} (ht : P.traceable = false)

include ht

omit [Scalar R] in
theorem requireTraceable_untraceable (request : DerivativeRequest) :
    P.requireTraceable request = .error (.differentiation (.notTraceable request)) := by
  simp [requireTraceable, ht]

theorem automatically_untraceable (mode : DerivativeMode) :
    dense.automatically P mode = .error (.differentiation (.notTraceable .jacobian)) := by
  simp [dense.automatically, requireTraceable_untraceable ht]

theorem sparse_untraceable {d : DenseBackend R} (hd : d.mode ≠ .finite) (x : Vec R n) :
    P.sparse d x = .error (.differentiation (.notTraceable .jacobian)) := by
  simp [sparse, hd, requireTraceable_untraceable ht]

/-- Without a stated Jacobian, every backend but differences is refused. -/
theorem materializer_refused (hj : P.jacobian = none) {b : Option (Backend R)}
    (hb : ¬ Backend.TakesDifferences b) (x : Vec R n) :
    P.materializer b x = .error (.differentiation .noJacobianSource) ∨
      P.materializer b x = .error (.differentiation (.notTraceable .jacobian)) := by
  unfold materializer
  rw [hj]
  cases b with
  | none => exact .inl (by simp [ht])
  | some b =>
    refine .inr ?_
    cases b with
    | dense d =>
      cases d with
      | forward name => exact automatically_untraceable ht _
      | reverse name => exact automatically_untraceable ht _
      | finite scheme step => exact absurd ⟨scheme, step, .inl rfl⟩ hb
    | sparse d =>
      cases d with
      | forward name => exact sparse_untraceable ht DerivativeMode.noConfusion x
      | reverse name => exact sparse_untraceable ht DerivativeMode.noConfusion x
      | finite scheme step => exact absurd ⟨scheme, step, .inr rfl⟩ hb

theorem resolvePath_refused (hj : P.jacobian = none) {c : Configuration R} (hc : c.concrete = true)
    (hb : ¬ Backend.TakesDifferences c.jacobianBackend) (x : Vec R n) :
    ∃ f, P.resolvePath c x = .error (.differentiation f) ∧
      (f = .noJacobianSource ∨ f = .notTraceable .jacobian) := by
  rw [resolvePath, if_pos hc]
  rcases materializer_refused ht hj hb x with hm | hm
  · exact ⟨.noJacobianSource, by simp [hm], .inl rfl⟩
  · exact ⟨.notTraceable .jacobian, by simp [hm], .inr rfl⟩

variable (forward : Vec R n → Vec R n → Vec R m) (backward : Vec R n → Vec R m → Vec R n)

omit [Scalar R] in
theorem agreesOnValues_withDerivatives : P.AgreesOnValues (P.withDerivatives forward backward) :=
  ⟨ht, rfl, fun _ => rfl, rfl, rfl, rfl, rfl, rfl⟩

omit [Scalar R] in
theorem withDerivatives_untraceable : (P.withDerivatives forward backward).traceable = false := ht

theorem dense_withDerivatives (d : Option (DenseBackend R)) :
    (P.withDerivatives forward backward).dense d = P.dense d := by
  have ha (mode : DerivativeMode) :
      dense.automatically (P.withDerivatives forward backward) mode = dense.automatically P mode := by
    rw [automatically_untraceable (withDerivatives_untraceable ht forward backward),
      automatically_untraceable ht]
  cases d with
  | none => exact ha _
  | some d =>
    cases d with
    | forward name => exact ha _
    | reverse name => exact ha _
    | finite scheme step => rfl

theorem pattern_withDerivatives (d : DenseBackend R) (x : Vec R n) :
    (P.withDerivatives forward backward).pattern d x = P.pattern d x := by
  simp only [pattern, dense_withDerivatives ht]
  rfl

/-- Only differences get as far as compressed products, and they compare values. -/
theorem sparse_withDerivatives (d : DenseBackend R) (x : Vec R n) :
    (P.withDerivatives forward backward).sparse d x = P.sparse d x := by
  by_cases hd : d.mode = .finite
  · cases d with
    | finite scheme step =>
      simp only [sparse, pattern_withDerivatives ht]
      rfl
    | forward name => cases hd
    | reverse name => cases hd
  · rw [sparse_untraceable (withDerivatives_untraceable ht forward backward) hd,
      sparse_untraceable ht hd]

theorem materializer_withDerivatives (b : Option (Backend R)) (x : Vec R n) :
    (P.withDerivatives forward backward).materializer b x = P.materializer b x := by
  simp only [materializer, dense_withDerivatives ht, sparse_withDerivatives ht]
  rfl

theorem resolvePath_withDerivatives (c : Configuration R) (x : Vec R n) :
    (P.withDerivatives forward backward).resolvePath c x = P.resolvePath c x := by
  simp only [resolvePath, materializer_withDerivatives ht]
  rfl

/-- Where automatic products stand the request for them has been refused, so the products that are left
are stated ones and differences. -/
theorem productsAt_withDerivatives (c : Configuration R) (x : Vec R n) (fx : Vec R m) :
    (P.withDerivatives forward backward).productsAt c x fx = P.productsAt c x fx := by
  have ht' := withDerivatives_untraceable ht forward backward
  simp only [productsAt, requireTraceable_untraceable ht, requireTraceable_untraceable ht', ht, ht',
    Outcome.error_bind, Bool.false_eq_true, if_false]
  rfl

theorem transposedProductsAt_withDerivatives (c : Configuration R) (x : Vec R n) (fx : Vec R m) :
    (P.withDerivatives forward backward).transposedProductsAt c x fx =
      P.transposedProductsAt c x fx := by
  have ht' := withDerivatives_untraceable ht forward backward
  simp only [transposedProductsAt, requireTraceable_untraceable ht, requireTraceable_untraceable ht', ht,
    ht', Outcome.error_bind, Bool.false_eq_true, if_false]
  rfl

theorem acquire_withDerivatives (c : Configuration R) :
    (P.withDerivatives forward backward).acquire c = P.acquire c := by
  funext path x fx
  simp only [acquire, operatorAt, productsAt_withDerivatives ht, transposedProductsAt_withDerivatives ht]
  rfl

end Untraceable

end Problem

namespace Setup

variable {S : Setup R m n} {Q : Problem R m n}

theorem agrees_withDerivatives (ht : S.problem.traceable = false)
    (forward : Vec R n → Vec R n → Vec R m) (backward : Vec R n → Vec R m → Vec R n) :
    S.Agrees { S with problem := S.problem.withDerivatives forward backward } where
  limits := rfl
  value := rfl
  path := funext fun x => (Problem.resolvePath_withDerivatives ht forward backward _ x).symm
  acquire := (Problem.acquire_withDerivatives ht forward backward _).symm
  descent := rfl
  lineSearch := rfl
  merit := by
    simp only [ht, Problem.withDerivatives_untraceable ht]
    rfl
  policy := rfl

/-- A residual without automatic derivatives is seen through its values only: with another one of the
same values every run is the same. Where the Jacobian is a matrix that the problem does not state, the
backend takes differences or the run finds no path. -/
theorem iterate_untraceable (h : S.problem.AgreesOnValues Q) :
    (∀ start, { S with problem := Q }.iterate start = S.iterate start) ∧
      (S.configuration.concrete = true → S.problem.jacobian = none → ∀ x,
        (∀ path, S.problem.resolvePath S.configuration x = .ok path →
          Backend.TakesDifferences S.configuration.jacobianBackend) ∧
        (∀ scheme step, S.configuration.jacobianBackend = some (.dense (.finite scheme step)) →
          ∃ path, S.problem.resolvePath S.configuration x = .ok path) ∧
        (¬ Backend.TakesDifferences S.configuration.jacobianBackend →
          ∃ f, S.problem.resolvePath S.configuration x = .error (.differentiation f) ∧
            (f = .noJacobianSource ∨ f = .notTraceable .jacobian))) := by
  refine ⟨?_, ?_⟩
  · intro start
    have hagrees := agrees_withDerivatives h.untraceable Q.residual.forward Q.residual.backward
    rw [← h.eq_withDerivatives] at hagrees
    exact congrFun hagrees.iterate_eq.symm start
  · intro hconcrete hj x
    refine ⟨?_, fun _ _ hb => Problem.resolvePath_differences hj hconcrete hb x,
      fun hb => Problem.resolvePath_refused h.untraceable hj hconcrete hb x⟩
    intro path hpath
    by_cases hb : Backend.TakesDifferences S.configuration.jacobianBackend
    · exact hb
    · obtain ⟨f, hf, -⟩ := Problem.resolvePath_refused h.untraceable hj hconcrete hb x
      rw [hpath] at hf
      cases hf

/-- The method for the square root of two, with matrices and without automatic derivatives. -/
def untracedRoot (b : Option (Backend Float)) : Setup Float 1 1 :=
  { rootOfTwo with
    problem := { rootOfTwo.problem with traceable := false }
    configuration := { rootOfTwo.configuration with needsMatrix := some true, jacobianBackend := b } }

def centralDifferences : Backend Float := .dense (.finite (.text "central") .none)

/-- Wrong derivatives do not show in the run with differences, and without a backend there is no path. -/
theorem untracedRoot_iterate :
    (∃ Q, (untracedRoot (some centralDifferences)).problem.AgreesOnValues Q ∧
      Q.residual.forward #v[1] #v[1] ≠ (untracedRoot none).problem.residual.forward #v[1] #v[1] ∧
      { untracedRoot (some centralDifferences) with problem := Q }.iterate #v[1] =
        (untracedRoot (some centralDifferences)).iterate #v[1]) ∧
    Backend.TakesDifferences (some centralDifferences) ∧
    ∃ f, (untracedRoot none).problem.resolvePath (untracedRoot none).configuration #v[1] =
      .error (.differentiation f) := by
  have hagrees (b : Option (Backend Float)) : (untracedRoot b).problem.AgreesOnValues
      ((untracedRoot b).problem.withDerivatives (fun _ _ => 0) fun _ _ => 0) :=
    Problem.agreesOnValues_withDerivatives rfl _ _
  have hnone : ¬ Backend.TakesDifferences (none : Option (Backend Float)) := by
    rintro ⟨_, _, h | h⟩ <;> cases h
  obtain ⟨hrun, hpath⟩ := iterate_untraceable (hagrees (some centralDifferences))
  obtain ⟨f, hf, -⟩ := ((iterate_untraceable (hagrees none)).2 rfl rfl #v[1]).2.2 hnone
  obtain ⟨path, hresolved⟩ := (hpath rfl rfl #v[1]).2.1 _ _ rfl
  exact ⟨⟨_, hagrees _, by decide +kernel, hrun #v[1]⟩, (hpath rfl rfl #v[1]).1 path hresolved, f, hf⟩

end Setup

end NewtonSolver
