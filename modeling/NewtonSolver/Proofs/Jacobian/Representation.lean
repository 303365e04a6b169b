import Mathlib
import NewtonSolver.Proofs.Jacobian.Colored
import NewtonSolver.Proofs.Jacobian.Differences

/-! Every way of getting a Jacobian gives the same linear map. For an affine residual all of them are
exact, so whichever the options select, entries and products are those of its matrix. -/
namespace NewtonSolver

variable {m n : Nat}

/-- The Jacobian stands for the matrix, by its entries or by its products. Transposed products may be
left out where nobody asks for them. -/
inductive JacobianInfo.Represents (A : Mat ℝ m n) : JacobianInfo ℝ m n → Prop
  | matrix : Represents A (.matrix A)
  | operator {J : JacobianOperator ℝ m n} (happly : ∀ v, J.apply v = .ok (A.mulVec v))
    (htranspose : J.applyTranspose = Problem.missingTranspose ∨
      ∀ u, J.applyTranspose u = .ok (A.vecMul u)) : Represents A (.operator J)

/-- Every difference is taken with a step other than zero. -/
def Configuration.HasSteps (c : Configuration ℝ) : Prop :=
  ∀ b, c.jacobianBackend = some b ∨ c.transposedBackend = some b → b.underlying.HasStep

namespace Problem

/-- The residual is `A x - b`, and whatever else is known of its derivatives is right. -/
structure IsAffine (P : Problem ℝ m n) (A : Mat ℝ m n) (b : Vec ℝ m) : Prop where
  vector : P.residual.isBare = false
  value : ∀ x, P.residual.value x = A.mulVec x - b
  automatic : P.traceable = true → P.residual.HasJacobian fun _ => A
  jacobian : ∀ f, P.jacobian = some f → ∀ x, f x = .ok (.ofMat A)
  products : ∀ f, P.products = some f → ∀ x v, f x v = .ok (A.mulVec v)
  transposedProducts : ∀ f, P.transposedProducts = some f → ∀ x u, f x u = .ok (A.vecMul u)
  sparsity : ∀ T pattern, P.sparsity = some T → T.fit? m n = some pattern → Pattern.Covers pattern A

/-- What a request for a Jacobian can be refused for: no automatic derivatives, or a pattern of another
size. -/
def IsLimited (P : Problem ℝ m n) : Prop :=
  P.traceable = false ∨ ∃ T, P.sparsity = some T ∧ T.fit? m n = none

/-- Transposed products that are those of the matrix. They may be unknown where there are no automatic
derivatives. -/
inductive TransposedBy (P : Problem ℝ m n) (A : Mat ℝ m n) : Option (Product ℝ m n) → Prop
  | unknown (h : P.IsLimited) : TransposedBy P A none
  | known {p : Product ℝ m n} (hp : ∀ u, p u = .ok (A.vecMul u)) : TransposedBy P A (some p)

variable {P : Problem ℝ m n} {A : Mat ℝ m n} {b : Vec ℝ m} {c : Configuration ℝ} {d : DenseBackend ℝ}
  {scheme step : Setting ℝ} {pattern : Pattern m n}

theorem requireTraceable_refusedOr (request : DerivativeRequest) :
    RefusedOr P.IsLimited (fun _ => P.traceable = true) (P.requireTraceable request) := by
  unfold requireTraceable
  split
  · next h => exact .gives h
  · next h => exact .refused (.inl (Bool.not_eq_true _ ▸ h)) _

theorem analytical_eq {f : Vec ℝ n → Except Fault (Table ℝ)} (hf : ∀ x, f x = .ok (.ofMat A))
    (x : Vec ℝ n) : analytical f x = (.ok A : Except Fault (Mat ℝ m n)) := by
  simp [analytical, hf, Table.fit?, Table.ofMat]

theorem schemeOf_ok {B : Option (Backend ℝ)} (hB : ∀ e, B = some e → e.underlying.HasStep) :
    ∃ S, schemeOf B = .ok S ∧ S.step ≠ 0 := by
  unfold schemeOf
  split
  · next scheme step hd =>
    obtain ⟨e, rfl, he⟩ := Option.map_eq_some_iff.mp hd
    exact DifferenceScheme.ofFields_ok (he ▸ hB e rfl)
  · exact ⟨_, rfl, DifferenceScheme.defaultStep_ne_zero false⟩

namespace IsAffine

theorem differencesAre (hP : P.IsAffine A b) {S : DifferenceScheme ℝ} (hS : S.step ≠ 0)
    {fx : Option (Vec ℝ m)} {x : Vec ℝ n} (hfx : fx.getD (P.residual.value x) = P.residual.value x) :
    P.residual.DifferencesAre S fx x A :=
  Residual.differencesAre_of_exactAt hP.vector hS hfx (DifferenceScheme.affine_exactAt hP.value x)

theorem differences_eq (hP : P.IsAffine A b) (hs : DenseBackend.HasStep (.finite scheme step)) :
    P.differences scheme step = fun _ => .ok A := by
  obtain ⟨S, hS, hne⟩ := DifferenceScheme.ofFields_ok hs
  funext x
  have hJ : P.residual.differenceJacobian S none x = .ok A := (hP.differencesAre hne rfl).jacobian
  simp [differences, hS, hJ]

theorem automatically_refusedOr (hP : P.IsAffine A b) (mode : DerivativeMode) :
    RefusedOr P.IsLimited (fun p => p.1 = fun _ => .ok A) (dense.automatically P mode) := by
  refine (requireTraceable_refusedOr _).bind ?_
  intro _ ht
  exact .gives (automaticMatrix_eq (hP.automatic ht) mode)

theorem dense_refusedOr (hP : P.IsAffine A b) {d : Option (DenseBackend ℝ)}
    (hd : ∀ e, d = some e → e.HasStep) :
    RefusedOr P.IsLimited (fun p => p.1 = fun _ => .ok A) (P.dense d) := by
  cases d with
  | none => exact hP.automatically_refusedOr _
  | some d =>
    cases d with
    | finite scheme step => exact .gives (hP.differences_eq (hd _ rfl))
    | forward name => exact hP.automatically_refusedOr _
    | reverse name => exact hP.automatically_refusedOr _

/-- A pattern that is found covers the matrix, as the Jacobian is the same at every point. -/
theorem pattern_refusedOr (hP : P.IsAffine A b) (hd : d.HasStep) (x : Vec ℝ n) :
    RefusedOr P.IsLimited (fun pattern => Pattern.Covers pattern A) (P.pattern d x) := by
  unfold pattern
  split
  · next T hT =>
    split
    · next pattern hfit => exact .gives (hP.sparsity T pattern hT hfit)
    · next hfit => exact .refused (.inr ⟨T, hT, hfit⟩) _
  · simp only [hP.vector, Bool.false_and, Bool.false_eq_true, if_false]
    refine (hP.dense_refusedOr (by simpa using hd)).bind ?_
    rintro ⟨jacobian, source⟩ rfl
    obtain ⟨Q, hQ, hcov⟩ := Pattern.detect_covers (fun _ => A) x 2 0
    simp only [hQ]
    exact .gives hcov

/-- One product for each color is enough, be it exact or a difference. -/
theorem compressedJacobian_eq (hP : P.IsAffine A b) (hd : d.HasStep)
    (ht : d.mode ≠ .finite → P.traceable = true) (hcov : Pattern.Covers pattern A) :
    P.residual.compressedJacobian d pattern (.greedy d.mode pattern) = fun _ => .ok A := by
  funext x
  cases d with
  | finite scheme step =>
    obtain ⟨S, hS, hne⟩ := DifferenceScheme.ofFields_ok hd
    have hp : S.product P.residual.value (P.residual.value x) x = A.mulVec :=
      funext ((DifferenceScheme.affine_exactAt hP.value x).product_eq hne)
    simp only [Residual.compressedJacobian, Residual.coloredJacobian, Residual.requireVector_ok hP.vector,
      DenseBackend.mode, Compression.greedy, hS, hp, Outcome.ok_bind]
    exact (Compression.expandColumns_ok (Coloring.lt_count _)).trans
      (congrArg Except.ok (Compression.gathered_eq (Compression.greedy_valid .finite pattern) hcov))
  | forward name =>
    have hmode : (DenseBackend.forward name : DenseBackend ℝ).mode ≠ .finite :=
      DerivativeMode.noConfusion
    exact (hP.automatic (ht hmode)).compressedJacobian_eq hmode hcov
  | reverse name =>
    have hmode : (DenseBackend.reverse name : DenseBackend ℝ).mode ≠ .finite :=
      DerivativeMode.noConfusion
    exact (hP.automatic (ht hmode)).compressedJacobian_eq hmode hcov

theorem sparse_refusedOr (hP : P.IsAffine A b) (hd : d.HasStep) (x : Vec ℝ n) :
    RefusedOr P.IsLimited (fun p => p.1 = fun _ => .ok A) (P.sparse d x) := by
  have hpattern {q : Pattern m n → Materializer ℝ m n × JacobianSource}
      (hq : ∀ pattern, Pattern.Covers pattern A → (q pattern).1 = fun _ => .ok A) :
      RefusedOr P.IsLimited (fun p => p.1 = fun _ => .ok A) (do return q (← P.pattern d x)) :=
    (hP.pattern_refusedOr hd x).bind fun pattern hcov => .gives (hq pattern hcov)
  unfold sparse
  split
  · refine (requireTraceable_refusedOr .jacobian).bind ?_
    intro _ ht
    exact hpattern fun pattern => hP.compressedJacobian_eq hd fun _ => ht
  · next hfinite => exact hpattern fun pattern => hP.compressedJacobian_eq hd fun h => absurd h hfinite

theorem materializer_refusedOr (hP : P.IsAffine A b) {B : Option (Backend ℝ)}
    (hB : ∀ e, B = some e → e.underlying.HasStep) (x : Vec ℝ n) :
    RefusedOr P.IsLimited (fun p => p.1 = fun _ => .ok A) (P.materializer B x) := by
  unfold materializer
  split
  · next f hf => exact .gives (funext (analytical_eq (hP.jacobian f hf)))
  · exact hP.sparse_refusedOr (hB _ rfl) x
  · next d =>
    refine hP.dense_refusedOr ?_
    rintro e ⟨⟩
    exact hB _ rfl
  · split
    · exact hP.dense_refusedOr nofun
    · next h => exact .refused (.inl (Bool.not_eq_true _ ▸ h)) _

theorem automaticProducts_eq (hP : P.IsAffine A b) (ht : P.traceable = true) (x v : Vec ℝ n) :
    P.automaticProducts x v = .ok (A.mulVec v) := by
  simp [automaticProducts, Residual.requireVector_ok hP.vector, (hP.automatic ht).forward]

theorem automaticTransposedProducts_eq (hP : P.IsAffine A b) (ht : P.traceable = true) (x : Vec ℝ n)
    (u : Vec ℝ m) : P.automaticTransposedProducts x u = .ok (A.vecMul u) := by
  simp [automaticTransposedProducts, Residual.requireVector_ok hP.vector, (hP.automatic ht).backward]

theorem differenceProducts_eq (hP : P.IsAffine A b) {scheme : Except Fault (DifferenceScheme ℝ)}
    {S : DifferenceScheme ℝ} (hscheme : scheme = .ok S) (hS : S.step ≠ 0) (x v : Vec ℝ n) :
    P.differenceProducts scheme x (P.residual.value x) v = .ok (A.mulVec v) := by
  have hp : P.residual.differenceProduct S (some (P.residual.value x)) x v = .ok (A.mulVec v) :=
    (hP.differencesAre hS rfl).product v
  simp [differenceProducts, hscheme, hp]

theorem differenceTransposedProducts_eq (hP : P.IsAffine A b)
    {scheme : Except Fault (DifferenceScheme ℝ)} {S : DifferenceScheme ℝ} (hscheme : scheme = .ok S)
    (hS : S.step ≠ 0) (x : Vec ℝ n) :
    P.differenceTransposedProducts scheme x (P.residual.value x) = .ok fun u => .ok (A.vecMul u) := by
  have hJ : P.residual.differenceJacobian S (some (P.residual.value x)) x = .ok A :=
    (hP.differencesAre hS rfl).jacobian
  simp [differenceTransposedProducts, hscheme, hJ]

theorem productsAt_refusedOr (hP : P.IsAffine A b) (hc : c.HasSteps) (x : Vec ℝ n) :
    RefusedOr P.IsLimited (fun p => ∀ v, p v = .ok (A.mulVec v))
      (P.productsAt c x (P.residual.value x)) := by
  obtain ⟨S, hscheme, hS⟩ := schemeOf_ok fun B hB => hc B (.inl hB)
  unfold productsAt
  split
  · next f hf => exact .gives (hP.products f hf x)
  · next f _ hf =>
    rw [analytical_eq (hP.jacobian f hf)]
    exact .gives fun v => rfl
  · split
    · exact (requireTraceable_refusedOr _).bind fun _ ht => .gives (hP.automaticProducts_eq ht x)
    · exact (requireTraceable_refusedOr _).bind fun _ ht => .gives (hP.automaticProducts_eq ht x)
    · exact .gives (hP.differenceProducts_eq hscheme hS x)
    · split
      · next ht => exact .gives (hP.automaticProducts_eq ht x)
      · exact .gives (hP.differenceProducts_eq rfl (DifferenceScheme.defaultStep_ne_zero false) x)

/-- Where there is a way to transposed products, they are those of the matrix. -/
theorem transposedProductsAt_refusedOr (hP : P.IsAffine A b) (hc : c.HasSteps) (x : Vec ℝ n) :
    RefusedOr P.IsLimited (P.TransposedBy A)
      (P.transposedProductsAt c x (P.residual.value x)) := by
  obtain ⟨S, hscheme, hS⟩ := schemeOf_ok fun B hB => hc B (.inl hB)
  obtain ⟨T, hscheme', hT⟩ := schemeOf_ok fun B hB => hc B (.inr hB)
  have hgives {p : Product ℝ m n} (hp : ∀ u, p u = .ok (A.vecMul u)) :
      RefusedOr P.IsLimited (P.TransposedBy A) (.ok (some p)) := .gives (.known hp)
  unfold transposedProductsAt
  split
  · next f hf => exact hgives (hP.transposedProducts f hf x)
  · next f _ hf =>
    rw [analytical_eq (hP.jacobian f hf)]
    exact hgives fun u => rfl
  · split
    · refine (requireTraceable_refusedOr _).bind ?_
      exact fun _ ht => hgives (hP.automaticTransposedProducts_eq ht x)
    · refine (requireTraceable_refusedOr _).bind ?_
      exact fun _ ht => hgives (hP.automaticTransposedProducts_eq ht x)
    · rw [hP.differenceTransposedProducts_eq hscheme' hT]
      exact hgives fun u => rfl
    · split
      · next ht => exact hgives (hP.automaticTransposedProducts_eq ht x)
      · next ht =>
        have hlimited : P.IsLimited := .inl (Bool.not_eq_true _ ▸ ht)
        split
        · rw [hP.differenceTransposedProducts_eq hscheme hS]
          exact hgives fun u => rfl
        · rw [hP.differenceTransposedProducts_eq hscheme hS]
          exact hgives fun u => rfl
        · exact .gives (.unknown hlimited)
        · exact .gives (.unknown hlimited)

theorem operatorAt_refusedOr (hP : P.IsAffine A b) (hc : c.HasSteps) (needsTranspose : Bool)
    (x : Vec ℝ n) :
    RefusedOr P.IsLimited (fun J => (JacobianInfo.operator J).Represents A)
      (P.operatorAt c needsTranspose x (P.residual.value x)) := by
  refine (hP.productsAt_refusedOr hc x).bind ?_
  intro apply happly
  refine (hP.transposedProductsAt_refusedOr hc x).bind ?_
  intro transposed htransposed
  cases htransposed with
  | unknown hP =>
    dsimp only
    split
    · exact .refused hP _
    · exact .gives (.operator happly (.inl rfl))
  | known hu => exact .gives (.operator happly (.inr hu))

/-- A path that has matrices has the right one at every point. -/
theorem resolvePath_refusedOr (hP : P.IsAffine A b) (hc : c.HasSteps) (settled : Vec ℝ n) :
    RefusedOr P.IsLimited
      (fun path => ∀ f, path.materialize = some f → f = fun _ => .ok A) (P.resolvePath c settled) := by
  unfold resolvePath
  split
  · refine (hP.materializer_refusedOr (fun e he => hc e (.inl he)) settled).bind ?_
    rintro ⟨materialize, source⟩ hmaterialize
    refine .gives ?_
    rintro f ⟨⟩
    exact hmaterialize
  · exact .gives nofun

theorem acquire_refusedOr (hP : P.IsAffine A b) (hc : c.HasSteps) {path : JacobianPath ℝ m n}
    (hpath : ∀ f, path.materialize = some f → f = fun _ => .ok A) (x : Vec ℝ n) :
    RefusedOr P.IsLimited (JacobianInfo.Represents A)
      (P.acquire c path x (P.residual.value x)) := by
  unfold acquire
  split
  · next materialize hm =>
    rw [hpath materialize hm]
    simp only [Outcome.ok_bind, Exact.allFinite_mat, if_true]
    exact .gives .matrix
  · refine (hP.operatorAt_refusedOr hc _ x).bind ?_
    intro J hJ
    exact .gives hJ

end IsAffine

/-- Two equations without automatic derivatives. The second one leaves the first unknown out, and the
pattern says so. -/
noncomputable def staggered : Problem ℝ 2 2 where
  residual := .affine (.ofFn fun i j => if i ≤ j then 1 else 0) (.ofFn fun _ => 1)
  jacobian := none
  products := none
  transposedProducts := none
  sparsity := some (.ofMat (Mat.ofFn fun i j : Fin 2 => decide (i ≤ j)))
  traceable := false

theorem staggered_isAffine :
    staggered.IsAffine (.ofFn fun i j => if i ≤ j then 1 else 0) (.ofFn fun _ => 1) where
  vector := rfl
  value _ := rfl
  automatic := nofun
  jacobian := nofun
  products := nofun
  transposedProducts := nofun
  sparsity := by
    rintro T pattern ⟨⟩ ⟨⟩ i j
    simp

end Problem

namespace Setup

variable {S : Setup ℝ m n} {A : Mat ℝ m n} {b : Vec ℝ m}

/-- Whatever the options select, the Jacobian that is acquired is the matrix of the residual. It is
refused only if there are no automatic derivatives or the stated pattern has another size. -/
theorem jacobianFrom_represents (hP : S.problem.IsAffine A b) (hc : S.configuration.HasSteps)
    (start x : Vec ℝ n) :
    RefusedOr S.problem.IsLimited (fun r => r.2.Represents A) (S.jacobianFrom start x) := by
  refine (hP.resolvePath_refusedOr hc start).bind ?_
  intro path hpath
  refine (hP.acquire_refusedOr hc hpath x).bind ?_
  intro J hJ
  exact .gives hJ

/-- A method that works with matrices gets the one of the residual with both axes, unless that is
refused. -/
theorem jacobianFrom_eq_matrix (hP : S.problem.IsAffine A b) (hc : S.configuration.HasSteps)
    (hconcrete : S.configuration.concrete = true) (hlimited : ¬ S.problem.IsLimited)
    (start x : Vec ℝ n) :
    ∃ path, S.jacobianFrom start x = .ok (path, .matrix A) ∧ path.lacksRows = false := by
  obtain ⟨⟨materialize, source⟩, hm, hA⟩ :=
    (hP.materializer_refusedOr (fun e he => hc e (.inl he)) start).exists_of_not hlimited
  have hpath : S.problem.resolvePath S.configuration start =
      .ok ⟨S.configuration.solverFor m n, source, some materialize,
        S.configuration.leastSquares m n, false⟩ := by
    simp [Problem.resolvePath, hconcrete, hm, hP.vector]
  have hx : materialize x = .ok A := congrFun hA x
  exact ⟨_, by simp only [jacobianFrom, hpath, Problem.acquire, Outcome.ok_bind, hx,
    Exact.allFinite_mat, if_true]; rfl, rfl⟩

/-- Colored columns by central differences of a long step, and transposed products by short ones. -/
noncomputable def staggeredByDifferences : Setup ℝ 2 2 where
  kernels := .standard
  problem := .staggered
  configuration :=
    { needsMatrix := none
      kind := .newton
      linearSolver := none
      preconditioner := none
      lineSearch := .fullStep (.text "none")
      jacobianBackend := some (.sparse (.finite (.text "central") (.whole 2)))
      transposedBackend := some (.dense (.finite (.text "forward") .none))
      policy := .fail }
  limits := ⟨100, 1, 1⟩

theorem staggeredByDifferences_hasSteps : staggeredByDifferences.configuration.HasSteps := by
  rintro B (⟨⟨⟩⟩ | ⟨⟨⟩⟩)
  · exact .inr ⟨2, by simp [Setting.number, Setting.numberOr, Setting.number?], by norm_num⟩
  · exact .inl rfl

theorem staggered_represented :
    staggeredByDifferences.problem.IsAffine (.ofFn fun i j => if i ≤ j then 1 else 0)
        (.ofFn fun _ => 1) ∧
      staggeredByDifferences.configuration.HasSteps ∧
        RefusedOr staggeredByDifferences.problem.IsLimited
          (fun r => r.2.Represents (.ofFn fun i j => if i ≤ j then 1 else 0))
          (staggeredByDifferences.jacobianFrom 0 #v[4, 5]) :=
  ⟨Problem.staggered_isAffine, staggeredByDifferences_hasSteps,
    jacobianFrom_represents Problem.staggered_isAffine staggeredByDifferences_hasSteps 0 #v[4, 5]⟩

end Setup

end NewtonSolver
