import NewtonSolver.Jacobian.Path
import NewtonSolver.Proofs.Outcome

/-! Residuals that are bare numbers beside the same residuals as vectors of length one. What is known of a
Jacobian is the same for both as long as no derivative has to be found from a vector. -/
namespace NewtonSolver

variable {R : Type} [Scalar R] {m n : Nat}

namespace Problem

/-- The same problem with a vector for the residual, also where it is a bare number. -/
def lifted (P : Problem R m n) : Problem R m n :=
  { P with residual := { P.residual with isBare := false } }

/-- What derivatives are found as. -/
inductive DerivativeForm where
  | entries
  | products
  | transposedProducts
  deriving DecidableEq

/-- Transposed products are found from automatic derivatives of the residual. -/
structure AutomaticTransposes (P : Problem R m n) (c : Configuration R) : Prop where
  concrete : c.concrete = false
  jacobian : P.jacobian = none
  transposedProducts : P.transposedProducts = none
  traceable : P.traceable = true
  mode : c.transposedBackend.map Backend.mode ≠ some .finite

/-- The steps of a run need derivatives that are found from the residual as a vector: all entries that the
problem does not state, and products by automatic derivatives or by differences on both sides. -/
inductive NeedsVector (P : Problem R m n) (c : Configuration R) : DerivativeForm → Prop
  | entries (hc : c.concrete = true) (hj : P.jacobian = none) : NeedsVector P c .entries
  | automatic (hc : c.concrete = false) (hj : P.jacobian = none) (hp : P.products = none)
    (ht : P.traceable = true) (hb : c.jacobianBackend.map Backend.mode ≠ some .finite) :
    NeedsVector P c .products
  | central {scheme : DifferenceScheme R} (hc : c.concrete = false) (hj : P.jacobian = none)
    (hp : P.products = none) (hs : schemeOf c.jacobianBackend = .ok scheme)
    (h : scheme.central = true) : NeedsVector P c .products
  | automaticTransposed (h : P.AutomaticTransposes c) (hl : c.leastSquares m n = true) :
    NeedsVector P c .transposedProducts
  | centralTransposed {scheme : DifferenceScheme R} (hc : c.concrete = false) (hj : P.jacobian = none)
    (hp : P.transposedProducts = none) (hs : schemeOf c.transposedBackend = .ok scheme)
    (h : scheme.central = true) : NeedsVector P c .transposedProducts
  /-- Without a backend of their own, transposed products are found as products are. -/
  | centralBorrowed {scheme : DifferenceScheme R} (hc : c.concrete = false) (hj : P.jacobian = none)
    (hp : P.transposedProducts = none) (ht : P.traceable = false) (hb : c.transposedBackend = none)
    (hs : schemeOf c.jacobianBackend = .ok scheme) (h : scheme.central = true) :
    NeedsVector P c .transposedProducts

variable {P : Problem R m n} {c : Configuration R}

section Differences

variable {scheme : Except Fault (DifferenceScheme R)}

omit [Scalar R] in
theorem compared_lifted {F : Residual R m n} {S : DifferenceScheme R} (hS : S.central = false)
    (fx : Vec R m) (x : Vec R n) (otherwise : Misfit) :
    F.compared S (some fx) x otherwise = .ok fx := by
  simp [Residual.compared, hS]

/-- Differences on one side compare with the value at the point, which is a vector already. -/
theorem differenceProducts_lifted (h : ∀ S, scheme = .ok S → S.central = false) (x : Vec R n)
    (fx : Vec R m) : P.lifted.differenceProducts scheme x fx = P.differenceProducts scheme x fx := by
  funext v
  cases scheme with
  | error e => rfl
  | ok S =>
    simp only [differenceProducts, Residual.differenceProduct, Outcome.ok_bind,
      compared_lifted (h S rfl)]
    rfl

theorem differenceTransposedProducts_lifted (h : ∀ S, scheme = .ok S → S.central = false)
    (x : Vec R n) (fx : Vec R m) : P.lifted.differenceTransposedProducts scheme x fx =
      P.differenceTransposedProducts scheme x fx := by
  cases scheme with
  | error e => rfl
  | ok S =>
    simp only [differenceTransposedProducts, Residual.differenceJacobian, Outcome.ok_bind,
      compared_lifted (h S rfl)]
    rfl

end Differences

/-! What is the same for both. -/

section Lifted

variable (h : ∀ form, ¬ P.NeedsVector c form)

include h

theorem resolvePath_lifted (x : Vec R n) : P.lifted.resolvePath c x = P.resolvePath c x := by
  by_cases hc : c.concrete = true
  · cases hj : P.jacobian with
    | none => exact absurd (.entries hc hj) (h .entries)
    | some jacobian =>
      have hj' : P.lifted.jacobian = some jacobian := hj
      simp only [resolvePath, materializer, hj, hj', Outcome.ok_bind, JacobianSource.isAutomatic,
        Bool.and_false]
  · simp only [resolvePath, if_neg hc]

/-- Only where Jacobians are not matrices are there products to be found. -/
theorem not_concrete_of_unstated (hj : P.jacobian = none) : c.concrete = false := by
  by_cases hc : c.concrete = true
  · exact absurd (.entries hc hj) (h .entries)
  · simpa using hc

theorem productsAt_lifted (x : Vec R n) (fx : Vec R m) :
    P.lifted.productsAt c x fx = P.productsAt c x fx := by
  unfold productsAt
  cases hp : P.products with
  | some products => simp only [show P.lifted.products = some products from hp]
  | none =>
    cases hj : P.jacobian with
    | some jacobian =>
      simp only [show P.lifted.products = none from hp, show P.lifted.jacobian = some jacobian from hj]
    | none =>
      simp only [show P.lifted.products = none from hp, show P.lifted.jacobian = none from hj]
      have hc := not_concrete_of_unstated h hj
      have hfound (hb : c.jacobianBackend.map Backend.mode ≠ some .finite) : P.traceable = false :=
        Bool.eq_false_iff.mpr fun ht => h .products (.automatic hc hj hp ht hb)
      have hcentral (S : DifferenceScheme R) (hS : schemeOf c.jacobianBackend = .ok S) :
          S.central = false :=
        Bool.eq_false_iff.mpr fun hcentral => h .products (.central hc hj hp hS hcentral)
      split
      case h_1 hb => simp [requireTraceable, lifted, hfound (by simp [hb])]
      case h_2 hb => simp [requireTraceable, lifted, hfound (by simp [hb])]
      case h_3 hb => rw [differenceProducts_lifted hcentral]
      case h_4 hb =>
        have ht := hfound (by simp [hb])
        rw [if_neg (by simpa [lifted] using ht), if_neg (by simpa using ht),
          differenceProducts_lifted fun S hS => Except.ok.inj hS ▸ rfl]

theorem transposedProductsAt_lifted (ha : ¬ P.AutomaticTransposes c) (x : Vec R n) (fx : Vec R m) :
    P.lifted.transposedProductsAt c x fx = P.transposedProductsAt c x fx := by
  unfold transposedProductsAt
  cases hp : P.transposedProducts with
  | some products => simp only [show P.lifted.transposedProducts = some products from hp]
  | none =>
    cases hj : P.jacobian with
    | some jacobian =>
      simp only [show P.lifted.transposedProducts = none from hp,
        show P.lifted.jacobian = some jacobian from hj]
    | none =>
      simp only [show P.lifted.transposedProducts = none from hp,
        show P.lifted.jacobian = none from hj]
      have hc := not_concrete_of_unstated h hj
      have hfound (hb : c.transposedBackend.map Backend.mode ≠ some .finite) : P.traceable = false :=
        Bool.eq_false_iff.mpr fun ht => ha ⟨hc, hj, hp, ht, hb⟩
      have hcentral (S : DifferenceScheme R) (hS : schemeOf c.transposedBackend = .ok S) :
          S.central = false :=
        Bool.eq_false_iff.mpr fun hcentral =>
          h .transposedProducts (.centralTransposed hc hj hp hS hcentral)
      split
      case h_1 hb => simp [requireTraceable, lifted, hfound (by simp [hb])]
      case h_2 hb => simp [requireTraceable, lifted, hfound (by simp [hb])]
      case h_3 hb => rw [differenceTransposedProducts_lifted hcentral]
      case h_4 hb =>
        have ht := hfound (by simp [hb])
        have hborrowed (S : DifferenceScheme R) (hS : schemeOf c.jacobianBackend = .ok S) :
            S.central = false :=
          Bool.eq_false_iff.mpr fun hcentral => h .transposedProducts
            (.centralBorrowed hc hj hp ht (Option.map_eq_none_iff.mp hb) hS hcentral)
        rw [if_neg (by simpa [lifted] using ht), if_neg (by simpa using ht),
          differenceTransposedProducts_lifted hborrowed]

/-- What is known of the Jacobian is the same at every point, unless transposed products come along that
nobody asks for. -/
theorem acquire_lifted (ha : ¬ P.AutomaticTransposes c) : P.lifted.acquire c = P.acquire c := by
  funext path x fx
  simp only [acquire, operatorAt, productsAt_lifted h, transposedProductsAt_lifted h ha]
  rfl

end Lifted

/-- The Jacobian does not serve for steps that ask for derivatives of the form. Its entries come without
an axis for the equations, or its products fail. -/
inductive Refuses (c : Configuration R) (path : JacobianPath R m n) :
    DerivativeForm → JacobianInfo R m n → Prop
  | entries {J : JacobianInfo R m n} (h : path.lacksRows = true) : Refuses c path .entries J
  | products {op : JacobianOperator R m n} (h : ∀ v, op.apply v = .error (.unfit .argument)) :
    Refuses c path .products (.operator op)
  | transposed {op : JacobianOperator R m n} (hl : c.leastSquares m n = true)
    (ht : op.traceable = true) (h : ∀ u, op.applyTranspose u = .error (.unfit .argument)) :
    Refuses c path .transposedProducts (.operator op)

/-! What a bare number is found unfit for. -/

section Bare

variable (hbare : P.residual.isBare = true)

include hbare

theorem differences_bare (scheme step : Setting R) (x : Vec R n) :
    ∃ f, P.differences scheme step x = .error f := by
  unfold differences
  cases DifferenceScheme.ofFields scheme step with
  | error f => exact ⟨f, rfl⟩
  | ok S =>
    refine ⟨.unfit (.axis 1 1), ?_⟩
    simp [Residual.differenceJacobian, Residual.compared, Residual.requireVector_bare hbare]

theorem sparse_bare {d : DenseBackend R} {start : Vec R n} {materialize : Materializer R m n}
    {source : JacobianSource} (h : P.sparse d start = .ok (materialize, source)) (x : Vec R n) :
    ∃ f, materialize x = .error f := by
  have hpattern : ∃ pattern, materialize =
      P.residual.compressedJacobian d pattern (.greedy d.mode pattern) := by
    unfold sparse at h
    split at h
    · obtain ⟨⟨⟩, -, h⟩ := Outcome.bind_eq_ok.mp h
      obtain ⟨pattern, -, h⟩ := Outcome.bind_eq_ok.mp h
      cases h
      exact ⟨pattern, rfl⟩
    · obtain ⟨pattern, -, h⟩ := Outcome.bind_eq_ok.mp h
      cases h
      exact ⟨pattern, rfl⟩
  obtain ⟨pattern, rfl⟩ := hpattern
  refine ⟨.unfit .argument, ?_⟩
  simp only [Residual.compressedJacobian, Residual.coloredJacobian,
    Residual.requireVector_bare hbare, Outcome.error_bind]

theorem dense_bare {d : Option (DenseBackend R)} {materialize : Materializer R m n}
    {source : JacobianSource} (h : P.dense d = .ok (materialize, source)) (x : Vec R n) :
    source.isAutomatic = true ∨ ∃ f, materialize x = .error f := by
  unfold dense at h
  split at h
  case h_1 scheme step =>
    cases h
    exact .inr (differences_bare hbare scheme step x)
  all_goals
    obtain ⟨⟨⟩, -, h⟩ := Outcome.bind_eq_ok.mp h
    cases h
    exact .inl rfl

/-- Of entries that the problem does not state, only the automatic ones are found. -/
theorem materializer_bare (hj : P.jacobian = none) {b : Option (Backend R)} {start : Vec R n}
    {materialize : Materializer R m n} {source : JacobianSource}
    (h : P.materializer b start = .ok (materialize, source)) (x : Vec R n) :
    source.isAutomatic = true ∨ ∃ f, materialize x = .error f := by
  unfold materializer at h
  rw [hj] at h
  split at h
  case h_1 heq => cases heq
  case h_2 => exact .inr (sparse_bare hbare h x)
  case h_3 => exact dense_bare hbare h x
  case h_4 =>
    split at h
    · exact dense_bare hbare h x
    · cases h

omit [Scalar R] in
theorem automaticProducts_bare (x : Vec R n) (v : Vec R n) :
    P.automaticProducts x v = .error (.unfit .argument) := by
  simp [automaticProducts, Residual.requireVector_bare hbare]

omit [Scalar R] in
theorem automaticTransposedProducts_bare (x : Vec R n) (u : Vec R m) :
    P.automaticTransposedProducts x u = .error (.unfit .argument) := by
  simp [automaticTransposedProducts, Residual.requireVector_bare hbare]

theorem differenceProducts_bare {S : DifferenceScheme R} (hS : S.central = true) (x : Vec R n)
    (fx : Vec R m) (v : Vec R n) :
    P.differenceProducts (.ok S) x fx v = .error (.unfit .argument) := by
  simp [differenceProducts, Residual.differenceProduct, Residual.compared, hS,
    Residual.requireVector_bare hbare]

theorem differenceTransposedProducts_bare {S : DifferenceScheme R} (hS : S.central = true)
    (x : Vec R n) (fx : Vec R m) :
    P.differenceTransposedProducts (.ok S) x fx = .error (.unfit (.axis 1 1)) := by
  simp [differenceTransposedProducts, Residual.differenceJacobian, Residual.compared, hS,
    Residual.requireVector_bare hbare]

end Bare

/-! The way that products are found by, where they need a vector. -/

/-- Only a backend that takes differences has a central scheme. -/
theorem mode_of_central {b : Option (Backend R)} {S : DifferenceScheme R} (hs : schemeOf b = .ok S)
    (h : S.central = true) : b.map Backend.mode = some .finite := by
  unfold schemeOf at hs
  split at hs
  case h_1 scheme step hb =>
    obtain ⟨backend, rfl, hd⟩ := Option.map_eq_some_iff.mp hb
    simp [Backend.mode, hd, DenseBackend.mode]
  case h_2 =>
    cases hs
    cases h

theorem productsAt_found (h : P.NeedsVector c .products) {x : Vec R n} {fx : Vec R m}
    {apply : Product R n m} (hfound : P.productsAt c x fx = .ok apply) :
    apply = P.automaticProducts x ∨
      ∃ S : DifferenceScheme R, S.central = true ∧ apply = P.differenceProducts (.ok S) x fx := by
  cases h with
  | automatic hc hj hp ht hb =>
    refine .inl ?_
    simp only [productsAt, hp, hj, requireTraceable, ht, if_true, Outcome.ok_bind] at hfound
    split at hfound
    case h_3 hmode => exact absurd hmode hb
    all_goals
      cases hfound
      rfl
  | @central S hc hj hp hs h =>
    refine .inr ⟨S, h, ?_⟩
    simp only [productsAt, hp, hj, mode_of_central hs h, hs] at hfound
    cases hfound
    rfl

theorem AutomaticTransposes.found (h : P.AutomaticTransposes c) (x : Vec R n) (fx : Vec R m) :
    P.transposedProductsAt c x fx = .ok (some (P.automaticTransposedProducts x)) := by
  obtain ⟨-, hj, hp, ht, hb⟩ := h
  simp only [transposedProductsAt, hp, hj, requireTraceable, ht, if_true, Outcome.ok_bind]
  split
  case h_3 hmode => exact absurd hmode hb
  all_goals rfl

theorem transposedProductsAt_found (h : P.NeedsVector c .transposedProducts) {x : Vec R n}
    {fx : Vec R m} {found : Option (Product R m n)}
    (hfound : P.transposedProductsAt c x fx = .ok found) :
    (P.AutomaticTransposes c ∧ c.leastSquares m n = true) ∨
      ∃ (S : DifferenceScheme R) (T : Product R m n), S.central = true ∧
        P.differenceTransposedProducts (.ok S) x fx = .ok T := by
  cases h with
  | automaticTransposed h hl => exact .inl ⟨h, hl⟩
  | @centralTransposed S hc hj hp hs h =>
    simp only [transposedProductsAt, hp, hj, mode_of_central hs h, hs] at hfound
    obtain ⟨T, hT, -⟩ := Outcome.bind_eq_ok.mp hfound
    exact .inr ⟨S, T, h, hT⟩
  | @centralBorrowed S hc hj hp ht hb hs h =>
    simp only [transposedProductsAt, hp, hj, hb, ht, mode_of_central hs h, hs] at hfound
    obtain ⟨T, hT, -⟩ := Outcome.bind_eq_ok.mp hfound
    exact .inr ⟨S, T, h, hT⟩

/-! A Jacobian for which a vector is needed is acquired for a bare number only as one that does not
serve. -/

variable {form : DerivativeForm} {start x : Vec R n} {fx : Vec R m} {path : JacobianPath R m n}
  {J : JacobianInfo R m n}

theorem NeedsVector.not_concrete (h : P.NeedsVector c form) (hform : form ≠ .entries) :
    c.concrete = false := by
  cases h with
  | entries => exact absurd rfl hform
  | automatic hc => exact hc
  | central hc => exact hc
  | automaticTransposed h => exact h.concrete
  | centralTransposed hc => exact hc
  | centralBorrowed hc => exact hc

theorem acquire_products (hc : c.concrete = false) (hpath : P.resolvePath c start = .ok path)
    (hJ : P.acquire c path x fx = .ok J) : ∃ op transposed, J = .operator op ∧
      P.productsAt c x fx = .ok op.apply ∧ P.transposedProductsAt c x fx = .ok transposed ∧
        (∀ T, transposed = some T → op.applyTranspose = T) ∧ op.traceable = P.traceable := by
  rw [resolvePath, if_neg (by simp [hc])] at hpath
  cases hpath
  obtain ⟨op, hop, hJ⟩ := Outcome.bind_eq_ok.mp hJ
  cases hJ
  obtain ⟨apply, happly, hop⟩ := Outcome.bind_eq_ok.mp hop
  obtain ⟨transposed, htransposed, hop⟩ := Outcome.bind_eq_ok.mp hop
  split at hop
  · cases hop
    exact ⟨_, _, rfl, happly, htransposed, by simp, rfl⟩
  · split at hop
    · cases hop
    · cases hop
      exact ⟨_, _, rfl, happly, htransposed, nofun, rfl⟩

theorem acquire_bare (hbare : P.residual.isBare = true) (h : P.NeedsVector c form)
    (hpath : P.resolvePath c start = .ok path) (hJ : P.acquire c path x fx = .ok J) :
    Refuses c path form J := by
  cases form with
  | entries =>
    cases h with
    | entries hc hj =>
      rw [resolvePath, if_pos hc] at hpath
      obtain ⟨⟨materialize, source⟩, hmaterialize, hpath⟩ := Outcome.bind_eq_ok.mp hpath
      cases hpath
      obtain ⟨A, hA, -⟩ := Outcome.bind_eq_ok.mp hJ
      rcases materializer_bare hbare hj hmaterialize x with hsource | ⟨f, hf⟩
      · exact .entries (by simp [hbare, hsource])
      · rw [hf] at hA
        cases hA
  | products =>
    obtain ⟨op, transposed, rfl, happly, -⟩ := acquire_products (h.not_concrete nofun) hpath hJ
    refine .products fun v => ?_
    rcases productsAt_found h happly with hop | ⟨S, hS, hop⟩
    · rw [hop, automaticProducts_bare hbare]
    · rw [hop, differenceProducts_bare hbare hS]
  | transposedProducts =>
    obtain ⟨op, transposed, rfl, -, htransposed, hop, ht⟩ :=
      acquire_products (h.not_concrete nofun) hpath hJ
    rcases transposedProductsAt_found h htransposed with ⟨ha, hl⟩ | ⟨S, T, hS, hT⟩
    · rw [ha.found] at htransposed
      cases htransposed
      refine .transposed hl (ht.trans ha.traceable) fun u => ?_
      rw [hop _ rfl, automaticTransposedProducts_bare hbare]
    · rw [differenceTransposedProducts_bare hbare hS] at hT
      cases hT

end Problem

end NewtonSolver
