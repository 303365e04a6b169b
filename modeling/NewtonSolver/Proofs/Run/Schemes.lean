import NewtonSolver.Proofs.Configuration.Backends
import NewtonSolver.Proofs.Run.Agreement
import NewtonSolver.Proofs.Run.Shape

/-! Difference schemes that there are not. A run takes them for forward differences. -/
namespace NewtonSolver

variable {R : Type}

namespace DenseBackend

/-- The same differences by the name of their scheme. -/
def spelledOut : DenseBackend R → DenseBackend R
  | finite scheme step =>
    finite (.text (if DifferenceScheme.isCentral scheme then "central" else "forward")) step
  | d => d

theorem spelledOut_mode (d : DenseBackend R) : d.spelledOut.mode = d.mode := by
  cases d <;> rfl

theorem spelledOut_schemeKnown (d : DenseBackend R) : d.spelledOut.schemeKnown = true := by
  cases d with
  | forward name => rfl
  | reverse name => rfl
  | finite scheme step =>
    rw [spelledOut, schemeKnown_finite]
    split
    · exact .inr rfl
    · exact .inl rfl

/-- A known scheme goes by its name already. -/
theorem spelledOut_of_known {d : DenseBackend R} (h : d.schemeKnown = true) : d.spelledOut = d := by
  cases d with
  | forward name => rfl
  | reverse name => rfl
  | finite scheme step => rcases schemeKnown_finite.mp h with rfl | rfl <;> rfl

end DenseBackend

namespace Backend

def spelledOut : Backend R → Backend R
  | dense d => dense d.spelledOut
  | sparse d => sparse d.spelledOut

theorem spelledOut_underlying (b : Backend R) : b.spelledOut.underlying = b.underlying.spelledOut := by
  cases b <;> rfl

theorem spelledOut_of_known {b : Backend R} (h : b.underlying.schemeKnown = true) :
    b.spelledOut = b := by
  cases b with
  | dense d => exact congrArg dense (DenseBackend.spelledOut_of_known h)
  | sparse d => exact congrArg sparse (DenseBackend.spelledOut_of_known h)

theorem spelledOut_mode (b : Backend R) : b.spelledOut.mode = b.mode := by
  rw [mode, spelledOut_underlying, DenseBackend.spelledOut_mode, mode]

theorem map_spelledOut_mode (b : Option (Backend R)) :
    (b.map spelledOut).map mode = b.map mode := by
  cases b with
  | none => rfl
  | some b => exact congrArg some b.spelledOut_mode

end Backend

namespace Configuration

/-- The same configuration with every scheme by its name. -/
def spelledOut (c : Configuration R) : Configuration R :=
  { c with
    jacobianBackend := c.jacobianBackend.map Backend.spelledOut
    transposedBackend := c.transposedBackend.map Backend.spelledOut }

theorem spelledOut_knowsSchemes (c : Configuration R) : c.spelledOut.KnowsSchemes := by
  have hmap {b : Option (Backend R)} {e : Backend R} (h : b.map Backend.spelledOut = some e) :
      e.underlying.schemeKnown = true := by
    obtain ⟨b, -, rfl⟩ := Option.map_eq_some_iff.mp h
    rw [Backend.spelledOut_underlying]
    exact DenseBackend.spelledOut_schemeKnown _
  rintro e (he | he)
  · exact hmap he
  · exact hmap he

/-- Nothing is changed just where all schemes are known. -/
theorem spelledOut_eq_iff {c : Configuration R} : c.spelledOut = c ↔ c.KnowsSchemes := by
  have hmap {b : Option (Backend R)} (hb : ∀ e, b = some e → e.underlying.schemeKnown = true) :
      b.map Backend.spelledOut = b := by
    cases b with
    | none => rfl
    | some e => exact congrArg some (Backend.spelledOut_of_known (hb e rfl))
  constructor
  · intro h
    exact h ▸ c.spelledOut_knowsSchemes
  · intro h
    have hj := hmap fun e he => h e (.inl he)
    have ht := hmap fun e he => h e (.inr he)
    rw [spelledOut, hj, ht]

end Configuration

variable [Scalar R] {m n : Nat}

namespace DifferenceScheme

omit [Scalar R] in
theorem isCentral_spelledOut (scheme : Setting R) :
    isCentral (R := R) (.text (if isCentral scheme then "central" else "forward")) =
      isCentral scheme := by
  cases isCentral scheme <;> rfl

/-- Any scheme but the central one is as good as the forward one. -/
theorem ofFields_spelledOut (scheme step : Setting R) :
    ofFields (.text (if isCentral scheme then "central" else "forward")) step =
      ofFields scheme step := by
  cases step <;> simp only [ofFields, isCentral_spelledOut]

end DifferenceScheme

theorem Residual.compressedJacobian_spelledOut (F : Residual R m n) (d : DenseBackend R)
    (pattern : Pattern m n) (c : Compression m n) :
    F.compressedJacobian d.spelledOut pattern c = F.compressedJacobian d pattern c := by
  cases d with
  | forward name => rfl
  | reverse name => rfl
  | finite scheme step =>
    funext x
    cases c with
    | rows c => rfl
    | columns c =>
      simp only [compressedJacobian, coloredJacobian, DenseBackend.spelledOut,
        DifferenceScheme.ofFields_spelledOut]

namespace Problem

variable (P : Problem R m n)

theorem dense_spelledOut (d : DenseBackend R) : P.dense (some d.spelledOut) = P.dense (some d) := by
  cases d with
  | forward name => rfl
  | reverse name => rfl
  | finite scheme step =>
    have hdifferences : P.differences
        (.text (if DifferenceScheme.isCentral scheme then "central" else "forward")) step =
          P.differences scheme step := by
      funext x
      simp only [differences, DifferenceScheme.ofFields_spelledOut]
    simp only [DenseBackend.spelledOut, dense, hdifferences, DifferenceScheme.isCentral_spelledOut]

theorem pattern_spelledOut (d : DenseBackend R) (x : Vec R n) :
    P.pattern d.spelledOut x = P.pattern d x := by
  simp only [pattern, dense_spelledOut, DenseBackend.spelledOut_mode]

theorem sparse_spelledOut (d : DenseBackend R) (x : Vec R n) :
    P.sparse d.spelledOut x = P.sparse d x := by
  simp only [sparse, pattern_spelledOut, DenseBackend.spelledOut_mode,
    Residual.compressedJacobian_spelledOut]

theorem materializer_spelledOut (b : Option (Backend R)) (x : Vec R n) :
    P.materializer (b.map Backend.spelledOut) x = P.materializer b x := by
  unfold materializer
  cases P.jacobian with
  | some jacobian => rfl
  | none =>
    cases b with
    | none => rfl
    | some b =>
      cases b with
      | dense d => exact P.dense_spelledOut d
      | sparse d => exact P.sparse_spelledOut d x

theorem schemeOf_spelledOut (b : Option (Backend R)) :
    schemeOf (b.map Backend.spelledOut) = schemeOf b := by
  cases b with
  | none => rfl
  | some b =>
    simp only [schemeOf, Option.map_some, Backend.spelledOut_underlying]
    cases b.underlying with
    | forward name => rfl
    | reverse name => rfl
    | finite scheme step => exact DifferenceScheme.ofFields_spelledOut scheme step

theorem resolvePath_spelledOut (c : Configuration R) :
    P.resolvePath c.spelledOut = P.resolvePath c := by
  funext x
  have hmaterializer : P.materializer c.spelledOut.jacobianBackend x =
      P.materializer c.jacobianBackend x := P.materializer_spelledOut _ x
  simp only [resolvePath, hmaterializer]
  rfl

theorem acquire_spelledOut (c : Configuration R) : P.acquire c.spelledOut = P.acquire c := by
  funext path x fx
  have hproducts : P.productsAt c.spelledOut x fx = P.productsAt c x fx := by
    simp only [productsAt, Configuration.spelledOut, Backend.map_spelledOut_mode, schemeOf_spelledOut]
  have htransposed : P.transposedProductsAt c.spelledOut x fx = P.transposedProductsAt c x fx := by
    simp only [transposedProductsAt, Configuration.spelledOut, Backend.map_spelledOut_mode,
      schemeOf_spelledOut]
  simp only [acquire, operatorAt, hproducts, htransposed]

end Problem

namespace Setup

theorem agrees_spelledOut (S : Setup R m n) :
    S.Agrees { S with configuration := S.configuration.spelledOut } where
  limits := rfl
  value := rfl
  path := (S.problem.resolvePath_spelledOut S.configuration).symm
  acquire := (S.problem.acquire_spelledOut S.configuration).symm
  descent := rfl
  lineSearch := rfl
  merit := rfl
  policy := rfl

/-- The builder looks at every option, and finds out every value that is no backend but one: a sparse
backend around differences by a scheme that there is not. Where it lets one pass, and only there, the
configuration has such a scheme, and its runs are those with forward differences in its place. -/
theorem build_backends (o : Options R) (kind : Setting R) :
    ((∃ built, o.build kind = .ok built) ↔ (∃ built, o.withoutBackends.build kind = .ok built) ∧
      ∀ s ∈ [o.autodiff, o.vjpAutodiff], s.NamesBackend ∨ s.HidesScheme) ∧
    ∀ built, o.build kind = .ok built →
      (built.configuration.KnowsSchemes ↔ ∀ s ∈ [o.autodiff, o.vjpAutodiff], ¬ s.HidesScheme) ∧
      (built.configuration.spelledOut = built.configuration ↔ built.configuration.KnowsSchemes) ∧
      built.configuration.spelledOut.KnowsSchemes ∧
      ∀ (K : Kernels R) (P : Problem R m n) (limits : RunLimits R) (start : Vec R n),
        (Setup.mk K P built.configuration limits).iterate start =
          (Setup.mk K P built.configuration.spelledOut limits).iterate start := by
  refine ⟨Options.exists_build, ?_⟩
  intro built h
  refine ⟨Options.build_knowsSchemes h, Configuration.spelledOut_eq_iff,
    built.configuration.spelledOut_knowsSchemes, ?_⟩
  intro K P limits start
  exact congrFun (Setup.mk K P built.configuration limits).agrees_spelledOut.iterate_eq start

/-- Options that ask for compressed differences by a scheme that there is not. -/
def complexScheme : Options Float :=
  { Options.defaults with autodiff := .tag .autoSparse [.tag .autoFiniteDiff [.text "complex", .none]] }

theorem complexScheme_hides : complexScheme.autodiff.HidesScheme :=
  .sparse .none (by simp) (by simp)

theorem complexScheme_runsForward : ∃ built, complexScheme.build (.text "newton") = .ok built ∧
    ¬ built.configuration.KnowsSchemes ∧
      (mk .standard rootOfTwo.problem built.configuration rootOfTwo.limits).iterate #v[1] =
        (mk .standard rootOfTwo.problem built.configuration.spelledOut rootOfTwo.limits).iterate
          #v[1] := by
  obtain ⟨hknows, -, -, hruns⟩ := (build_backends complexScheme (.text "newton")).2 _ rfl
  refine ⟨_, rfl, ?_, hruns _ _ _ _⟩
  intro h
  exact hknows.mp h _ List.mem_cons_self complexScheme_hides

/-- The scheme is accepted where it is hidden and refused where it stands by itself. -/
theorem complexScheme_accepted :
    (∃ built, complexScheme.build (.text "newton") = .ok built) ∧
      ¬ complexScheme.autodiff.NamesBackend ∧
      ∀ built, { complexScheme with autodiff := .tag .autoFiniteDiff [.text "complex", .none] }.build
        (.text "newton") ≠ .ok built := by
  refine ⟨⟨_, rfl⟩, ?_, fun _ => nofun⟩
  rintro (_ | ⟨⟨⟩⟩ | h)
  cases h with
  | differences step h => simp at h

end Setup

end NewtonSolver
