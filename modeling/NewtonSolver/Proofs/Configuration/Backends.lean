import NewtonSolver.Proofs.Configuration

/-! Which option values are taken for backends. A scheme that there is not is found out where differences
are asked for by themselves, and passed where a sparse backend asks for them. -/
namespace NewtonSolver

variable {R : Type}

/-- A way of differentiating whose scheme, if it has one, there is. -/
inductive Setting.NamesDense : Setting R → Prop
  | forward (name : Setting R) : NamesDense (.tag .autoForward [name])
  | reverse (name : Setting R) : NamesDense (.tag .autoReverse [name])
  | differences {scheme : String} (step : Setting R) (h : scheme = "forward" ∨ scheme = "central") :
    NamesDense (.tag .autoFiniteDiff [.text scheme, step])

/-- No backend, a dense one or a sparse one around it. -/
inductive Setting.NamesBackend : Setting R → Prop
  | absent : NamesBackend .none
  | dense {s : Setting R} (h : s.NamesDense) : NamesBackend s
  | sparse {s : Setting R} (h : s.NamesDense) : NamesBackend (.tag .autoSparse [s])

/-- A sparse backend around differences by a scheme that there is not. -/
inductive Setting.HidesScheme : Setting R → Prop
  | sparse {scheme : Setting R} (step : Setting R) (hforward : scheme ≠ .text "forward")
    (hcentral : scheme ≠ .text "central") :
    HidesScheme (.tag .autoSparse [.tag .autoFiniteDiff [scheme, step]])

/-- Differences are asked for, by themselves or inside a sparse backend. -/
inductive Setting.AsksDifferences : Setting R → Setting R → Setting R → Prop
  | dense (scheme step : Setting R) :
    AsksDifferences (.tag .autoFiniteDiff [scheme, step]) scheme step
  | sparse (scheme step : Setting R) :
    AsksDifferences (.tag .autoSparse [.tag .autoFiniteDiff [scheme, step]]) scheme step

namespace DenseBackend

variable {s : Setting R} {d : DenseBackend R} {scheme step : Setting R}

theorem schemeKnown_finite : (finite scheme step).schemeKnown = true ↔
    scheme = .text "forward" ∨ scheme = .text "central" := by
  cases scheme <;> simp [schemeKnown]

theorem ofSetting?_eq_some : ofSetting? s = some d ↔ s = d.toSetting := by
  constructor
  · intro h
    unfold ofSetting? at h
    split at h <;> cases h <;> rfl
  · rintro rfl
    cases d <;> rfl

theorem namesDense_iff : s.NamesDense ↔ ∃ d : DenseBackend R, s = d.toSetting ∧ d.schemeKnown = true := by
  constructor
  · intro h
    cases h with
    | forward name => exact ⟨forward name, rfl, rfl⟩
    | reverse name => exact ⟨reverse name, rfl, rfl⟩
    | differences step h => exact ⟨finite _ step, rfl, by simpa [schemeKnown] using h⟩
  · rintro ⟨d, rfl, hd⟩
    cases d with
    | forward name => exact .forward name
    | reverse name => exact .reverse name
    | finite scheme step =>
      rcases schemeKnown_finite.mp hd with rfl | rfl
      · exact .differences step (.inl rfl)
      · exact .differences step (.inr rfl)

theorem hidesScheme_sparse :
    (Backend.sparse d).toSetting.HidesScheme ↔ d.schemeKnown = false := by
  constructor
  · intro h
    cases d with
    | forward name => cases h
    | reverse name => cases h
    | finite scheme step =>
      cases h with
      | sparse step hforward hcentral =>
        refine Bool.eq_false_iff.mpr ?_
        rw [ne_eq, schemeKnown_finite]
        exact not_or.mpr ⟨hforward, hcentral⟩
  · intro h
    cases d with
    | forward name => cases h
    | reverse name => cases h
    | finite scheme step =>
      refine .sparse step ?_ ?_
      · rintro rfl
        simp [schemeKnown] at h
      · rintro rfl
        simp [schemeKnown] at h

end DenseBackend

namespace Backend

variable {s : Setting R} {b : Backend R}

/-- A scheme that there is not is passed in a sparse backend only. -/
theorem ofSetting?_eq_some :
    ofSetting? s = some b ↔ s = b.toSetting ∧ ∀ d, b = dense d → d.schemeKnown = true := by
  constructor
  · intro h
    unfold ofSetting? at h
    split at h
    · obtain ⟨d, hd, rfl⟩ := Option.map_eq_some_iff.mp h
      obtain rfl := DenseBackend.ofSetting?_eq_some.mp hd
      exact ⟨rfl, nofun⟩
    · obtain ⟨d, hd, rfl⟩ := Option.map_eq_some_iff.mp h
      obtain ⟨hd, hknown⟩ := Option.filter_eq_some_iff.mp hd
      refine ⟨DenseBackend.ofSetting?_eq_some.mp hd, ?_⟩
      rintro _ ⟨⟩
      exact hknown
  · rintro ⟨rfl, hknown⟩
    cases b with
    | sparse d => simp [ofSetting?, toSetting, DenseBackend.ofSetting?_eq_some]
    | dense d =>
      have hd := hknown d rfl
      cases d <;> simp [ofSetting?, toSetting, DenseBackend.toSetting, DenseBackend.ofSetting?, hd]

/-- What is taken for a backend names one or hides a scheme. -/
theorem named_of_ofSetting? (h : ofSetting? s = some b) : s.NamesBackend ∨ s.HidesScheme := by
  obtain ⟨rfl, hknown⟩ := ofSetting?_eq_some.mp h
  cases b with
  | dense d => exact .inl (.dense (DenseBackend.namesDense_iff.mpr ⟨d, rfl, hknown d rfl⟩))
  | sparse d =>
    cases hd : d.schemeKnown with
    | true => exact .inl (.sparse (DenseBackend.namesDense_iff.mpr ⟨d, rfl, hd⟩))
    | false => exact .inr (DenseBackend.hidesScheme_sparse.mpr hd)

theorem ofSetting?_of_dense (h : s.NamesDense) : ∃ b : Backend R, ofSetting? s = some b := by
  obtain ⟨d, rfl, hd⟩ := DenseBackend.namesDense_iff.mp h
  refine ⟨dense d, ofSetting?_eq_some.mpr ⟨rfl, ?_⟩⟩
  rintro _ ⟨⟩
  exact hd

theorem ofSetting?_sparse (d : DenseBackend R) : ofSetting? (sparse d).toSetting = some (sparse d) :=
  ofSetting?_eq_some.mpr ⟨rfl, nofun⟩

/-- The scheme is known unless the value hides one that is not. -/
theorem schemeKnown_of_ofSetting? (h : ofSetting? s = some b) :
    b.underlying.schemeKnown = true ↔ ¬ s.HidesScheme := by
  obtain ⟨rfl, hknown⟩ := ofSetting?_eq_some.mp h
  cases b with
  | dense d =>
    have hnot : ¬ (dense d).toSetting.HidesScheme := by cases d <;> rintro ⟨⟩
    exact iff_of_true (hknown d rfl) hnot
  | sparse d => rw [DenseBackend.hidesScheme_sparse, Bool.not_eq_false, underlying]

theorem asksDifferences (h : ofSetting? s = some b) (hmode : b.mode = .finite) :
    ∃ scheme step, s.AsksDifferences scheme step ∧ b.underlying = .finite scheme step := by
  obtain ⟨rfl, -⟩ := ofSetting?_eq_some.mp h
  cases b with
  | dense d =>
    cases d with
    | finite scheme step => exact ⟨scheme, step, .dense scheme step, rfl⟩
    | forward name => cases hmode
    | reverse name => cases hmode
  | sparse d =>
    cases d with
    | finite scheme step => exact ⟨scheme, step, .sparse scheme step, rfl⟩
    | forward name => cases hmode
    | reverse name => cases hmode

end Backend

/-- Every backend goes by a scheme that there is. -/
def Configuration.KnowsSchemes (c : Configuration R) : Prop :=
  ∀ b, c.jacobianBackend = some b ∨ c.transposedBackend = some b → b.underlying.schemeKnown = true

namespace Options

variable {o : Options R} {kind : Setting R} {built : ConfigurationBuild R} {role : BackendOption}
  {s : Setting R} {found : Option (Backend R)}

def withoutBackends (o : Options R) : Options R := { o with autodiff := .none, vjpAutodiff := .none }

theorem backend_eq_ok : backend role s = .ok found ↔
    (s = .none ∧ found = none) ∨ ∃ b, Backend.ofSetting? s = some b ∧ found = some b := by
  unfold backend
  split
  · simp [Backend.ofSetting?, DenseBackend.ofSetting?, eq_comm]
  · next hne =>
    cases h : Backend.ofSetting? s with
    | none => simpa using fun hs => absurd hs hne
    | some b => simpa [eq_comm] using fun hs => absurd hs hne

theorem exists_backend :
    (∃ found, backend role s = .ok found) ↔ s.NamesBackend ∨ s.HidesScheme := by
  constructor
  · rintro ⟨found, h⟩
    rcases backend_eq_ok.mp h with ⟨rfl, -⟩ | ⟨b, hb, -⟩
    · exact .inl .absent
    · exact Backend.named_of_ofSetting? hb
  · have hsome {b : Backend R} {s : Setting R} (h : Backend.ofSetting? s = some b) :
        ∃ found, backend role s = .ok found := ⟨some b, backend_eq_ok.mpr (.inr ⟨b, h, rfl⟩)⟩
    rintro (h | h)
    · cases h with
      | absent => exact ⟨none, rfl⟩
      | dense h =>
        obtain ⟨b, hb⟩ := Backend.ofSetting?_of_dense h
        exact hsome hb
      | sparse h =>
        obtain ⟨d, rfl, -⟩ := DenseBackend.namesDense_iff.mp h
        exact hsome (Backend.ofSetting?_sparse d)
    · cases h with
      | @sparse scheme step => exact hsome (Backend.ofSetting?_sparse (.finite scheme step))

theorem backend_schemeKnown (h : backend role s = .ok found) :
    (∀ b, found = some b → b.underlying.schemeKnown = true) ↔ ¬ s.HidesScheme := by
  rcases backend_eq_ok.mp h with ⟨rfl, rfl⟩ | ⟨b, hb, rfl⟩
  · exact iff_of_true nofun nofun
  · simpa using Backend.schemeKnown_of_ofSetting? hb

theorem backend_asksDifferences {b : Backend R} (h : backend role s = .ok (some b))
    (hmode : b.mode = .finite) :
    ∃ scheme step, s.AsksDifferences scheme step ∧ b.underlying = .finite scheme step := by
  rcases backend_eq_ok.mp h with ⟨-, hnone⟩ | ⟨b', hb', hsome⟩
  · cases hnone
  · cases hsome
    exact Backend.asksDifferences hb' hmode

variable [Scalar R]

/-- Differences are taken as one of the options asks for them. -/
theorem build_asksDifferences {b : Backend R} (h : o.build kind = .ok built)
    (hb : built.configuration.jacobianBackend = some b ∨ built.configuration.transposedBackend = some b)
    (hmode : b.mode = .finite) :
    ∃ scheme step,
      (o.autodiff.AsksDifferences scheme step ∨ o.vjpAutodiff.AsksDifferences scheme step) ∧
        b.underlying = .finite scheme step := by
  obtain ⟨-, -, -, -, hj, ht, -, -⟩ := build_eq_ok.mp h
  rcases hb with hb | hb
  · obtain ⟨scheme, step, hasks, hunderlying⟩ := backend_asksDifferences (hb ▸ hj) hmode
    exact ⟨scheme, step, .inl hasks, hunderlying⟩
  · obtain ⟨scheme, step, hasks, hunderlying⟩ := backend_asksDifferences (hb ▸ ht) hmode
    exact ⟨scheme, step, .inr hasks, hunderlying⟩

/-- The options are accepted if all but the backends are, and each backend names one or hides an unknown
scheme. -/
theorem exists_build :
    (∃ built, o.build kind = .ok built) ↔ (∃ built, o.withoutBackends.build kind = .ok built) ∧
      ∀ s ∈ [o.autodiff, o.vjpAutodiff], s.NamesBackend ∨ s.HidesScheme := by
  constructor
  · rintro ⟨built, h⟩
    obtain ⟨hkind, hneeds, hsolver, hpre, hj, ht, hp, hs⟩ := build_eq_ok.mp h
    refine ⟨⟨⟨{ built.configuration with jacobianBackend := none, transposedBackend := none },
      built.notices⟩, build_eq_ok.mpr ⟨hkind, hneeds, hsolver, hpre, rfl, rfl, hp, hs⟩⟩, ?_⟩
    simp only [List.mem_cons, List.not_mem_nil, or_false, forall_eq_or_imp, forall_eq]
    exact ⟨exists_backend.mp ⟨_, hj⟩, exists_backend.mp ⟨_, ht⟩⟩
  · simp only [List.mem_cons, List.not_mem_nil, or_false, forall_eq_or_imp, forall_eq]
    rintro ⟨⟨built, h⟩, hautodiff, hvjp⟩
    obtain ⟨hkind, hneeds, hsolver, hpre, -, -, hp, hs⟩ := build_eq_ok.mp h
    obtain ⟨jacobianBackend, hj⟩ : ∃ found, backend .autodiff o.autodiff = .ok found :=
      exists_backend.mpr hautodiff
    obtain ⟨transposedBackend, ht⟩ : ∃ found, backend .vjpAutodiff o.vjpAutodiff = .ok found :=
      exists_backend.mpr hvjp
    exact ⟨⟨{ built.configuration with jacobianBackend, transposedBackend }, built.notices⟩,
      build_eq_ok.mpr ⟨hkind, hneeds, hsolver, hpre, hj, ht, hp, hs⟩⟩

/-- The accepted configuration has a scheme that there is not just where an option hides it. -/
theorem build_knowsSchemes (h : o.build kind = .ok built) : built.configuration.KnowsSchemes ↔
    ∀ s ∈ [o.autodiff, o.vjpAutodiff], ¬ s.HidesScheme := by
  obtain ⟨-, -, -, -, hj, ht, -, -⟩ := build_eq_ok.mp h
  simp only [List.mem_cons, List.not_mem_nil, or_false, forall_eq,
    ← backend_schemeKnown hj, ← backend_schemeKnown ht, Configuration.KnowsSchemes, or_imp, forall_and]

end Options

end NewtonSolver
