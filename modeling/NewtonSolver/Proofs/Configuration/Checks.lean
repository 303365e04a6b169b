import NewtonSolver.Proofs.Configuration
import NewtonSolver.Configuration.Validation

/-! The checks that options and limits go through, in their order. The first that is not passed decides:
a field that is to be compared and holds no number is in no order with the bound, and everything else is a
failure of the configuration. -/
namespace NewtonSolver

variable {R : Type}

/-- What a field is meant for, with the way in which it is tested. -/
inductive Range where
  /-- Zero or more, where what is below zero is refused. -/
  | notBelowZero
  /-- Zero or more, where what is below zero as a real number is refused. -/
  | notNegative
  /-- One or more, where what is below one is refused. -/
  | notBelowOne
  /-- One or more, where nothing else is let through. -/
  | atLeastOne
  | positive
  | insideUnit
  | oneOrTwo

/-- A condition on options, or a test of a field. -/
inductive Check (R : Type) where
  | holds (p : Prop)
  | field (s : Setting R) (r : Range)

/-- Why a value of the kind cannot be tested: it is in no order with the bound, which is written as a
whole number or as a real one. -/
def Range.misfit? : Range → ValueKind → Option Misfit
  | notBelowZero, kind | notBelowOne, kind => some (.unordered .less kind .whole)
  | notNegative, kind => some (.unordered .less kind .real)
  | atLeastOne, kind => some (.unordered .atLeast kind .whole)
  | positive, kind => some (.unordered .greater kind .real)
  | insideUnit, kind => some (.unordered .less .real kind)
  | oneOrTwo, _ => none

section Fields

variable [Scalar R]

/-- A range by which values are compared needs a number. -/
def Range.Reads (r : Range) (s : Setting R) : Prop := r = .oneOrTwo ∨ ∃ x, s.number? = some x

/-- What the test lets through. -/
def Range.Admits (s : Setting R) : Range → Prop
  | notBelowZero | notNegative => ∃ x, s.number? = some x ∧ ¬ x < 0
  | notBelowOne => ∃ x, s.number? = some x ∧ ¬ x < 1
  | atLeastOne => ∃ x, s.number? = some x ∧ 1 ≤ x
  | positive => ∃ x, s.number? = some x ∧ 0 < x
  | insideUnit => ∃ x, s.number? = some x ∧ 0 < x ∧ x < 1
  | oneOrTwo => s.same (.whole 1) = true ∨ s.same (.whole 2) = true

namespace Check

def Passes : Check R → Prop
  | holds p => p
  | field s r => r.Admits s

def IsUnreadable : Check R → Prop
  | holds _ => False
  | field s r => ¬ r.Reads s

/-- Why the check cannot be made, if it cannot. -/
def misfit? : Check R → Option Misfit
  | holds _ => none
  | field s r =>
    match s.number? with
    | some _ => none
    | none => r.misfit? s.kind

theorem isUnreadable_iff {c : Check R} : c.IsUnreadable ↔ ∃ misfit, c.misfit? = some misfit := by
  cases c with
  | holds p => simp [IsUnreadable, misfit?]
  | field s r =>
    cases hs : s.number? with
    | some x => simp [IsUnreadable, Range.Reads, misfit?, hs]
    | none => cases r <;> simp [IsUnreadable, Range.Reads, misfit?, hs, Range.misfit?]

/-- The first check in the list that is not passed. -/
def FirstFails (cs : List (Check R)) (c : Check R) : Prop :=
  ∃ before after, cs = before ++ c :: after ∧ (∀ e ∈ before, e.Passes) ∧ ¬ c.Passes

/-- A computation that makes the checks and has a result if all of them are passed. -/
inductive Answers {α : Type} (cs : List (Check R)) : Except (Failure R) α → Prop
  | passed (a : α) (h : ∀ c ∈ cs, c.Passes) : Answers cs (.ok a)
  | refused (f : ConfigurationFailure R) {c : Check R} (h : FirstFails cs c) (hc : ¬ c.IsUnreadable) :
    Answers cs (.error (.configuration f))
  | unfit {c : Check R} {misfit : Misfit} (h : FirstFails cs c) (hc : c.misfit? = some misfit) :
    Answers cs (.error (.unfit misfit))

variable {cs ds : List (Check R)} {c d : Check R}

theorem FirstFails.left (h : FirstFails cs c) (ds : List (Check R)) : FirstFails (cs ++ ds) c := by
  obtain ⟨before, after, rfl, hbefore, hc⟩ := h
  exact ⟨before, after ++ ds, by simp, hbefore, hc⟩

theorem FirstFails.right (hcs : ∀ c ∈ cs, c.Passes) (h : FirstFails ds c) :
    FirstFails (cs ++ ds) c := by
  obtain ⟨before, after, rfl, hbefore, hc⟩ := h
  refine ⟨cs ++ before, after, by simp, ?_, hc⟩
  intro e he
  rcases List.mem_append.mp he with he | he
  · exact hcs e he
  · exact hbefore e he

/-- The induction is on the checks that are passed before the first of the two. -/
theorem FirstFails.unique (h : FirstFails cs c) (h' : FirstFails cs d) : c = d := by
  obtain ⟨before, after, rfl, hbefore, hc⟩ := h
  obtain ⟨before', after', heq, hbefore', hd⟩ := h'
  induction before generalizing before' with
  | nil =>
    cases before' with
    | nil => exact (List.cons.inj heq).1
    | cons e before' =>
      obtain ⟨rfl, -⟩ := List.cons.inj heq
      exact absurd (hbefore' c List.mem_cons_self) hc
  | cons e before ih =>
    cases before' with
    | nil =>
      obtain ⟨rfl, -⟩ := List.cons.inj heq
      exact absurd (hbefore e List.mem_cons_self) hd
    | cons e' before' =>
      obtain ⟨rfl, htail⟩ := List.cons.inj heq
      exact ih (fun c hc => hbefore c (List.mem_cons_of_mem e hc)) before' htail
        fun c hc => hbefore' c (List.mem_cons_of_mem e hc)

theorem FirstFails.mem (h : FirstFails cs c) : c ∈ cs := by
  obtain ⟨before, after, rfl, -, -⟩ := h
  exact List.mem_append_right before List.mem_cons_self

theorem FirstFails.not_passes (h : FirstFails cs c) : ¬ c.Passes := by
  obtain ⟨-, -, -, -, hc⟩ := h
  exact hc

theorem FirstFails.single (hc : ¬ c.Passes) : FirstFails [c] c := ⟨[], [], rfl, nofun, hc⟩

namespace Answers

variable {α β : Type} {x : Except (Failure R) α} {f : α → Except (Failure R) β}

theorem ok (a : α) : Answers (R := R) [] (.ok a) := .passed a nofun

/-- One computation after another makes the checks of both. -/
theorem bind (hx : Answers cs x) (hf : ∀ a, x = .ok a → Answers ds (f a)) :
    Answers (cs ++ ds) (x >>= f) := by
  cases hx with
  | refused g h hc => exact .refused g (h.left ds) hc
  | unfit h hc => exact .unfit (h.left ds) hc
  | passed a hcs =>
    have hfa := hf a rfl
    generalize hy : f a = y at hfa
    rw [Outcome.ok_bind, hy]
    cases hfa with
    | refused g h hc => exact .refused g (.right hcs h) hc
    | unfit h hc => exact .unfit (.right hcs h) hc
    | passed b hds =>
      refine .passed b fun c hc => ?_
      rcases List.mem_append.mp hc with hc | hc
      · exact hcs c hc
      · exact hds c hc

/-- What is computed from a result makes no more checks. -/
theorem map (hx : Answers cs x) (g : α → β) : Answers cs (x >>= fun a => pure (g a)) := by
  have hall := hx.bind (f := fun a => pure (g a)) fun a _ => ok (g a)
  rwa [List.append_nil] at hall

/-- A test and what is computed after it. -/
theorem test {t : Except (Failure R) Bool} {p : Bool → Bool} {g : ConfigurationFailure R}
    {rest : Unit → Except (Failure R) β} (ht : Answers cs (t >>= fun b => require (p b) g))
    (hrest : ∀ u, Answers ds (rest u)) :
    Answers (cs ++ ds) (t >>= fun b => require (p b) g >>= rest) := by
  rw [← bind_assoc]
  exact ht.bind fun u _ => hrest u

theorem given {p : Prop} (hp : p) (a : α) : Answers (R := R) [.holds p] (.ok a) :=
  .passed a (by simpa [Passes] using hp)

theorem lacking {p : Prop} (hp : ¬ p) (g : ConfigurationFailure R) :
    Answers [.holds p] (.error (.configuration g) : Except (Failure R) α) :=
  .refused g (.single hp) nofun

theorem require {b : Bool} {p : Prop} (hb : b = true ↔ p) (g : ConfigurationFailure R) :
    Answers [.holds p] (NewtonSolver.require b g) := by
  by_cases hp : p
  · rw [hb.mpr hp]
    exact given hp ()
  · have hfalse : b = false := by simpa [hp] using hb
    rw [hfalse]
    exact lacking hp g

/-- A condition that is another way to say what a field has to be. -/
theorem field {s : Setting R} {r : Range} {p : Prop} (hp : p ↔ r.Admits s) (hread : r.Reads s)
    (hx : Answers [.holds p] x) : Answers [.field s r] x := by
  cases hx with
  | passed a h =>
    have hadmits : r.Admits s := hp.mp (h _ List.mem_cons_self)
    exact .passed a (by simpa [Passes] using hadmits)
  | @refused g d h hd =>
    obtain rfl := List.mem_singleton.mp h.mem
    exact .refused g (.single fun hadmits => h.not_passes (hp.mpr hadmits)) (not_not_intro hread)
  | unfit h hc =>
    obtain rfl := List.mem_singleton.mp h.mem
    cases hc

/-- A test by comparison: a field without a number is in no order with the bound, and a number decides. -/
theorem compared {s : Setting R} {r : Range} {misfit : Misfit} {p : R → Prop}
    {f : R → Except (Failure R) β} (hr : r.misfit? s.kind = some misfit)
    (hp : r.Admits s ↔ ∃ x, s.number? = some x ∧ p x) (hf : ∀ x, Answers [.holds (p x)] (f x)) :
    Answers [.field s r] (liftFault (s.numberOr misfit) >>= f) := by
  cases h : s.number? with
  | none =>
    have hnumber : s.numberOr misfit = .error (.unfit misfit) := by rw [Setting.numberOr, h]
    have hmisfit : (Check.field s r).misfit? = some misfit := by simp [misfit?, h, hr]
    rw [hnumber]
    refine .unfit (.single fun hadmits => ?_) hmisfit
    obtain ⟨x, hx, -⟩ := hp.mp hadmits
    rw [h] at hx
    cases hx
  | some x =>
    have hnumber : s.numberOr misfit = .ok x := by rw [Setting.numberOr, h]
    have hiff : p x ↔ r.Admits s := by
      rw [hp, h]
      simp
    rw [hnumber]
    exact (hf x).field hiff (.inr ⟨x, h⟩)

theorem exists_ok_iff (hx : Answers cs x) : (∃ a, x = .ok a) ↔ ∀ c ∈ cs, c.Passes := by
  cases hx with
  | passed a h => exact iff_of_true ⟨a, rfl⟩ h
  | refused g h hc => exact iff_of_false nofun fun hall => h.not_passes (hall _ h.mem)
  | unfit h hc => exact iff_of_false nofun fun hall => h.not_passes (hall _ h.mem)

theorem configuration_iff (hx : Answers cs x) :
    (∃ g, x = .error (.configuration g)) ↔ ∃ c, FirstFails cs c ∧ ¬ c.IsUnreadable := by
  cases hx with
  | passed a h => exact iff_of_false nofun fun ⟨c, hc, _⟩ => hc.not_passes (h c hc.mem)
  | refused g h hc => exact iff_of_true ⟨g, rfl⟩ ⟨_, h, hc⟩
  | unfit h hc =>
    exact iff_of_false nofun fun ⟨d, hd, hread⟩ => hread (isUnreadable_iff.mpr ⟨_, h.unique hd ▸ hc⟩)

theorem unfit_iff (hx : Answers cs x) (misfit : Misfit) :
    x = .error (.unfit misfit) ↔ ∃ c, FirstFails cs c ∧ c.misfit? = some misfit := by
  cases hx with
  | passed a h => exact iff_of_false nofun fun ⟨c, hc, _⟩ => hc.not_passes (h c hc.mem)
  | refused g h hc =>
    exact iff_of_false nofun fun ⟨d, hd, hread⟩ => hc (isUnreadable_iff.mpr ⟨_, h.unique hd ▸ hread⟩)
  | unfit h hc =>
    constructor
    · rintro ⟨⟩
      exact ⟨_, h, hc⟩
    · rintro ⟨d, hd, hd'⟩
      obtain rfl := h.unique hd
      obtain rfl := Option.some.inj (hc.symm.trans hd')
      rfl

end Answers

/-! Checks of something that may be left out, and of something that has to be recognized. -/

def ifGiven (s : Setting R) (cs : List (Check R)) : List (Check R) :=
  match s with
  | .none => []
  | _ => cs

/-- Something is recognized and passes its own checks. -/
def named {α : Type} (found : Option α) (checks : α → List (Check R)) : List (Check R) :=
  .holds (found.isSome = true) :: found.elim [] checks

section Lists

variable {α β : Type} {s t : Setting R} {r : Range} {checks : α → List (Check R)}
  {x : Except (Failure R) β}

omit [Scalar R] in
theorem ifGiven_none (cs : List (Check R)) : ifGiven .none cs = [] := rfl

omit [Scalar R] in
theorem ifGiven_of_ne (hs : s ≠ .none) (cs : List (Check R)) : ifGiven s cs = cs := by
  unfold ifGiven
  split
  · exact absurd rfl hs
  · rfl

theorem Answers.named_none (g : ConfigurationFailure R) :
    Answers (named none checks) (.error (.configuration g) : Except (Failure R) β) :=
  .lacking (by simp) g

theorem Answers.named_some (a : α) (hx : Answers (checks a) x) :
    Answers (named (some a) checks) x :=
  (Answers.given (p := (some a).isSome = true) rfl ()).bind (f := fun _ => x) fun _ _ => hx

omit [Scalar R] in
theorem mem_ifGiven : .field s r ∈ ifGiven t cs ↔ t ≠ .none ∧ .field s r ∈ cs := by
  by_cases ht : t = .none
  · simp [ht, ifGiven]
  · rw [ifGiven_of_ne ht]
    simp [ht]

omit [Scalar R] in
theorem mem_named {found : Option α} :
    .field s r ∈ named found checks ↔ ∃ a, found = some a ∧ .field s r ∈ checks a := by
  cases found <;> simp [named]

end Lists

end Check

end Fields

end NewtonSolver
