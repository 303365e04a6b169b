import NewtonSolver.Failure

/-! Computations that may fail, taken apart into their stages. -/
namespace NewtonSolver

namespace Outcome

variable {ε α β : Type} {x : Except ε α} {f : α → Except ε β} {a : α} {b : β} {e : ε}

@[simp] theorem pure_eq : (pure a : Except ε α) = .ok a := rfl

@[simp] theorem ok_bind : (Except.ok a >>= f) = f a := rfl

@[simp] theorem error_bind : (Except.error e >>= f) = .error e := rfl

theorem bind_eq_ok : x >>= f = .ok b ↔ ∃ a, x = .ok a ∧ f a = .ok b := by
  cases x with
  | error e => simp
  | ok a => simp

theorem eq_ok_of_toOption (h : x.toOption = some a) : x = .ok a := by
  cases x with
  | error e => cases h
  | ok a' => exact congrArg Except.ok (Option.some.inj h)

/-- A computation all of whose failures have the property. -/
def FailsOnly (p : ε → Prop) (x : Except ε α) : Prop := ∀ e, x = .error e → p e

variable {p : ε → Prop}

theorem FailsOnly.ok (a : α) : FailsOnly p (.ok a) := nofun

theorem FailsOnly.error (h : p e) : FailsOnly p (.error e : Except ε α) := by
  rintro _ ⟨⟩
  exact h

theorem FailsOnly.mono {q : ε → Prop} (hx : FailsOnly p x) (h : ∀ e, p e → q e) : FailsOnly q x :=
  fun e he => h e (hx e he)

theorem FailsOnly.bind (hx : FailsOnly p x) (hf : ∀ a, FailsOnly p (f a)) :
    FailsOnly p (x >>= f) := by
  cases x with
  | error e => exact .error (hx e rfl)
  | ok a => exact hf a

end Outcome

/-- A computation that has a result with the property, or is refused for want of a derivative. It is
refused only for a reason. -/
inductive RefusedOr {α : Type} (reason : Prop) (p : α → Prop) : Except Fault α → Prop
  | refused (h : reason) (f : DifferentiationFailure) : RefusedOr reason p (.error (.differentiation f))
  | gives {a : α} (h : p a) : RefusedOr reason p (.ok a)

theorem RefusedOr.bind {α β : Type} {reason : Prop} {p : α → Prop} {q : β → Prop}
    {x : Except Fault α} {f : α → Except Fault β} (hx : RefusedOr reason p x)
    (hf : ∀ a, p a → RefusedOr reason q (f a)) : RefusedOr reason q (x >>= f) := by
  cases hx with
  | refused h g => exact .refused h g
  | gives ha => exact hf _ ha

theorem RefusedOr.exists_of_not {α : Type} {reason : Prop} {p : α → Prop} {x : Except Fault α}
    (h : RefusedOr reason p x) (hreason : ¬ reason) : ∃ a, x = .ok a ∧ p a := by
  cases h with
  | refused h g => exact absurd h hreason
  | gives ha => exact ⟨_, rfl, ha⟩

theorem liftFault_failsOnly {R α : Type} {p : Failure R → Prop} (h : ∀ f, p (.ofFault f))
    (x : Except Fault α) : Outcome.FailsOnly p (liftFault x : Except (Failure R) α) := by
  cases x with
  | error f => exact .error (h f)
  | ok a => exact .ok a

theorem liftFault_bind {R α β : Type} (x : Except Fault α) (f : α → Except Fault β) :
    (liftFault (x >>= f) : Except (Failure R) β) = liftFault x >>= fun a => liftFault (f a) := by
  cases x <;> rfl

theorem liftFault_eq_ok {R α : Type} {x : Except Fault α} {a : α} :
    (liftFault x : Except (Failure R) α) = .ok a ↔ x = .ok a := by
  cases x with
  | error f => simp [liftFault]
  | ok b => simp [liftFault]

end NewtonSolver
