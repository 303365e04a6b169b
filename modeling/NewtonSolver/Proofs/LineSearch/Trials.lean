import NewtonSolver.LineSearch.Select

/-! The step lengths that backtracking tries one after the other, and which of them it selects. -/
namespace NewtonSolver.LineSearch

variable {R : Type} [Scalar R] {s : Backtracking R} {merit : Merit R} {alpha : R}

namespace Backtracking

/-- The merit function has a value that lies low enough. -/
structure Enough (s : Backtracking R) (merit : Merit R) (alpha : R) : Prop where
  finite : Scalar.isFinite (merit.value alpha) = true
  decrease : merit.value alpha ≤ merit.valueAtZero + s.decrease * alpha * merit.slopeAtZero

theorem accepts_iff : s.accepts merit alpha (merit.value alpha) = true ↔ s.Enough merit alpha := by
  rw [accepts, Bool.and_eq_true, decide_eq_true_iff]
  exact ⟨fun h => ⟨h.1, h.2⟩, fun h => ⟨h.finite, h.decrease⟩⟩

/-- The step length that is tried after `k` others. -/
def trial (s : Backtracking R) (merit : Merit R) : Nat → R
  | 0 => 1
  | k + 1 => s.shorten merit (s.trial merit k) (merit.value (s.trial merit k))

/-- None of the first `k` step lengths brings enough decrease. -/
def RejectsBefore (s : Backtracking R) (merit : Merit R) (k : Nat) : Prop :=
  ∀ j < k, ¬ s.Enough merit (s.trial merit j)

theorem RejectsBefore.zero : s.RejectsBefore merit 0 := nofun

theorem RejectsBefore.succ {k : Nat} (h : s.RejectsBefore merit k)
    (hno : ¬ s.Enough merit (s.trial merit k)) : s.RejectsBefore merit (k + 1) := by
  intro j hj
  rcases Nat.lt_succ_iff_lt_or_eq.mp hj with hlt | rfl
  · exact h j hlt
  · exact hno

/-- What is found within so many steps, with the number of values that are looked at. -/
inductive Finding (s : Backtracking R) (merit : Merit R) (steps : Nat) : Option R × Nat → Prop
  | taken {k : Nat} (within : k < steps) (before : s.RejectsBefore merit k)
    (enough : s.Enough merit (s.trial merit k)) : Finding s merit steps (some (s.trial merit k), k + 1)
  | exhausted (before : s.RejectsBefore merit steps) : Finding s merit steps (none, steps)

/-- The induction is on the steps that may still be tried. -/
theorem search_finding {k : Nat} (steps : Nat) (h : s.RejectsBefore merit k) :
    s.Finding merit (k + steps) (((s.search merit steps (s.trial merit k)).1),
      k + (s.search merit steps (s.trial merit k)).2) := by
  induction steps generalizing k with
  | zero => exact .exhausted h
  | succ steps ih =>
    rw [search]
    dsimp only
    split
    · next hyes => exact .taken (by omega) h (accepts_iff.mp hyes)
    · next hno =>
      have hrest := ih (h.succ fun henough => hno (accepts_iff.mpr henough))
      simpa only [trial, Nat.add_assoc, Nat.add_comm 1] using hrest

/-- What is selected within the budget of a search. -/
inductive Selects (s : Backtracking R) (merit : Merit R) (budget : Setting R) : Selection R → Prop
  | taken {k : Nat} (within : k < s.maxSteps) (before : s.RejectsBefore merit k)
    (enough : s.Enough merit (s.trial merit k)) :
    Selects s merit budget ⟨.ok (s.trial merit k), k + 1, []⟩
  | exhausted (before : s.RejectsBefore merit s.maxSteps) :
    Selects s merit budget ⟨.error (.lineSearch (.noDecrease budget)), s.maxSteps, []⟩

end Backtracking

theorem backtrack_selects {fields : BacktrackingFields R} (hs : Backtracking.ofFields fields = .ok s)
    (hd : isDescent merit.slopeAtZero = true) :
    s.Selects merit fields.maxSteps (backtrack fields merit) := by
  have hnone : s.RejectsBefore merit 0 := .zero
  have hsearch := Backtracking.search_finding s.maxSteps hnone
  rcases hfound : s.search merit s.maxSteps 1 with ⟨found, count⟩
  simp only [Backtracking.trial, hfound, Nat.zero_add] at hsearch
  simp only [backtrack, hd, hs, hfound, if_true]
  cases hsearch with
  | taken within before enough => exact .taken within before enough
  | exhausted before => exact .exhausted before

end NewtonSolver.LineSearch
