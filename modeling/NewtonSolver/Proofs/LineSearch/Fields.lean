import Mathlib
import NewtonSolver.LineSearch.Select
import NewtonSolver.Proofs.Arithmetic.Exact
import NewtonSolver.Proofs.Configuration

/-! What is known of a backtracking search whose fields were looked at. -/
namespace NewtonSolver

variable {R : Type} [Scalar R]

theorem Setting.isInsideUnit_eq_true {s : Setting R} (h : s.isInsideUnit = .ok true) :
    ∃ x, s.number = .ok x ∧ 0 < x ∧ x < 1 := by
  obtain ⟨x, hx, hin⟩ := Outcome.bind_eq_ok.mp h
  refine ⟨x, Setting.numberOr_eq_ok.mp (liftFault_eq_ok.mp hx), ?_⟩
  simpa using hin

/-- Both parts lie strictly between zero and one. -/
structure LineSearch.Backtracking.IsProper (s : LineSearch.Backtracking R) : Prop where
  decrease_pos : 0 < s.decrease
  decrease_lt_one : s.decrease < 1
  contraction_pos : 0 < s.contraction
  contraction_lt_one : s.contraction < 1

variable {fields : BacktrackingFields R} {s : LineSearch.Backtracking R}

theorem LineSearchStrategy.validate_backtracking
    (hv : (LineSearchStrategy.backtracking fields).validate = .ok ()) :
    fields.decrease.isInsideUnit = .ok true ∧ fields.contraction.isInsideUnit = .ok true ∧
      fields.maxSteps.isBelow 1 = .ok false := by
  obtain ⟨decrease, hdecrease, hv⟩ := Outcome.bind_eq_ok.mp hv
  obtain ⟨⟨⟩, hd, hv⟩ := Outcome.bind_eq_ok.mp hv
  obtain ⟨contraction, hcontraction, hv⟩ := Outcome.bind_eq_ok.mp hv
  obtain ⟨⟨⟩, hc, hv⟩ := Outcome.bind_eq_ok.mp hv
  obtain ⟨below, hbelow, hv⟩ := Outcome.bind_eq_ok.mp hv
  obtain ⟨⟨⟩, hb, -⟩ := Outcome.bind_eq_ok.mp hv
  rw [require_eq_ok] at hd hc hb
  obtain rfl : below = false := by simpa using hb
  exact ⟨hd ▸ hdecrease, hc ▸ hcontraction, hbelow⟩

namespace LineSearch.Backtracking

theorem ofFields_eq_ok (hs : ofFields fields = .ok s) :
    fields.decrease.number = .ok s.decrease ∧ fields.contraction.number = .ok s.contraction ∧
      ∃ i, fields.maxSteps.wholeNumber = .ok i ∧ s.maxSteps = i.toNat := by
  obtain ⟨i, hi, hs⟩ := Outcome.bind_eq_ok.mp hs
  obtain ⟨decrease, hd, hs⟩ := Outcome.bind_eq_ok.mp hs
  obtain ⟨contraction, hc, hs⟩ := Outcome.bind_eq_ok.mp hs
  cases hs
  exact ⟨hd, hc, i, Setting.wholeNumberOr_eq_ok.mp hi, rfl⟩

theorem isProper (hv : (LineSearchStrategy.backtracking fields).validate = .ok ())
    (hs : ofFields fields = .ok s) : s.IsProper := by
  obtain ⟨hdecrease, hcontraction, -⟩ := LineSearchStrategy.validate_backtracking hv
  obtain ⟨hd, hc, -⟩ := ofFields_eq_ok hs
  obtain ⟨x, hx, hx0, hx1⟩ := Setting.isInsideUnit_eq_true hdecrease
  obtain ⟨y, hy, hy0, hy1⟩ := Setting.isInsideUnit_eq_true hcontraction
  obtain rfl := Except.ok.inj (hd.symm.trans hx)
  obtain rfl := Except.ok.inj (hc.symm.trans hy)
  exact ⟨hx0, hx1, hy0, hy1⟩

end LineSearch.Backtracking

end NewtonSolver
