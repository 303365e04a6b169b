import NewtonSolver.Proofs.Arithmetic.Magnitude

/-! Double precision numbers in their order: what is within a bound is within every wider bound. -/
namespace NewtonSolver.Double

open Float.Model (UnpackedFloat)
open Float.Model.UnpackedFloat

/-- The place of a number in the order: its kind, then exponent and mantissa with its sign. -/
def rank : UnpackedFloat → ℤ ×ₗ ℤ ×ₗ ℤ
  | .infinity .negative => toLex (-2, toLex (0, 0))
  | .finite .negative m e _ => toLex (-1, toLex (-e, -m))
  | .zero _ | .notANumber => toLex (0, toLex (0, 0))
  | .finite .positive m e _ => toLex (1, toLex (e, m))
  | .infinity .positive => toLex (2, toLex (0, 0))

theorem isLE_iff_rank {u v : UnpackedFloat} (hu : u ≠ .notANumber) (hv : v ≠ .notANumber) :
    (u.compare v).any (·.isLE) = true ↔ rank u ≤ rank v := by
  rcases u with s | _ | s | ⟨s, m, e, hm⟩ <;> rcases v with t | _ | t | ⟨t, m', e', hm'⟩ <;>
    try cases s <;> try cases t
  case finite.finite.negative.negative =>
    simp only [UnpackedFloat.compare, Ordering.swap_then, ← Std.OrientedOrd.eq_swap]
    simp [rank, Prod.Lex.toLex_le_toLex, Ordering.isLE_then_iff_or, Std.isLE_compare,
      Std.compare_eq_lt]
    omega
  all_goals simp_all [UnpackedFloat.compare, rank, Prod.Lex.toLex_le_toLex,
    Ordering.isLE_then_iff_or, Std.isLE_compare, Std.compare_eq_lt]
  all_goals decide

variable {a b c : Float}

theorem le_iff_rank : a ≤ b ↔
    parts a ≠ .notANumber ∧ parts b ≠ .notANumber ∧ rank (parts a) ≤ rank (parts b) := by
  constructor
  · intro h
    obtain ⟨ha, hb⟩ := number_of_le h
    exact ⟨ha, hb, (isLE_iff_rank ha hb).mp (le_iff.mp h)⟩
  · rintro ⟨ha, hb, h⟩
    exact le_iff.mpr ((isLE_iff_rank ha hb).mpr h)

theorem le_trans (h : a ≤ b) (h' : b ≤ c) : a ≤ c := by
  obtain ⟨ha, -, hab⟩ := le_iff_rank.mp h
  obtain ⟨-, hc, hbc⟩ := le_iff_rank.mp h'
  exact le_iff_rank.mpr ⟨ha, hc, hab.trans hbc⟩

instance isTrans_le : IsTrans Float (· ≤ ·) := ⟨fun _ _ _ => le_trans⟩

/-- What is not below a number is above it or equal to it, or is no number. -/
theorem not_lt_iff (hb : parts b ≠ .notANumber) : ¬ a < b ↔ b ≤ a ∨ a.isNaN = true := by
  by_cases ha : parts a = .notANumber
  · exact iff_of_true (fun h => (number_of_lt h).1 ha) (.inr (isNaN_iff.mpr ha))
  · rw [le_iff_not_lt hb ha, isNaN_iff, or_iff_left ha]

/-! Whole numbers are numbers, though they may be rounded and may be too large. -/

theorem parts_one : parts (1 : Float) = .finite .positive (2 ^ 52) (-52) (by decide) := by rfl

theorem mul_finite_magnitude {u : UnpackedFloat} (hu : Magnitude u) (m : Nat) (e : Int) (hm : 0 < m) :
    Magnitude (u.mul .binary64 (.finite .positive m e hm)) := by
  cases hu with
  | zero s => exact .zero _
  | finite m' e' hm' => exact roundWithAccuracy_magnitude _ _ _
  | infinity => exact .infinity

theorem ofUInt64_magnitude (n : UInt64) : Magnitude (ofUInt64 .binary64 n) := by
  unfold ofUInt64 ofNat ofInt UnpackedFloat.normalize
  split
  case h_1 hlt => exact absurd (compare_lt_iff_lt.mp hlt) (by omega)
  case h_2 => exact .zero _
  case h_3 => exact roundWithAccuracy_magnitude _ _ _

theorem ofNat_magnitude (n : Nat) : Magnitude (parts (Float.ofNat n)) := by
  change Magnitude (parts (Float.ofScientific n false 0))
  unfold Float.ofScientific
  split
  case isTrue h =>
    change Magnitude (parts (n.toUInt64.toFloat * (1 : Float)))
    rw [parts_mul, parts_one]
    have hexact : Magnitude (parts n.toUInt64.toFloat) := stored_magnitude (ofUInt64_magnitude _)
    exact stored_magnitude (mul_finite_magnitude hexact _ _ _)
  case isFalse h =>
    change Magnitude (stored (ofScientific .binary64 n 0))
    have hn : n ≠ 0 := by omega
    have hwidth : (2 : Int) ^ Float.Model.Format.binary64.exponentBits = 2048 := by decide
    have hlow : ¬ (0 : Int) < -(2 ^ Float.Model.Format.binary64.exponentBits + n.log2) := by omega
    have hhigh : ¬ (0 : Int) > 2 ^ Float.Model.Format.binary64.exponentBits := by omega
    refine stored_magnitude ?_
    unfold ofScientific
    rw [dif_neg hn, if_neg hhigh, if_neg hlow, if_pos (Int.le_refl 0)]
    exact mul_finite_magnitude (.finite _ _ _) _ _ _

theorem ofInt_isNaN (i : Int) : (Float.ofInt i).isNaN = false := by
  rw [← Bool.not_eq_true, isNaN_iff]
  have hnat (n : Nat) : parts (Float.ofNat n) ≠ .notANumber := by
    intro h
    have hmagnitude := ofNat_magnitude n
    rw [h] at hmagnitude
    cases hmagnitude
  cases i with
  | ofNat n => exact hnat n
  | negSucc n =>
    intro h
    change stored (parts (Float.ofNat (n + 1))).neg = .notANumber at h
    rw [stored_of_readable (parts_readable _).neg] at h
    have hn := hnat (n + 1)
    cases hu : parts (Float.ofNat (n + 1)) <;> simp_all [UnpackedFloat.neg]

end NewtonSolver.Double
