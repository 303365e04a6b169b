import NewtonSolver.Proofs.Arithmetic.Double

/-! Magnitudes stay magnitudes under the operations, two signs cancel, and what is not a number compares
false with everything. -/
namespace NewtonSolver.Double

open Float.Model (UnpackedFloat)
open Float.Model.UnpackedFloat

/-- Zero of either sign, or above zero. -/
inductive Magnitude : UnpackedFloat → Prop
  | zero (s : Sign) : Magnitude (.zero s)
  | finite (m : Nat) (e : Int) (hm : 0 < m) : Magnitude (.finite .positive m e hm)
  | infinity : Magnitude (.infinity .positive)

variable {u v : UnpackedFloat} {a b : Float}

theorem parts_add (a b : Float) :
    parts (a + b) = stored ((parts a).add .binary64 (parts b)) := rfl

theorem parts_mul (a b : Float) :
    parts (a * b) = stored ((parts a).mul .binary64 (parts b)) := rfl

theorem parts_sqrt (a : Float) : parts a.sqrt = stored ((parts a).sqrt .binary64) := rfl

theorem isFinite_eq (a : Float) : a.isFinite = (parts a).isFinite := rfl

theorem isNaN_iff : a.isNaN = true ↔ parts a = .notANumber := by
  change (parts a).isNaN = true ↔ _
  cases parts a <;> simp [UnpackedFloat.isNaN]

theorem stored_magnitude (h : Magnitude u) : Magnitude (stored u) := by
  cases h with
  | zero s =>
    rw [stored_zero]
    exact .zero s
  | infinity =>
    rw [stored_infinity]
    exact .infinity
  | finite m e hm =>
    rcases stored_finite .positive hm with h | h | ⟨m', e', hm', h⟩ <;> rw [h]
    · exact .infinity
    · exact .zero _
    · exact .finite m' e' hm'

/-- Rounding keeps the sign. -/
theorem roundWithAccuracy_sign (s : Sign) (m : Nat) (e : Int) (acc : Accuracy) :
    roundWithAccuracy .binary64 s m e acc = .zero s ∨
      ∃ m' e' hm', roundWithAccuracy .binary64 s m e acc = .finite s m' e' hm' := by
  simp only [roundWithAccuracy]
  split
  · exact Or.inl rfl
  · next hm => exact Or.inr ⟨_, _, Nat.pos_of_ne_zero hm, rfl⟩

theorem roundWithAccuracy_magnitude (m : Nat) (e : Int) (acc : Accuracy) :
    Magnitude (roundWithAccuracy .binary64 .positive m e acc) := by
  rcases roundWithAccuracy_sign .positive m e acc with h | ⟨m', e', hm', h⟩ <;> rw [h]
  · exact .zero _
  · exact .finite m' e' hm'

theorem add_magnitude (hu : Magnitude u) (hv : Magnitude v) : Magnitude (u.add .binary64 v) := by
  cases hu with
  | zero s =>
    cases hv with
    | zero t =>
      simp only [add]
      split
      · exact .zero _
      · exact .zero _
    | finite m e hm => exact .finite m e hm
    | infinity => exact .infinity
  | finite m e hm =>
    cases hv with
    | zero t => exact .finite m e hm
    | finite m' e' hm' =>
      simp only [add, decreaseExponent, Sign.apply, UnpackedFloat.normalize]
      have hpos : (0 : Int) < ↑(m <<< (e - min e e').toNat) + ↑(m' <<< (e' - min e e').toNat) := by
        have hk : 0 < m <<< (e - min e e').toNat := by
          rw [Nat.shiftLeft_eq]
          exact Nat.mul_pos hm (Nat.two_pow_pos _)
        exact Int.add_pos_of_pos_of_nonneg (Int.natCast_pos.mpr hk) (Int.natCast_nonneg _)
      rw [Int.compare_eq_gt.mpr hpos]
      exact roundWithAccuracy_magnitude _ _ _
    | infinity => exact .infinity
  | infinity =>
    cases hv with
    | zero t => exact .infinity
    | finite m e hm => exact .infinity
    | infinity => exact .infinity

theorem mul_self_magnitude (hu : u ≠ .notANumber) : Magnitude (u.mul .binary64 u) := by
  cases u with
  | notANumber => exact absurd rfl hu
  | infinity s => cases s <;> exact .infinity
  | zero s => exact .zero _
  | finite s m e hm => cases s <;> exact roundWithAccuracy_magnitude _ _ _

theorem sqrt_magnitude (hu : Magnitude u) : Magnitude (u.sqrt .binary64) := by
  cases hu with
  | zero s => exact .zero s
  | finite m e hm => exact roundWithAccuracy_magnitude _ _ _
  | infinity => exact .infinity

theorem sub_neg_eq (u v : UnpackedFloat) : u.sub .binary64 v.neg = u.add .binary64 v := by
  have hneg (s : Sign) : - -s = s := by cases s <;> rfl
  have happly (s : Sign) (k : Int) : (-s).apply k = -s.apply k := by
    cases s
    · exact (Int.neg_neg k).symm
    · rfl
  cases u <;> cases v <;> simp only [UnpackedFloat.neg, add, sub, hneg, happly, Int.sub_neg]

theorem neg_mul_neg_eq (u v : UnpackedFloat) : u.neg.mul .binary64 v.neg = u.mul .binary64 v := by
  have hneg (s t : Sign) : -s * -t = s * t := by cases s <;> cases t <;> rfl
  cases u <;> cases v <;> simp only [UnpackedFloat.neg, mul, hneg]

theorem compare_swap (u v : UnpackedFloat) : v.compare u = (u.compare v).map Ordering.swap := by
  rcases u with s | _ | s | ⟨s, m, e, hm⟩ <;> rcases v with t | _ | t | ⟨t, m', e', hm'⟩ <;>
    try cases s <;> try cases t
  all_goals try rfl
  all_goals
    simp only [UnpackedFloat.compare, Option.map_some, Ordering.swap_then,
      ← Std.OrientedOrd.eq_swap]

theorem compare_eq_none : u.compare v = none ↔ u = .notANumber ∨ v = .notANumber := by
  rcases u with s | _ | s | ⟨s, m, e, hm⟩ <;> rcases v with t | _ | t | ⟨t, m', e', hm'⟩ <;>
    try cases s <;> try cases t
  all_goals simp [UnpackedFloat.compare]

theorem le_iff : a ≤ b ↔ ((parts a).compare (parts b)).any (·.isLE) = true := by
  change decide ((parts a).le (parts b) = true) = true ↔ _
  rw [decide_eq_true_iff, UnpackedFloat.le]

theorem lt_iff : a < b ↔ (parts a).compare (parts b) = some .lt := by
  change decide ((parts a).lt (parts b) = true) = true ↔ _
  rw [decide_eq_true_iff, UnpackedFloat.lt, beq_iff_eq]

theorem le_iff_not_lt (ha : parts a ≠ .notANumber) (hb : parts b ≠ .notANumber) :
    a ≤ b ↔ ¬ b < a := by
  rw [le_iff, lt_iff, compare_swap (parts a)]
  cases hc : (parts a).compare (parts b) with
  | none => simp_all [compare_eq_none]
  | some o => cases o <;> decide

theorem number_of_le (h : a ≤ b) : parts a ≠ .notANumber ∧ parts b ≠ .notANumber := by
  rw [le_iff] at h
  have hc : (parts a).compare (parts b) ≠ none := by
    intro hc
    simp [hc] at h
  simpa [compare_eq_none] using hc

theorem number_of_lt (h : a < b) : parts a ≠ .notANumber ∧ parts b ≠ .notANumber := by
  rw [lt_iff] at h
  have hc : (parts a).compare (parts b) ≠ none := by simp [h]
  simpa [compare_eq_none] using hc

theorem parts_zero : parts (0 : Float) = .zero .positive := by
  rfl

theorem nonneg_iff : (0 : Float) ≤ a ↔ Magnitude (parts a) := by
  rw [le_iff, parts_zero]
  constructor
  · intro h
    generalize parts a = u at h
    rcases u with s | _ | s | ⟨s, m, e, hm⟩ <;> try cases s
    all_goals first
      | exact .infinity
      | exact .zero _
      | exact .finite m e hm
      | cases h
  · intro h
    generalize parts a = u at h
    cases h <;> rfl

theorem number_of_nonneg (h : (0 : Float) ≤ a) : parts a ≠ .notANumber := (number_of_le h).2

theorem number_of_finite (h : a.isFinite = true) : parts a ≠ .notANumber := by
  intro ha
  simp [isFinite_eq, ha, UnpackedFloat.isFinite] at h

theorem add_nonneg (ha : (0 : Float) ≤ a) (hb : (0 : Float) ≤ b) : (0 : Float) ≤ a + b := by
  rw [nonneg_iff] at ha hb ⊢
  rw [parts_add]
  exact stored_magnitude (add_magnitude ha hb)

theorem mul_self_nonneg (ha : parts a ≠ .notANumber) : (0 : Float) ≤ a * a := by
  rw [nonneg_iff, parts_mul]
  exact stored_magnitude (mul_self_magnitude ha)

theorem sqrt_nonneg (ha : (0 : Float) ≤ a) : (0 : Float) ≤ a.sqrt := by
  rw [nonneg_iff] at ha ⊢
  rw [parts_sqrt]
  exact stored_magnitude (sqrt_magnitude ha)

theorem sub_neg (a b : Float) : a - -b = a + b := by
  change Float.ofModel (.pack ((parts a).sub .binary64 (stored (parts b).neg))) =
    Float.ofModel (.pack ((parts a).add .binary64 (parts b)))
  rw [stored_of_readable (parts_readable b).neg, sub_neg_eq]

theorem neg_mul_neg (a b : Float) : -a * -b = a * b := by
  change Float.ofModel (.pack ((stored (parts a).neg).mul .binary64 (stored (parts b).neg))) =
    Float.ofModel (.pack ((parts a).mul .binary64 (parts b)))
  rw [stored_of_readable (parts_readable a).neg, stored_of_readable (parts_readable b).neg,
    neg_mul_neg_eq]

theorem beq_zero_iff : (a == 0) = true ↔ ∃ s, parts a = .zero s := by
  change (parts a).beq (parts 0) = true ↔ _
  rw [parts_zero]
  generalize parts a = u
  rcases u with s | _ | s | ⟨s, m, e, hm⟩ <;> try cases s
  all_goals simp [UnpackedFloat.beq, UnpackedFloat.compare]

/-- The product of a finite magnitude and a magnitude is one, unless it is zero times infinity. -/
theorem mul_nonneg (ha : (0 : Float) ≤ a) (hf : a.isFinite = true) (hb : (0 : Float) ≤ b)
    (h : (a == 0) = true → b.isFinite = true) : (0 : Float) ≤ a * b := by
  rw [nonneg_iff] at ha hb ⊢
  rw [beq_zero_iff, isFinite_eq] at h
  rw [isFinite_eq] at hf
  rw [parts_mul]
  generalize parts a = u at ha hf h
  generalize parts b = v at hb h
  refine stored_magnitude ?_
  cases ha with
  | zero s =>
    have hv := h ⟨s, rfl⟩
    cases hb with
    | zero t => exact .zero _
    | finite m e hm => exact .zero _
    | infinity => simp [UnpackedFloat.isFinite] at hv
  | finite m e hm =>
    cases hb with
    | zero t => exact .zero _
    | finite m' e' hm' => exact roundWithAccuracy_magnitude _ _ _
    | infinity => exact .infinity
  | infinity => simp [UnpackedFloat.isFinite] at hf

theorem zero_mul_infinite (ha : (a == 0) = true) (hb : (0 : Float) ≤ b) (hi : b.isFinite = false) :
    parts (a * b) = .notANumber := by
  obtain ⟨s, hs⟩ := beq_zero_iff.mp ha
  rw [nonneg_iff] at hb
  rw [isFinite_eq] at hi
  rw [parts_mul, hs]
  generalize parts b = v at hb hi
  cases hb with
  | zero t => simp [UnpackedFloat.isFinite] at hi
  | finite m e hm => simp [UnpackedFloat.isFinite] at hi
  | infinity => exact stored_notANumber

theorem atLeast_nonneg (ha : (0 : Float) ≤ a) (hb : (0 : Float) ≤ b) :
    (0 : Float) ≤ Scalar.atLeast a b := by
  unfold Scalar.atLeast
  split
  · exact hb
  · exact ha

theorem mul_notANumber (hb : parts b = .notANumber) : parts (a * b) = .notANumber := by
  rw [parts_mul, hb]
  cases parts a <;> exact stored_notANumber

theorem add_notANumber (h : parts a = .notANumber ∨ parts b = .notANumber) :
    parts (a + b) = .notANumber := by
  rw [parts_add]
  rcases h with h | h
  · rw [h]
    cases parts b <;> exact stored_notANumber
  · rw [h]
    cases parts a <;> exact stored_notANumber

theorem sqrt_notANumber (h : parts a = .notANumber) : parts a.sqrt = .notANumber := by
  rw [parts_sqrt, h]
  exact stored_notANumber

/-! An infinite magnitude stays one: nothing that is added to it can cancel it. -/

theorem add_infinite (ha : (0 : Float) ≤ a) (hb : (0 : Float) ≤ b)
    (h : parts a = .infinity .positive ∨ parts b = .infinity .positive) :
    parts (a + b) = .infinity .positive := by
  rw [nonneg_iff] at ha hb
  rw [parts_add]
  generalize parts a = u at ha h
  generalize parts b = v at hb h
  rcases h with rfl | rfl
  · cases hb <;> exact stored_infinity .positive
  · cases ha <;> exact stored_infinity .positive

theorem mul_self_infinite {s : Sign} (h : parts a = .infinity s) :
    parts (a * a) = .infinity .positive := by
  rw [parts_mul, h]
  cases s <;> exact stored_infinity .positive

theorem sqrt_infinite (h : parts a = .infinity .positive) :
    parts a.sqrt = .infinity .positive := by
  rw [parts_sqrt, h]
  exact stored_infinity .positive

theorem isFinite_eq_false (ha : parts a ≠ .notANumber) :
    a.isFinite = false ↔ ∃ s, parts a = .infinity s := by
  rw [isFinite_eq]
  generalize parts a = u at ha
  cases u <;> simp_all [UnpackedFloat.isFinite]

/-- Below an infinite number is every finite magnitude and nothing else that is not negative. -/
theorem lt_infinite (ha : parts a = .infinity .positive) (hb : (0 : Float) ≤ b) :
    b < a ↔ b.isFinite = true := by
  rw [nonneg_iff] at hb
  rw [lt_iff, isFinite_eq, ha]
  generalize parts b = v at hb
  cases hb <;> simp [UnpackedFloat.compare, UnpackedFloat.isFinite]

end NewtonSolver.Double
