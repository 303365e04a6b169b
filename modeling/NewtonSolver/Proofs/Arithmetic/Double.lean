import Mathlib
import NewtonSolver.Mat

/-! Double precision numbers by their sign, mantissa and exponent, and what is read back of them after
they are stored. -/
namespace NewtonSolver.Double

open Float.Model (UnpackedFloat Format)
open Float.Model.UnpackedFloat

/-- The sign, mantissa and exponent of a number. -/
def parts (x : Float) : UnpackedFloat := x.toModel.unpack

/-- What is read back after a number is stored. -/
def stored (u : UnpackedFloat) : UnpackedFloat := (Float.Model.pack u).unpack

variable {u : UnpackedFloat}

theorem stored_infinity (s : Sign) : stored (.infinity s) = .infinity s := by
  simp [stored, Float.Model.pack, Float.Model.unpack, pack, packedInfinity, unpack]

theorem stored_zero (s : Sign) : stored (.zero s) = .zero s := by
  simp [stored, Float.Model.pack, Float.Model.unpack, pack, packedZero, unpack]

theorem stored_notANumber : stored .notANumber = .notANumber := by
  simp [stored, Float.Model.pack, Float.Model.unpack, pack, packedNaN, unpack]

/-- The leading one of a mantissa is not stored. -/
theorem toNat_implicit (m : BitVec 52) : (1#1 ++ m).toNat = 2 ^ 52 + m.toNat := by
  rw [BitVec.toNat_append, ← Nat.shiftLeft_add_eq_or_of_lt m.isLt]
  rfl

/-- Components with an exponent that is not the top one are those of a finite number. -/
theorem unpack_components (s : Sign) {e : BitVec Format.binary64.exponentBits}
    {m : BitVec Format.binary64.mantissaBitsWithoutImplicit} (he : e ≠ -1#_) :
    unpack .binary64 (packComponents .binary64 s e m) = .zero s ∨
      ∃ m' e' hm', unpack .binary64 (packComponents .binary64 s e m) = .finite s m' e' hm' := by
  simp only [unpack, unpackExponent_packComponents, unpackMantissa_packComponents,
    unpackSign_packComponents, Sign.ofBitVec_toBitVec, he, if_false]
  split
  · split
    · exact Or.inl rfl
    · next hm => exact Or.inr ⟨_, _, by simpa [BitVec.toNat_pos, BitVec.pos_iff_ne_zero] using hm, rfl⟩
  · exact Or.inr ⟨_, _, by rw [toNat_implicit]; omega, rfl⟩

/-- A number that does not fit becomes infinite, and one that is too small becomes zero. -/
theorem stored_finite (s : Sign) {m : Nat} {e : Int} (hm : 0 < m) :
    stored (.finite s m e hm) = .infinity s ∨ stored (.finite s m e hm) = .zero s ∨
      ∃ m' e' hm', stored (.finite s m e hm) = .finite s m' e' hm' := by
  simp only [stored, Float.Model.pack, Float.Model.unpack, pack]
  split
  · simp [packedInfinity, unpack]
  · next hb =>
    right
    split
    · refine unpack_components s ?_
      intro he
      have hn := congrArg BitVec.toNat he
      simp at hb hn
      omega
    · exact unpack_components s (by decide)

/-- The numbers that can be read: below the least normal exponent the mantissa is short. -/
inductive Readable : UnpackedFloat → Prop
  | notANumber : Readable .notANumber
  | infinity (s : Sign) : Readable (.infinity s)
  | zero (s : Sign) : Readable (.zero s)
  | subnormal (s : Sign) (m : Nat) (hm : 0 < m) (hs : m < 2 ^ 52) : Readable (.finite s m (-1074) hm)
  | normal (s : Sign) (m : Nat) (e : Int) (hm : 0 < m) (hl : 2 ^ 52 ≤ m) (hs : m < 2 ^ 53)
    (he : -1074 ≤ e) (ht : e ≤ 971) : Readable (.finite s m e hm)

theorem parts_readable (a : Float) : Readable (parts a) := by
  simp only [parts, Float.Model.unpack, unpack]
  split
  · split
    · exact .infinity _
    · exact .notANumber
  · next ht =>
    split
    · split
      · exact .zero _
      · next he hm =>
        rw [he]
        exact .subnormal _ _ _ (BitVec.isLt _)
    · next he =>
      have hb : Format.binary64.exponentBias = 1023 := by decide
      rw [← BitVec.toNat_inj] at ht he
      simp at ht he
      refine .normal _ _ _ _ ?_ ?_ ?_ ?_
      · rw [toNat_implicit]
        omega
      · rw [toNat_implicit]
        omega
      · simp only [hb]
        omega
      · simp only [hb]
        omega

theorem Readable.neg (h : Readable u) : Readable u.neg := by
  cases h with
  | notANumber => exact .notANumber
  | infinity s => exact .infinity _
  | zero s => exact .zero _
  | subnormal s m hm hs => exact .subnormal _ m hm hs
  | normal s m e hm hl hs he ht => exact .normal _ m e hm hl hs he ht

/-- What can be read is stored as it is. -/
theorem stored_of_readable (h : Readable u) : stored u = u := by
  cases h with
  | notANumber => exact stored_notANumber
  | infinity s => exact stored_infinity s
  | zero s => exact stored_zero s
  | subnormal s m hm hs =>
    have hl : m.log2 < 52 := (Nat.log2_lt (by omega)).mpr hs
    have hz : BitVec.ofNat 52 m ≠ 0#52 := by
      intro hz
      have := congrArg BitVec.toNat hz
      simp at this
      omega
    have hmod : m % 4503599627370496 = m := Nat.mod_eq_of_lt hs
    have hb : Format.binary64.exponentBias = 1023 := by decide
    have hn : ¬ m.log2 + 1 = Format.binary64.mantissaBits := by
      simp [Format.mantissaBits]
      omega
    simp [stored, Float.Model.pack, Float.Model.unpack, pack, unpack, hb, hn, hz, hmod]
  | normal s m e hm hl hs he ht =>
    have hlog : m.log2 = 52 := by
      have h1 := (Nat.le_log2 (by omega)).mpr hl
      have h2 := (Nat.log2_lt (by omega)).mpr hs
      omega
    have hb : Format.binary64.exponentBias = 1023 := by decide
    have hn : m.log2 + 1 = Format.binary64.mantissaBits := by
      simp [Format.mantissaBits, hlog]
    have hfit : ¬ 2048 ≤ (e + 1023 + 52).toNat + 1 := by omega
    have htop : BitVec.ofNat 11 (e + 1023 + 52).toNat ≠ 2047#11 := by
      rw [Ne, ← BitVec.toNat_inj]
      simp
      omega
    have hlow : BitVec.ofNat 11 (e + 1023 + 52).toNat ≠ 0#11 := by
      rw [Ne, ← BitVec.toNat_inj]
      simp
      omega
    have hmant : (1#1 ++ BitVec.ofNat 52 m).toNat = m := by
      rw [toNat_implicit, BitVec.toNat_ofNat]
      omega
    have hexp : max (e + 1023 + 52) 0 % 2048 - 1075 = e := by omega
    simp [stored, Float.Model.pack, Float.Model.unpack, pack, unpack, hb, hn, hfit, htop, hlow, hmant,
      hexp]

end NewtonSolver.Double
