import Mathlib
import Scripting.Number.Written

set_option autoImplicit false

/-! # Every number can be printed

A whole number is printed by `wholeText?` in decimal digits, of which there must not be more than an
integer may have. The finite numbers are far too small to come near that bound, and infinities and
what is no number have texts of their own. -/

namespace Scripting.Number

open Float.Model (UnpackedFloat)
open Float.Model.UnpackedFloat (Sign)

/-- The bounds on the `mantissa` and the `exponent` of a finite number. -/
theorem lt_of_unpack_eq_finite {f : Float.Model} {sign : Sign} {mantissa : Nat} {exponent : Int}
    {h : 0 < mantissa} (hf : f.unpack = .finite sign mantissa exponent h) :
    mantissa < Nat.pow 2 53 ∧ exponent ≤ 971 := by
  have hbias : (Float.Model.Format.binary64.exponentBias : Int) = 1023 := by decide
  unfold Float.Model.unpack UnpackedFloat.unpack at hf
  dsimp only at hf
  have hm := (@UnpackedFloat.unpackMantissa .binary64 f.toBits.toBitVec).isLt
  have he := (@UnpackedFloat.unpackExponent .binary64 f.toBits.toBitVec).isLt
  split at hf
  · split at hf <;> simp at hf
  · rename_i hmax
    split at hf
    · rename_i hzero
      split at hf
      · simp at hf
      · cases hf
        have hexponent : (@UnpackedFloat.unpackExponent .binary64 f.toBits.toBitVec).toNat = 0 := by
          rw [hzero]; rfl
        exact ⟨Nat.lt_trans hm (by decide), by omega⟩
    · cases hf
      -- the greatest exponent is that of the infinities
      have hne : (@UnpackedFloat.unpackExponent .binary64 f.toBits.toBitVec).toNat ≠ 2047 :=
        fun heq => hmax (BitVec.eq_of_toNat_eq (heq.trans (by decide)))
      refine ⟨BitVec.isLt _, ?_⟩
      simp only at he
      omega

/-- The `wholePart` of a finite number has no more bits than its parts allow. -/
theorem wholePart_lt {mantissa bits k : Nat} {exponent : Int}
    (hmantissa : mantissa < Nat.pow 2 bits) (hexponent : exponent ≤ k) :
    wholePart mantissa exponent < Nat.pow 2 (bits + k) := by
  unfold wholePart
  split
  · have hpow : Nat.pow 2 exponent.toNat ≤ Nat.pow 2 k :=
      Nat.pow_le_pow_right Nat.two_pos (by omega)
    calc mantissa * Nat.pow 2 exponent.toNat ≤ mantissa * Nat.pow 2 k := Nat.mul_le_mul_left _ hpow
      _ < Nat.pow 2 bits * Nat.pow 2 k :=
        Nat.mul_lt_mul_of_pos_right hmantissa (Nat.pow_pos Nat.two_pos)
      _ = Nat.pow 2 (bits + k) := (Nat.pow_add 2 bits k).symm
  · calc mantissa / Nat.pow 2 (-exponent).toNat ≤ mantissa := Nat.div_le_self _ _
      _ < Nat.pow 2 bits := hmantissa
      _ ≤ Nat.pow 2 (bits + k) := Nat.pow_le_pow_right Nat.two_pos (Nat.le_add_right _ _)

/-- The number `n` has no more decimal digits than it has `bits`. -/
theorem length_toDigits_le {n bits : Nat} (hbits : 0 < bits) (h : n < Nat.pow 2 bits) :
    (Nat.toDigits 10 n).length ≤ bits := by
  rw [Nat.length_toDigits_le_iff (by omega) hbits]
  exact Nat.lt_of_lt_of_le h (Nat.pow_le_pow_left (by omega) _)

/-- A whole number has a text, `wholeText?`. -/
theorem isSome_wholeText? {f : Float} (h : isWhole f = true) : (wholeText? f).isSome = true := by
  unfold isWhole at h
  unfold wholeText?
  cases hf : f.toModel.unpack with
  | infinity sign => simp [hf] at h
  | notANumber => simp [hf] at h
  | zero sign => rfl
  | finite sign mantissa exponent hpos =>
    obtain ⟨hmantissa, hexponent⟩ := lt_of_unpack_eq_finite hf
    have hlt := wholePart_lt (k := 971) hmantissa hexponent
    have hdigits := length_toDigits_le (by decide) hlt
    have hmax : (Nat.toDigits 10 (wholePart mantissa exponent)).length ≤ Text.maxDigits :=
      Nat.le_trans hdigits (by decide)
    simp [integerText?, hmax]

/-- Every number can be `printed?`, infinities and what is no number included. -/
theorem isSome_printed? (f : Float) : (printed? f).isSome = true := by
  unfold printed?
  split
  · exact isSome_wholeText? (by assumption)
  · rfl

end Scripting.Number
