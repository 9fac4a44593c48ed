import Mathlib
import Scripting.Proofs.Number.Printed

set_option autoImplicit false

/-! # Whole numbers are rounded to themselves

A finite number is kept with a mantissa and an exponent that its value determines, as `Canonical`
tells: the mantissa has all its bits, unless the exponent is the least there is. Rounding looks for
these two. What has the value of a number that is kept is therefore rounded to it without a loss,
from whatever mantissa and exponent the rounding sets out, and a whole literal is read as the number
that has its value. -/

namespace Scripting.Number

open Float.Model (Format UnpackedFloat totalExponent)
open Float.Model.UnpackedFloat

variable {m n : Nat} {e : Int}

/-! ## Numbers as they are kept -/

/-- Whether the `mantissa` and the `exponent` are those with which a finite number is kept. -/
structure Canonical (mantissa : Nat) (exponent : Int) : Prop where
  pos : 0 < mantissa
  lt : mantissa < Nat.pow 2 53
  least : leastExponent ≤ exponent
  full : leastFullMantissa ≤ mantissa ∨ exponent = leastExponent

theorem canonical_of_unpack {f : Float.Model} {sign : Sign} {h : 0 < m}
    (hf : f.unpack = .finite sign m e h) : Canonical m e := by
  have hbias : (Format.binary64.exponentBias : Int) = 1023 := by decide
  have hlt := (lt_of_unpack_eq_finite hf).1
  unfold Float.Model.unpack UnpackedFloat.unpack at hf
  dsimp only at hf
  split at hf
  · split at hf <;> simp at hf
  split at hf
  · rename_i hzero
    split at hf
    · simp at hf
    · cases hf
      have hexponent : (@unpackExponent .binary64 f.toBits.toBitVec).toNat = 0 := by
        rw [hzero]; rfl
      refine ⟨h, hlt, ?_, .inr ?_⟩ <;> simp only [leastExponent] <;> omega
  · rename_i hzero
    cases hf
    have hne : (@unpackExponent .binary64 f.toBits.toBitVec).toNat ≠ 0 :=
      fun heq => hzero (BitVec.eq_of_toNat_eq heq)
    refine ⟨h, hlt, ?_, .inl ?_⟩
    · simp only [leastExponent]; omega
    · -- the bit that is not kept stands before those that are
      rw [BitVec.toNat_append]
      exact Nat.left_le_or

/-- The exponent is the one that the rounding aims at. -/
theorem Canonical.target (h : Canonical m e) :
    Format.binary64.targetExponent (totalExponent m e) = e := by
  have hlt : m.log2 < 53 := (Nat.log2_lt h.pos.ne').2 h.lt
  have hmin : Format.binary64.minExponent = -1074 := by decide
  have hbits : Format.binary64.mantissaBits = 53 := rfl
  have hleast : -1074 ≤ e := h.least
  unfold Format.targetExponent totalExponent
  rw [hmin, hbits]
  rcases h.full with hfull | he
  · have hlog : 52 ≤ m.log2 := (Nat.le_log2 h.pos.ne').2 hfull
    omega
  · have he : e = -1074 := he
    omega

/-! ## Rounding without a loss -/

/-- The `k` zeros behind the last bit of a mantissa `m` are shifted out without a trace. -/
theorem shift_zeros (m k : Nat) :
    ExtendedMantissa.ofMantissaAndAccuracy (m * 2 ^ k) .exact >>> k =
      ExtendedMantissa.ofMantissaAndAccuracy m .exact := by
  change k.repeat ExtendedMantissa.shiftRightOne _ = _
  induction k generalizing m with
  | zero => simp [Nat.repeat]
  | succ k ih =>
    rw [Nat.repeat, pow_succ', ← mul_assoc, ih]
    simp [ExtendedMantissa.shiftRightOne, ExtendedMantissa.ofMantissaAndAccuracy]

/-- How large a number is, `totalExponent`, does not depend on the `k` zeros behind its last bit. -/
theorem totalExponent_mul_pow (h : 0 < m) (e : Int) (k : Nat) :
    totalExponent (m * 2 ^ k) (e - k) = totalExponent m e := by
  have hlog : (m * 2 ^ k).log2 = m.log2 + k := by
    induction k with
    | zero => simp
    | succ k ih => rw [pow_succ', mul_left_comm, Nat.log2_two_mul (by positivity), ih, add_assoc]
  unfold totalExponent
  rw [hlog]
  omega

theorem Canonical.shift (h : Canonical m e) (k : Nat) :
    shiftToTargetExponent .binary64 (m * 2 ^ k) (e - k) .exact =
      (ExtendedMantissa.ofMantissaAndAccuracy m .exact, e) := by
  have hshift : (e - (e - (k : Int))).toNat = k := by omega
  unfold shiftToTargetExponent shiftToExponent
  simp only [totalExponent_mul_pow h.pos, h.target, hshift, shift_zeros]
  simp

/-- What has the value of a number that is kept is rounded to it by `roundWithAccuracy`. -/
theorem Canonical.roundWithAccuracy (h : Canonical m e) (sign : Sign) (k : Nat) :
    UnpackedFloat.roundWithAccuracy .binary64 sign (m * 2 ^ k) (e - k) .exact =
      .finite sign m e h.pos := by
  have hround : (ExtendedMantissa.ofMantissaAndAccuracy m .exact).roundedMantissa = m := rfl
  have hagain : shiftToTargetExponent .binary64 m e .exact =
      (ExtendedMantissa.ofMantissaAndAccuracy m .exact, e) := by simpa using h.shift 0
  unfold UnpackedFloat.roundWithAccuracy
  rw [h.shift k]
  simp only [hround, hagain]
  exact dif_neg h.pos.ne'

/-! ## Whole numbers -/

/-- A whole number is its mantissa with zeros behind it, or its mantissa is the number with zeros
    behind it. -/
theorem whole?_cases (h : whole? m e = some n) :
    (∃ k : Nat, e = k ∧ n = m * 2 ^ k) ∨ ∃ k : Nat, e = -(k : Int) ∧ m = n * 2 ^ k := by
  unfold whole? at h
  split at h
  · rename_i he
    exact .inl ⟨e.toNat, (Int.toNat_of_nonneg he).symm, (Option.some.inj h).symm⟩
  · rename_i he
    refine .inr ⟨(-e).toNat, by omega, ?_⟩
    obtain ⟨hmod, hdiv⟩ := Option.ite_none_right_eq_some.1 h
    cases hdiv
    exact (Nat.div_mul_cancel (Nat.dvd_of_mod_eq_zero hmod)).symm

theorem pos_of_whole? (hpos : 0 < m) (h : whole? m e = some n) : 0 < n := by
  rcases whole?_cases h with ⟨k, -, rfl⟩ | ⟨k, -, rfl⟩
  · positivity
  · exact Nat.pos_of_mul_pos_right hpos

theorem totalExponent_of_whole? (hpos : 0 < m) (h : whole? m e = some n) :
    totalExponent n 0 = totalExponent m e := by
  have hn := pos_of_whole? hpos h
  rcases whole?_cases h with ⟨k, rfl, rfl⟩ | ⟨k, rfl, rfl⟩
  · simpa using totalExponent_mul_pow hpos k k
  · simpa using (totalExponent_mul_pow hn 0 k).symm

/-- A `whole?` number that is kept has more than `leastExponent`. -/
theorem Canonical.least_lt (hc : Canonical m e) (h : whole? m e = some n) : leastExponent < e := by
  have hbits : Format.binary64.mantissaBits = 53 := rfl
  have htarget := hc.target
  rw [← totalExponent_of_whole? hc.pos h] at htarget
  unfold Format.targetExponent totalExponent at htarget
  rw [hbits] at htarget
  simp only [leastExponent]
  omega

/-- A whole number `n` is rounded to the number that is kept for it. -/
theorem Canonical.round (hc : Canonical m e) (h : whole? m e = some n) (sign : Sign) :
    UnpackedFloat.round .binary64 sign n 0 = .finite sign m e hc.pos := by
  unfold UnpackedFloat.round
  rw [totalExponent_of_whole? hc.pos h, hc.target]
  rcases whole?_cases h with ⟨k, rfl, rfl⟩ | ⟨k, rfl, rfl⟩
  · have hround := hc.roundWithAccuracy sign k
    simpa [decreaseExponent] using hround
  · have hround := hc.roundWithAccuracy sign 0
    simpa [decreaseExponent, Nat.shiftLeft_eq] using hround

/-- A number divided by one is the number. -/
theorem Canonical.div_one (hc : Canonical m e) (he : leastExponent < e) (sign : Sign)
    (hpos : 0 < 2 ^ 52) :
    UnpackedFloat.div .binary64 (.finite sign m e hc.pos) (.finite .positive (2 ^ 52) (-52) hpos) =
      .finite sign m e hc.pos := by
  have hsign : sign / .positive = sign := by cases sign <;> rfl
  have hone : totalExponent (2 ^ 52) (-52) = 1 := by
    unfold totalExponent
    rw [Nat.log2_two_pow]
    rfl
  have htarget : Format.binary64.targetExponent (totalExponent m e - 1) = e - 1 := by
    have hmin : Format.binary64.minExponent = -1074 := by decide
    have he : -1074 < e := he
    have htarget := hc.target
    unfold Format.targetExponent at htarget ⊢
    omega
  -- the quotient has one bit more than the mantissa, and nothing is left over
  have hcore : divCore .binary64 m e (2 ^ 52) (-52) = (m * 2 ^ 1, e - (1 : Nat), .exact) := by
    have hleast : min (e - -52) (e - 1) = e - 1 := by omega
    have hshift : (e - -52 - (e - 1)).toNat = 53 := by omega
    have hdiv : m <<< 53 = 2 ^ 52 * (m * 2) := by rw [Nat.shiftLeft_eq]; ring
    unfold divCore
    simp only [hone, htarget, hleast, hshift, hdiv, Nat.mul_div_cancel_left _ hpos,
      Nat.mul_mod_right]
    simp [accuracyOfFraction]
  unfold UnpackedFloat.div
  simp only [hcore, hsign]
  exact hc.roundWithAccuracy sign 1

/-! ## Whole literals -/

theorem pack_unpack (f : Float.Model) : Float.Model.pack f.unpack = f := by
  obtain ⟨bits, hvalid⟩ := f
  simp only [Float.Model.pack, Float.Model.unpack, Float.Model.mk.injEq]
  rw [UnpackedFloat.pack_unpack_of_valid hvalid]

/-- A number is the one that its parts are packed into. -/
theorem eq_of_unpack {f : Float} {u : UnpackedFloat} (hf : f.toModel.unpack = u) :
    Float.ofModel (Float.Model.pack u) = f := by
  rw [← hf, pack_unpack]

section Literals

variable {f : Float} {h : 0 < m}

theorem toFloat_of_whole? (hf : f.toModel.unpack = .finite .positive m e h)
    (hwhole : whole? m e = some n) (hn : n < 2 ^ 64) : n.toUInt64.toFloat = f := by
  have hpos := pos_of_whole? h hwhole
  have hbits : n.toUInt64.toNat = n := Nat.mod_eq_of_lt hn
  have hcompare : compare (n : Int) 0 = .gt := Int.compare_eq_gt.2 (by omega)
  rw [← eq_of_unpack hf, ← (canonical_of_unpack hf).round hwhole .positive]
  unfold UInt64.toFloat Float.Model.ofUInt64 UnpackedFloat.ofUInt64 UnpackedFloat.ofNat
    UnpackedFloat.ofInt UnpackedFloat.normalize
  rw [hbits, hcompare]
  rfl

/-- The parts of the number one. -/
theorem unpack_one :
    Float.exactlyRepresentablePowersOfTen[0].toModel.unpack =
      .finite .positive (2 ^ 52) (-52) (by decide) := by
  rfl

theorem ofScientific_of_small (hf : f.toModel.unpack = .finite .positive m e h)
    (hwhole : whole? m e = some n) (hsmall : n < 2 ^ 53) : Float.ofScientific n true 0 = f := by
  have hc := canonical_of_unpack hf
  have hkept : n.toUInt64.toFloat = f := toFloat_of_whole? hf hwhole (by omega)
  unfold Float.ofScientific
  rw [dif_pos ⟨hsmall, by decide⟩, if_pos rfl, hkept]
  change Float.ofModel (Float.Model.pack (UnpackedFloat.div .binary64 f.toModel.unpack
    Float.exactlyRepresentablePowersOfTen[0].toModel.unpack)) = f
  rw [hf, unpack_one, hc.div_one (hc.least_lt hwhole), eq_of_unpack hf]

theorem ofScientific_of_large (hf : f.toModel.unpack = .finite .positive m e h)
    (hwhole : whole? m e = some n) (hlarge : ¬n < 2 ^ 53) : Float.ofScientific n true 0 = f := by
  have hc := canonical_of_unpack hf
  -- the mantissa of a number as large as this has no zeros too many
  have hzeros : ∃ k : Nat, e = k ∧ n = m * 2 ^ k := by
    refine (whole?_cases hwhole).resolve_right ?_
    rintro ⟨k, -, hm⟩
    have hge : n ≤ m := hm ▸ Nat.le_mul_of_pos_right n (by positivity)
    exact hlarge (Nat.lt_of_le_of_lt hge hc.lt)
  obtain ⟨k, rfl, rfl⟩ := hzeros
  have hpos := pos_of_whole? h hwhole
  have hbits : (0 : Int) < 2 ^ Format.binary64.exponentBits := by decide
  have hshift : (m * 2 ^ k) <<< 53 * 10 ^ (0 : Int).toNat = m * 2 ^ (k + 53) := by
    rw [Nat.shiftLeft_eq, pow_add]
    simp [mul_assoc]
  have hexponent : (-53 : Int) + 0 = k - (k + 53 : Nat) := by push_cast; omega
  have hround : UnpackedFloat.ofScientific .binary64 (m * 2 ^ k) 0 = .finite .positive m k h := by
    unfold UnpackedFloat.ofScientific
    rw [dif_neg hpos.ne', if_neg (by omega), if_neg (by omega), if_pos (Int.le_refl 0)]
    change UnpackedFloat.roundWithAccuracy .binary64 .positive
      ((m * 2 ^ k) <<< 53 * 10 ^ (0 : Int).toNat) (-53 + 0) .exact = _
    rw [hshift, hexponent]
    exact hc.roundWithAccuracy .positive (k + 53)
  unfold Float.ofScientific
  rw [dif_neg fun hboth => hlarge hboth.1]
  change Float.ofModel (Float.Model.pack (UnpackedFloat.ofScientific .binary64 (m * 2 ^ k) 0)) = f
  rw [hround, eq_of_unpack hf]

/-- A whole literal is read by `ofScientific` as the number `f` that has its value, if there is
    one. -/
theorem ofScientific_of_whole? (hf : f.toModel.unpack = .finite .positive m e h)
    (hwhole : whole? m e = some n) : Float.ofScientific n true 0 = f := by
  by_cases hsmall : n < 2 ^ 53
  · exact ofScientific_of_small hf hwhole hsmall
  · exact ofScientific_of_large hf hwhole hsmall

end Literals

end Scripting.Number
