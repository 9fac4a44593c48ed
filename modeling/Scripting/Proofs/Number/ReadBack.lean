import Mathlib
import Scripting.Proofs.Evaluation.Answers
import Scripting.Proofs.Number.Rounding

set_option autoImplicit false

/-! # Whole numbers are printed exactly and read back

The value of a finite number, `Number.value?`, is a mantissa times a power of two. Where it is
whole, it is printed as an integer in decimal digits, without a loss: the digits are those of the
value, however many there are, and the literal that they make is rounded to the number they come
from. So is a line of input that consists of them. -/

namespace Scripting.Number

open Float.Model (UnpackedFloat)
open Float.Model.UnpackedFloat (Sign)

/-! ## Values -/

/-- The value of the number `f`, if it is finite. -/
def value? (f : Float) : Option ℚ :=
  match f.toModel.unpack with
  | .zero _ => some 0
  | .finite sign mantissa exponent _ => some (sign.apply mantissa * 2 ^ exponent)
  | _ => none

/-- The parts of the number `f`, which has the whole value `n`. -/
inductive WholeParts (f : Float) (n : ℤ) : Prop
  | zero (sign : Sign) (hf : f.toModel.unpack = .zero sign) (hn : n = 0)
  | finite {sign : Sign} {mantissa : Nat} {exponent : Int} {h : 0 < mantissa}
      (hf : f.toModel.unpack = .finite sign mantissa exponent h)
      (hwhole : whole? mantissa exponent = some n.natAbs) (hn : n = sign.apply n.natAbs)

variable {f g : Float} {n k : ℤ} {m a : Nat} {e : Int}

/-- A mantissa `m` times a power of two that is `whole?`. -/
theorem whole?_of_mul_pow (h : (m : ℚ) * 2 ^ e = a) : whole? m e = some a := by
  obtain ⟨j, rfl | rfl⟩ := e.eq_nat_or_neg
  · rw [zpow_natCast] at h
    have hmul : m * 2 ^ j = a := by exact_mod_cast h
    simp [whole?, hmul]
  · rw [zpow_neg, zpow_natCast, ← div_eq_mul_inv, div_eq_iff (by positivity)] at h
    have hmul : m = a * 2 ^ j := by exact_mod_cast h
    cases j with
    | zero => simp [whole?, hmul]
    | succ j =>
      have hneg : ¬(0 : Int) ≤ -(j + 1 : Nat) := by omega
      have hexponent : (- -((j + 1 : Nat) : Int)).toNat = j + 1 := by omega
      rw [whole?, if_neg hneg, hexponent]
      simp [hmul]

theorem wholeParts_of_value? (h : value? f = some (n : ℚ)) : WholeParts f n := by
  unfold value? at h
  cases hf : f.toModel.unpack with
  | notANumber => simp [hf] at h
  | infinity sign => simp [hf] at h
  | zero sign =>
    simp only [hf, Option.some.injEq] at h
    exact .zero sign hf (by exact_mod_cast h.symm)
  | finite sign mantissa exponent hpos =>
    simp only [hf, Option.some.injEq] at h
    have hsize : (mantissa : ℚ) * 2 ^ exponent = n.natAbs := by
      have habs := congrArg abs h
      rw [abs_mul, abs_of_pos (show (0 : ℚ) < 2 ^ exponent by positivity)] at habs
      rw [Nat.cast_natAbs, Int.cast_abs, ← habs]
      cases sign <;> simp [Sign.apply]
    refine .finite hf (whole?_of_mul_pow hsize) ?_
    rw [← @Int.cast_inj ℚ, ← h]
    cases sign <;> simp only [Sign.apply, Int.cast_neg, Int.cast_natCast, neg_mul, hsize]

/-- Whole numbers are equal just if their values, `n` and `k`, are. -/
theorem beq_iff_of_value? (hf : value? f = some (n : ℚ)) (hg : value? g = some (k : ℚ)) :
    (f == g) = true ↔ n = k := by
  have hbeq : (f == g) = f.toModel.unpack.beq g.toModel.unpack := rfl
  rw [hbeq, UnpackedFloat.beq_iff_ne_notANumber_and_eq]
  constructor
  · rintro ⟨-, -, hsame⟩
    have hvalue : value? f = value? g := by
      rcases hsame with h | ⟨h, h'⟩ | ⟨h, h'⟩ <;> simp [value?, *]
    rw [hf, hg, Option.some.injEq] at hvalue
    exact_mod_cast hvalue
  · rintro rfl
    cases wholeParts_of_value? hf with
    | zero sign hf hn =>
      cases wholeParts_of_value? hg with
      | zero sign' hg _ => cases sign <;> cases sign' <;> simp [hf, hg]
      | finite hg hwhole _ =>
        have hpos := pos_of_whole? (canonical_of_unpack hg).pos hwhole
        omega
    | @finite sign mantissa exponent hpos hf hwhole hn =>
      have hnpos := pos_of_whole? hpos hwhole
      cases wholeParts_of_value? hg with
      | zero _ _ hn' => omega
      | @finite sign' mantissa' exponent' hpos' hg hwhole' hn' =>
        have hsign : sign' = sign := by
          cases sign <;> cases sign' <;> simp only [Sign.apply] at hn hn' <;> first | rfl | omega
        -- both are what the value is rounded to
        have hround := (canonical_of_unpack hf).round hwhole sign
        have hround' := (canonical_of_unpack hg).round hwhole' sign
        rw [hf, hg, hsign, ← hround, ← hround']
        simp [hround]

/-! ## Decimal digits -/

/-- Whether the digits `s` are those in which the number `a` is written: they denote it, and the
    first of them is a zero only if it is all there is. -/
structure DecimalDigits (s : List Char) (a : Nat) : Prop where
  digits : Digits s
  denotes : natOfDigits s = a
  leading : s.head? = some '0' → s = ['0']

theorem head?_toDigits {a : Nat} (h : (Nat.toDigits 10 a).head? = some '0') : a = 0 := by
  induction a using Nat.strongRecOn with
  | ind a ih =>
    by_cases hsmall : a < 10
    · rw [Nat.toDigits_of_lt_base hsmall] at h
      interval_cases a <;> simp_all
    · rw [Nat.toDigits_of_base_le (by omega) (by omega),
        List.head?_append_of_ne_nil _ Nat.toDigits_ne_nil] at h
      have := ih (a / 10) (by omega) h
      omega

theorem toDigits_decimal (a : Nat) : DecimalDigits (Nat.toDigits 10 a) a where
  digits := ⟨Nat.toDigits_ne_nil, fun _ => Nat.isDigit_of_mem_toDigits (by omega) (by omega)⟩
  denotes := natOfDigits_toDigits a
  leading h := by rw [head?_toDigits h]; rfl

/-! ## Printing -/

/-- The whole number `n` in decimal digits, with a minus sign if it is negative. -/
def decimal (n : ℤ) : List Char :=
  (if n < 0 then ['-'] else []) ++ Nat.toDigits 10 n.natAbs

/-- The text that `decimal` gives of a number tells which it is. -/
theorem decimal_injective : Function.Injective decimal := by
  have hminus {n : ℤ} (h : '-' ∈ Nat.toDigits 10 n.natAbs) : False :=
    absurd (Nat.isDigit_of_mem_toDigits (by omega) (by omega) h) (by decide)
  have hsize {n k : ℤ} (h : Nat.toDigits 10 n.natAbs = Nat.toDigits 10 k.natAbs) :
      n.natAbs = k.natAbs := by
    rw [← natOfDigits_toDigits n.natAbs, h, natOfDigits_toDigits]
  intro n k h
  unfold decimal at h
  split at h <;> split at h
  · have := hsize (List.append_cancel_left h)
    omega
  · exact (hminus (n := k) (by rw [List.nil_append] at h; rw [← h]; simp)).elim
  · exact (hminus (n := n) (by rw [List.nil_append] at h; rw [h]; simp)).elim
  · have := hsize (List.append_cancel_left h)
    omega

theorem wholePart_of_whole? (h : whole? m e = some a) : wholePart m e = a := by
  unfold whole? at h
  unfold wholePart
  split at h
  · rename_i he
    rw [if_pos he]
    exact Option.some.inj h
  · rename_i he
    rw [if_neg he]
    exact Option.some.inj (Option.ite_none_right_eq_some.1 h).2

/-- The largest numbers have 309 digits. -/
theorem length_toDigits_of_whole? {model : Float.Model} {sign : Sign} {hpos : 0 < m}
    (hf : model.unpack = .finite sign m e hpos) (h : whole? m e = some a) :
    (Nat.toDigits 10 a).length ≤ 309 := by
  obtain ⟨hmantissa, hexponent⟩ := lt_of_unpack_eq_finite hf
  have hlt := wholePart_lt (k := 971) hmantissa hexponent
  rw [wholePart_of_whole? h] at hlt
  rw [Nat.length_toDigits_le_iff (by omega) (by omega)]
  exact Nat.lt_trans hlt (by decide +kernel)

/-- A whole number is `printed?` as its value `n` in decimal digits. -/
theorem printed?_of_value? (h : value? f = some (n : ℚ)) :
    printed? f = some (String.ofList (decimal n)) ∧ (Nat.toDigits 10 n.natAbs).length ≤ 309 := by
  cases wholeParts_of_value? h with
  | zero sign hf hn =>
    subst hn
    have hwhole : isWhole f = true := by rw [isWhole, hf]
    rw [printed?, if_pos hwhole, wholeText?, hf]
    exact ⟨rfl, by decide⟩
  | @finite sign mantissa exponent hpos hf hwhole hn =>
    have hlength := length_toDigits_of_whole? hf hwhole
    have hnpos := pos_of_whole? hpos hwhole
    have hprinted : isWhole f = true := by
      rw [isWhole, hf]
      simp only [hwhole, Option.isSome_some]
    have hsigned : signed sign (Nat.toDigits 10 n.natAbs) = String.ofList (decimal n) := by
      cases sign <;> simp only [Sign.apply] at hn
      · rw [signed, decimal, if_pos (by omega), List.singleton_append]
      · rw [signed, decimal, if_neg (by omega), List.nil_append]
    refine ⟨?_, hlength⟩
    rw [printed?, if_pos hprinted, wholeText?, hf]
    simp only [wholePart_of_whole? hwhole, integerText?]
    rw [if_pos (Nat.le_trans hlength (by decide)), hsigned]

/-! ## Reading back -/

/-- A whole literal has the value that its `digits` denote. -/
theorem ofLiteral_digits {digits : List Char} (h : Digits digits) :
    ofLiteral digits = Float.ofScientific (natOfDigits digits) true 0 := by
  have hwhole : digits.takeWhile Char.isDigit = digits := List.takeWhile_eq_self_iff.2 h.2
  have hrest : digits.dropWhile Char.isDigit = [] := List.dropWhile_eq_nil_iff.2 h.2
  simp [ofLiteral, hwhole, hrest]

/-- The literal zero is read as the positive one of the two zeros. -/
theorem unpack_zero : (Float.ofScientific 0 true 0).toModel.unpack = .zero .positive := by
  rfl

/-- The literal of a whole number `n` that is not negative is a number equal to `f`. -/
theorem ofLiteral_beq (h : value? f = some (n : ℚ)) (hn : 0 ≤ n) :
    (ofLiteral (Nat.toDigits 10 n.natAbs) == f) = true := by
  rw [ofLiteral_digits (toDigits_decimal _).digits, natOfDigits_toDigits]
  cases wholeParts_of_value? h with
  | zero sign hf hzero =>
    subst hzero
    have hread : value? (Float.ofScientific 0 true 0) = some ((0 : ℤ) : ℚ) := by
      rw [value?, unpack_zero, Int.cast_zero]
    exact (beq_iff_of_value? hread h).2 rfl
  | @finite sign mantissa exponent hpos hf hwhole hsign =>
    have hnpos := pos_of_whole? hpos hwhole
    cases sign with
    | negative =>
      simp only [Sign.apply] at hsign
      omega
    | positive =>
      rw [ofScientific_of_whole? hf hwhole]
      exact (beq_iff_of_value? h h).2 rfl

/-- Whether `digits` are read as the number `x`: by the scan, when they are the whole text and when
    they stand in a source where nothing else belongs to the number, and when they are a line of
    input. -/
structure ReadAs (digits : List Char) (x : Float) : Prop where
  alone : ScansAsNumber digits x
  inside : ∀ {rest : List Char}, EndsNumeral rest → ∀ (done : List Token) (p : Position),
    scanFrom done p (digits ++ rest) =
      scanFrom (⟨.number, String.ofList digits, .num x, p⟩ :: done) (p.after digits) rest
  typed : ∀ (rounds depth : Nat) (p : Position) {m : Machine} {rest : List Char},
    m.input = digits ++ '\n' :: rest →
    ((engine rounds depth).call (.builtin .input) [] p).run m =
      .ok (.num x) { m with output := m.output ++ inputPrompt, input := rest }

/-- The `digits` are read as the number that their literal stands for, as `ofLiteral` gives it. -/
theorem readAs_of_digits {digits : List Char} (h : Digits digits) :
    ReadAs digits (ofLiteral digits) where
  alone := scansAsNumber_iff.2 (parse?_eq_some_iff.2 ⟨.inl h, rfl⟩)
  inside hrest := scanFrom_digits h hrest
  typed rounds depth p m rest hinput := by
    have hline : Text.takeLine m.input = (digits ++ ['\n'], rest) := by
      have hnone : ∀ c ∈ digits, (c != '\n') = true := fun c hc => by
        have hdigit := h.2 c hc
        rw [bne_iff_ne]
        rintro rfl
        cases hdigit
      simp [Text.takeLine, hinput, List.takeWhile_append_of_pos hnone,
        List.dropWhile_append_of_pos hnone]
    have htrim : Text.trim digits = digits :=
      Text.trimWhile_eq_self fun c hc => isBlank_of_isDigit (h.2 c hc)
    have hvalue : inputValue (digits ++ ['\n']) = .num (ofLiteral digits) := by
      rw [inputValue_append_lineFeed, (inputValue_decodes digits).number, htrim]
      exact scansAsNumber_iff.2 (parse?_eq_some_iff.2 ⟨.inl h, rfl⟩)
    have hne : m.input ≠ [] := by simp [hinput]
    rw [call_input, askLine_of_ne_nil hne, hline, hvalue]

/-! ## Whole numbers in writing -/

/-- Whether the number `f` with the whole value `n` is written without a loss: printing it gives the
    `digits` of its value, with a minus sign if it is negative; if it is not, the digits are read as
    a number equal to it; and what is printed tells it from the numbers that do not equal it. -/
structure WrittenExactly (f : Float) (n : ℤ) (digits : List Char) : Prop where
  printed : (Value.num f).printed? =
    some (String.ofList ((if n < 0 then ['-'] else []) ++ digits))
  decimal : DecimalDigits digits n.natAbs
  length : digits.length ≤ 309
  read : 0 ≤ n → ∃ x, (x == f) = true ∧ ReadAs digits x
  apart : ∀ {g : Float} {k : ℤ}, value? g = some (k : ℚ) →
    ((Value.num g).printed? = (Value.num f).printed? ↔ (g == f) = true)

/-- Every finite number with a whole value `n` is `WrittenExactly`. -/
theorem exists_writtenExactly {f : Float} {n : ℤ} (h : value? f = some (n : ℚ)) :
    ∃ digits, WrittenExactly f n digits := by
  obtain ⟨hprinted, hlength⟩ := printed?_of_value? h
  have hdecimal := toDigits_decimal n.natAbs
  refine ⟨_, hprinted, hdecimal, hlength, fun hn => ?_, fun {g k} hg => ?_⟩
  · exact ⟨_, ofLiteral_beq h hn, readAs_of_digits hdecimal.digits⟩
  · show printed? g = printed? f ↔ (g == f) = true
    rw [(printed?_of_value? hg).1, hprinted, Option.some.injEq, String.ofList_inj,
      decimal_injective.eq_iff, beq_iff_of_value? hg h]

/-- The largest of all numbers has a whole value. -/
theorem exists_writtenExactly_of_greatest :
    let n : ℤ := (2 ^ 53 - 1) * 2 ^ 971
    value? (Float.ofBits 0x7FEFFFFFFFFFFFFF) = some (n : ℚ) ∧
      ∃ digits, WrittenExactly (Float.ofBits 0x7FEFFFFFFFFFFFFF) n digits := by
  intro n
  have hparts : (Float.ofBits 0x7FEFFFFFFFFFFFFF).toModel.unpack =
      .finite .positive 9007199254740991 971 (by decide) := by rfl
  have hvalue : value? (Float.ofBits 0x7FEFFFFFFFFFFFFF) = some (n : ℚ) := by
    rw [value?, hparts]
    norm_num [Sign.apply, n]
  exact ⟨hvalue, exists_writtenExactly hvalue⟩

/-- Two to the power of 70 is printed with all its digits. -/
example : printed? (Float.ofBits 0x4450000000000000) = some "1180591620717411303424" := by
  rfl

end Scripting.Number
