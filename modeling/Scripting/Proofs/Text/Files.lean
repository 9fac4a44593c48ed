import Scripting.File
import Scripting.Text.Percent

set_option autoImplicit false

/-! # Files by their texts and addresses

A `File` has at most one text: it has none if it may not be read, or if its bytes are no text. Its
address is that of one path only, as `percentDecoded` reads the path back from it. -/

namespace Scripting

/-! ## Texts -/

/-- Whether `file` can be read, and its bytes are the text `source`. -/
def File.HasText (file : File) (source : String) : Prop :=
  ∃ content, file.read = .ok content ∧ textOfBytes content = .ok source

namespace File

variable {file : File} {source source' : String}

theorem HasText.unique (h : file.HasText source) (h' : file.HasText source') :
    source' = source := by
  obtain ⟨content, hread, hdecode⟩ := h
  obtain ⟨content', hread', hdecode'⟩ := h'
  cases hread.symm.trans hread'
  cases hdecode.symm.trans hdecode'
  rfl

theorem not_hasText_of_undecodable {content : ByteArray} {f : Text.Utf8Fault}
    (hread : file.read = .ok content) (hdecode : textOfBytes content = .error f) :
    ¬ file.HasText source := by
  rintro ⟨content', hread', hdecode'⟩
  cases hread.symm.trans hread'
  cases hdecode.symm.trans hdecode'

end File

/-! ## Addresses -/

namespace Text

/-- Whether characters stand for the byte `b` in an address. -/
def standsForByte (b : UInt8) : List Char → Bool
  | [c] => c != '%' && c.toString.toUTF8.toList == [b]
  | [sign, high, low] => sign == '%' && escapedByte? [high, low] == some b
  | _ => false

theorem standsForByte_percentByte (b : UInt8) :
    standsForByte b (percentByte b).toList = true := by
  have hall : ∀ n : Fin 256,
      standsForByte (UInt8.ofFin n) (percentByte (UInt8.ofFin n)).toList = true := by
    decide +kernel
  exact hall b.toFin

/-- The byte `b` is read back from what `percentByte` writes, whatever follows. -/
theorem percentBytes_percentByte_append (b : UInt8) (rest : List Char) :
    percentBytes 0 ((percentByte b).toList ++ rest) = b :: percentBytes 0 rest := by
  have hbyte := standsForByte_percentByte b
  unfold standsForByte at hbyte
  split at hbyte
  · rename_i c hwritten
    simp only [Bool.and_eq_true, bne_iff_ne, ne_eq, beq_iff_eq] at hbyte
    obtain ⟨hsign, hself⟩ := hbyte
    rw [hwritten, List.singleton_append, percentBytes, if_neg hsign]
    simp only [hself, List.singleton_append]
  · rename_i sign high low hwritten
    simp only [Bool.and_eq_true, beq_iff_eq] at hbyte
    obtain ⟨rfl, hescape⟩ := hbyte
    have hescape : escapedByte? (high :: low :: rest) = some b := hescape
    rw [hwritten, List.cons_append, List.cons_append, List.singleton_append, percentBytes,
      if_pos rfl, hescape]
    rfl
  · cases hbyte

theorem percentBytes_flatMap (bytes : List UInt8) :
    percentBytes 0 (bytes.flatMap fun b => (percentByte b).toList) = bytes := by
  induction bytes with
  | nil => rfl
  | cons b rest ih => rw [List.flatMap_cons, percentBytes_percentByte_append, ih]

/-- The bytes from the place `i` on, behind those that are `read`. -/
theorem byteArray_toList_loop (bytes : ByteArray) (i : Nat) (read : List UInt8) :
    ByteArray.toList.loop bytes i read = read.reverse ++ bytes.data.toList.drop i := by
  induction i, read using ByteArray.toList.loop.induct bytes with
  | case1 i read hlt ih =>
    have hi : i < bytes.data.toList.length := by simpa using hlt
    have hget : bytes.get! i = bytes.data.toList[i] := by
      simp only [ByteArray.get!, Array.getElem_toList]
      exact getElem!_pos bytes.data i (by simpa using hlt)
    rw [ByteArray.toList.loop, if_pos hlt, ih, List.drop_eq_getElem_cons hi, hget]
    simp
  | case2 i read hge =>
    have hdone : bytes.data.toList.length ≤ i := by simpa using hge
    rw [ByteArray.toList.loop, if_neg hge, List.drop_eq_nil_of_le hdone, List.append_nil]

theorem byteArray_toList (bytes : ByteArray) : bytes.toList = bytes.data.toList := by
  rw [ByteArray.toList, byteArray_toList_loop]
  simp

/-- A path is read back from what `percentEncoded` makes of it in an address. -/
theorem percentDecoded_percentEncoded (path : String) :
    percentDecoded (percentEncoded path) = path := by
  have hchars : (percentEncoded path).toList =
      path.toUTF8.toList.flatMap fun b => (percentByte b).toList := by
    rw [percentEncoded, String.toList_join, List.flatMap_map]
  have hread : String.fromUTF8? path.toUTF8 = some path := by
    simp [String.fromUTF8?, String.isValidUTF8, String.fromUTF8]
  rw [percentDecoded, hchars, percentBytes_flatMap, byteArray_toList, Array.toArray_toList, hread]
  rfl

theorem percentEncoded_injective : Function.Injective percentEncoded :=
  Function.LeftInverse.injective percentDecoded_percentEncoded

end Text

end Scripting
