import FieldNotes.Text.Quoted

/-! # Bytes of characters

A character below 128 is one byte, its own code.  Every other character is written in bytes from 128
on, so a byte below 128 never belongs to another character.

* `Text.eq_of_mem_utf8EncodeChar`: whose byte a byte below 128 is.
* `Text.ofBytes?_eq_some_iff`: the bytes of a text give the text back, and no other bytes do.
-/

namespace FieldNotes.Text

theorem utf8EncodeChar_of_lt {c : Char} (h : c.toNat < 128) :
    String.utf8EncodeChar c = [c.toNat.toUInt8] := by
  have hle : c.val.toNat ≤ 0x7f := Nat.le_of_lt_succ h
  simp only [String.utf8EncodeChar, if_pos hle]
  rfl

theorem le_of_mem_utf8EncodeChar {c : Char} (h : 128 ≤ c.toNat) {b : UInt8}
    (hb : b ∈ String.utf8EncodeChar c) : 128 ≤ b.toNat := by
  have hnot : ¬ c.val.toNat ≤ 0x7f := Nat.not_le.2 h
  simp only [String.utf8EncodeChar, if_neg hnot] at hb
  split at hb
  · simp only [List.mem_cons, List.not_mem_nil, or_false] at hb
    rcases hb with rfl | rfl <;> rw [UInt8.toNat_ofNat'] <;> omega
  · split at hb <;> simp only [List.mem_cons, List.not_mem_nil, or_false] at hb
    · rcases hb with rfl | rfl | rfl <;> rw [UInt8.toNat_ofNat'] <;> omega
    · rcases hb with rfl | rfl | rfl | rfl <;> rw [UInt8.toNat_ofNat'] <;> omega

/-- A byte below 128 belongs to the character of this code alone. -/
theorem eq_of_mem_utf8EncodeChar {c d : Char} (hd : d.toNat < 128)
    (h : d.toNat.toUInt8 ∈ String.utf8EncodeChar c) : c = d := by
  have hbyte : d.toNat.toUInt8.toNat = d.toNat := by
    rw [Nat.toUInt8, UInt8.toNat_ofNat']
    omega
  by_cases hc : c.toNat < 128
  · rw [utf8EncodeChar_of_lt hc, List.mem_singleton] at h
    have hcode : c.toNat = d.toNat := by
      have hnat := congrArg UInt8.toNat h
      rw [hbyte, Nat.toUInt8, UInt8.toNat_ofNat'] at hnat
      omega
    exact Char.toNat_inj.1 hcode
  · have hle := le_of_mem_utf8EncodeChar (Nat.not_lt.1 hc) h
    omega

/-- The bytes of a row of characters. -/
def encode (cs : List Char) : List UInt8 :=
  cs.flatMap String.utf8EncodeChar

@[simp] theorem encode_nil : encode [] = [] :=
  rfl

@[simp] theorem encode_cons (c : Char) (cs : List Char) :
    encode (c :: cs) = String.utf8EncodeChar c ++ encode cs :=
  rfl

@[simp] theorem encode_append (cs ds : List Char) : encode (cs ++ ds) = encode cs ++ encode ds :=
  List.flatMap_append

theorem bytes_ofList (cs : List Char) : bytes (String.ofList cs) = encode cs := by
  rw [bytes, String.toList_ofList]
  rfl

theorem toByteArray_bytes (s : String) : (bytes s).toByteArray = s.toByteArray := by
  rw [← String.utf8Encode_toList]
  rfl

/-- The bytes of a text give the text back. -/
theorem ofBytes?_bytes (s : String) : ofBytes? (bytes s) = some s := by
  rw [ofBytes?, toByteArray_bytes, String.fromUTF8?, dif_pos s.isValidUTF8]
  rfl

/-- Bytes give a text only if they are its bytes. -/
theorem ofBytes?_eq_some_iff {bs : List UInt8} {s : String} :
    ofBytes? bs = some s ↔ bs = bytes s := by
  constructor
  · intro h
    rw [ofBytes?, String.fromUTF8?] at h
    split at h
    · cases h
      rw [← List.toByteArray_inj, toByteArray_bytes]
      rfl
    · cases h
  · rintro rfl
    exact ofBytes?_bytes s

end FieldNotes.Text
