import Mathlib.Data.List.TakeWhile

/-! Bytes that are text in UTF-8. A byte below 128 is a character of its own and a longer
character holds none, so cutting a text before or after such a byte leaves text. -/
namespace Utf8

def Text (bytes : List UInt8) : Prop := ∃ chars : List Char, bytes = chars.flatMap String.utf8EncodeChar

def Ascii (bytes : List UInt8) : Prop := ∀ b ∈ bytes, b < 128

variable {b : UInt8} {bytes rest : List UInt8} {keep : UInt8 → Bool}

theorem orHigh {b mark : UInt8} (high : 128 ≤ mark) : 128 ≤ b ||| mark := by
  rw [UInt8.le_iff_toNat_le] at high ⊢
  rw [UInt8.toNat_or]
  exact Nat.le_trans high Nat.right_le_or

theorem encodeChar (c : Char) :
    (∃ b < 128, String.utf8EncodeChar c = [b]) ∨ ∀ b ∈ String.utf8EncodeChar c, 128 ≤ b := by
  rcases c.utf8Size_eq with one | two | three | four
  · have small : c.val.toNat ≤ 127 := Char.utf8Size_eq_one_iff.mp one
    refine .inl ⟨c.val.toUInt8,?_,String.utf8EncodeChar_eq_singleton one⟩
    rw [UInt8.lt_iff_toNat_lt,UInt32.toNat_toUInt8,Nat.mod_eq_of_lt (by omega)]
    exact Nat.lt_succ_of_le small
  · right
    rw [String.utf8EncodeChar_eq_cons_cons two]
    simp [orHigh]
  · right
    rw [String.utf8EncodeChar_eq_cons_cons_cons three]
    simp [orHigh]
  · right
    rw [String.utf8EncodeChar_eq_cons_cons_cons_cons four]
    simp [orHigh]

theorem textOf (s : String) : Text s.toUTF8.data.toList := by
  refine ⟨s.toList,?_⟩
  have same : s.toList.utf8Encode = s.toByteArray := String.utf8Encode_toList
  rw [String.toUTF8_eq_toByteArray,← same,List.utf8Encode,List.toList_data_toByteArray]

theorem textTail (h : Text (b :: rest)) (small : b < 128) : Text rest := by
  obtain ⟨chars,same⟩ := h
  cases chars with
  | nil => cases same
  | cons c chars =>
    rw [List.flatMap_cons] at same
    rcases encodeChar c with ⟨b',-,one⟩ | high
    · rw [one] at same
      exact ⟨chars,(List.cons.inj same).2⟩
    · cases found : String.utf8EncodeChar c with
      | nil => exact absurd found String.utf8EncodeChar_ne_nil
      | cons b' more =>
        rw [found] at same high
        cases same
        exact absurd (high b List.mem_cons_self) (UInt8.not_le.mpr small)

theorem textAfter (small : Ascii bytes) (h : Text (bytes ++ rest)) : Text rest := by
  induction bytes with
  | nil => exact h
  | cons b bytes ih =>
    exact ih (fun x mem => small x (.tail _ mem)) (textTail h (small b List.mem_cons_self))

/- A scan that stops at single-byte characters only. -/
theorem textSpan (high : ∀ b, 128 ≤ b → keep b = true) (h : Text bytes) :
    Text (bytes.takeWhile keep) ∧ Text (bytes.dropWhile keep) := by
  obtain ⟨chars,rfl⟩ := h
  induction chars with
  | nil => exact ⟨⟨[],rfl⟩,⟨[],rfl⟩⟩
  | cons c chars ih =>
    obtain ⟨⟨before,taken⟩,dropped⟩ := ih
    by_cases all : ∀ b ∈ String.utf8EncodeChar c, keep b = true
    · rw [List.flatMap_cons,List.takeWhile_append_of_pos all,List.dropWhile_append_of_pos all]
      exact ⟨⟨c :: before,by rw [taken,List.flatMap_cons]⟩,dropped⟩
    · rcases encodeChar c with ⟨b,-,one⟩ | highs
      · have stops : keep b = false := by
          by_contra keeps
          exact all (fun x mem => by rw [one,List.mem_singleton] at mem; simpa [mem] using keeps)
        rw [List.flatMap_cons,one,List.singleton_append,List.takeWhile_cons_of_neg (by simp [stops]),
          List.dropWhile_cons_of_neg (by simp [stops])]
        exact ⟨⟨[],rfl⟩,⟨c :: chars,by rw [List.flatMap_cons,one,List.singleton_append]⟩⟩
      · exact absurd (fun b mem => high b (highs b mem)) all

theorem decodes (chars : List Char) :
    String.fromUTF8? ⟨(chars.flatMap String.utf8EncodeChar).toArray⟩ = some (String.ofList chars) := by
  have same : (⟨(chars.flatMap String.utf8EncodeChar).toArray⟩ : ByteArray) = chars.utf8Encode := by
    rw [List.utf8Encode]
    exact ByteArray.ext (by rw [List.data_toByteArray])
  rw [same,String.fromUTF8?,dif_pos ByteArray.isValidUTF8_utf8Encode]
  rfl

theorem textDecodes (h : Text bytes) :
    ∃ s, String.fromUTF8? ⟨bytes.toArray⟩ = some s ∧ s.toUTF8.data.toList = bytes := by
  obtain ⟨chars,rfl⟩ := h
  refine ⟨String.ofList chars,decodes chars,?_⟩
  simp [String.toUTF8,List.utf8Encode]

/- A byte below 128 as the character it is. -/
theorem asciiEncoded (small : b < 128) : String.utf8EncodeChar (Char.ofNat b.toNat) = [b] := by
  have bound : b.toNat < 128 := UInt8.lt_iff_toNat_lt.mp small
  have value : (Char.ofNat b.toNat).val.toNat = b.toNat := by
    rw [Char.ofNat,dif_pos (.inl (by omega))]
    rfl
  rw [String.utf8EncodeChar_eq_singleton (Char.utf8Size_eq_one_iff.mpr ?_)]
  · rw [List.cons.injEq]
    refine ⟨UInt8.toNat.inj ?_,rfl⟩
    rw [UInt32.toNat_toUInt8,value,Nat.mod_eq_of_lt (by omega)]
  · rw [UInt32.le_iff_toNat_le,value]
    exact Nat.le_of_lt_succ bound

theorem asciiText (small : Ascii bytes) :
    (bytes.map (fun b => Char.ofNat b.toNat)).flatMap String.utf8EncodeChar = bytes := by
  induction bytes with
  | nil => rfl
  | cons b bytes ih =>
    rw [List.map_cons,List.flatMap_cons,asciiEncoded (small b List.mem_cons_self),
      ih (fun x mem => small x (.tail _ mem)),List.singleton_append]

theorem asciiDecodes (small : Ascii bytes) :
    String.fromUTF8? ⟨bytes.toArray⟩ = some (String.ofList (bytes.map (fun b => Char.ofNat b.toNat))) := by
  have found := decodes (bytes.map (fun b => Char.ofNat b.toNat))
  rwa [asciiText small] at found

end Utf8
