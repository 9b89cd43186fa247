import Mathlib.Data.List.Basic
import QuorumChain.Data.Octets

/-!
# The octets of a text

A text in UTF-8 is the writings of its characters, one behind the other, and can be read back.  A
character below 128 is written as one octet, its number; the octets of all others are 128 or more,
so nothing that is looked for among the former is found in the latter.
-/

namespace QuorumChain.Octets

theorem toList_loop
    (bytes : ByteArray) (i : ℕ) (read : List UInt8) :
    ByteArray.toList.loop bytes i read = read.reverse ++ bytes.data.toList.drop i := by
  fun_induction ByteArray.toList.loop bytes i read with
  | case1 i read hi ih =>
      have hlength : i < bytes.data.toList.length := by simpa using hi
      rw [ih, List.drop_eq_getElem_cons hlength]
      simp [ByteArray.get!, hi]
  | case2 i read hi =>
      rw [List.drop_eq_nil_of_le (by simpa using Nat.le_of_not_lt hi), List.append_nil]

/-- A text is written character by character. -/
theorem ofText_eq_flatMap (s : String) : ofText s = s.toList.flatMap String.utf8EncodeChar := by
  rw [ofText, String.toUTF8_eq_toByteArray, ByteArray.toList, toList_loop,
    ← String.utf8Encode_toList, List.utf8Encode, List.toList_data_toByteArray]
  rfl

theorem ofText_append (s t : String) : ofText (s ++ t) = ofText s ++ ofText t := by
  rw [ofText_eq_flatMap, ofText_eq_flatMap, ofText_eq_flatMap, String.toList_append,
    List.flatMap_append]

/-- The octets of a text are read as this text. -/
theorem fromUTF8?_ofText (s : String) :
    String.fromUTF8? (ByteArray.mk (ofText s).toArray) = some s := by
  have hbytes : ByteArray.mk (ofText s).toArray = s.toByteArray := by
    rw [ofText, String.toUTF8_eq_toByteArray, ByteArray.toList, toList_loop]
    rfl
  rw [hbytes, String.fromUTF8?, dif_pos s.isValidUTF8]
  rfl

theorem utf8EncodeChar_of_lt
    {c : Char} (hc : c.toNat < 128) : String.utf8EncodeChar c = [UInt8.ofNat c.toNat] := by
  have hlow : c.val.toNat ≤ 127 := Nat.le_of_lt_succ hc
  rw [String.utf8EncodeChar, if_pos hlow]
  rfl

theorem le_of_mem_utf8EncodeChar
    {c : Char} (hc : 128 ≤ c.toNat) {b : UInt8} (hb : b ∈ String.utf8EncodeChar c) :
    128 ≤ b.toNat := by
  have hhigh : ¬c.val.toNat ≤ 127 := Nat.not_le_of_gt hc
  -- the upper bits of every octet are those of a mark, whatever the length of the writing
  have hmarked : ∀ low bits : ℕ, 128 ≤ bits → low + bits < 256 →
      128 ≤ (UInt8.ofNat (low + bits)).toNat := by
    intro low bits hbits hfits
    rw [UInt8.toNat_ofNat_of_lt' hfits]
    omega
  rw [String.utf8EncodeChar, if_neg hhigh] at hb
  split at hb
  · simp only [List.mem_cons, List.not_mem_nil, or_false] at hb
    rcases hb with rfl | rfl
    all_goals exact hmarked _ _ (by omega) (by omega)
  · split at hb
    · simp only [List.mem_cons, List.not_mem_nil, or_false] at hb
      rcases hb with rfl | rfl | rfl
      all_goals exact hmarked _ _ (by omega) (by omega)
    · simp only [List.mem_cons, List.not_mem_nil, or_false] at hb
      rcases hb with rfl | rfl | rfl | rfl
      all_goals exact hmarked _ _ (by omega) (by omega)

/-- The writing of a character beyond the small ones starts with an octet beyond the small ones. -/
theorem exists_utf8EncodeChar_eq_cons
    {c : Char} (hc : 128 ≤ c.toNat) :
    ∃ b others, String.utf8EncodeChar c = b :: others ∧ 128 ≤ b.toNat := by
  have hpos : 0 < (String.utf8EncodeChar c).length := by
    rw [String.length_utf8EncodeChar]
    exact c.utf8Size_pos
  obtain ⟨b, others, hwritten⟩ := List.exists_cons_of_length_pos hpos
  exact ⟨b, others, hwritten, le_of_mem_utf8EncodeChar hc (hwritten ▸ List.mem_cons_self)⟩

end QuorumChain.Octets
