import QuorumChain.Data.Identifier
import QuorumChain.Proofs.Data.Except
import QuorumChain.Proofs.Text.Utf8

/-!
# What hexadecimal text spells

A text spells octets if it is their digits, in either case.  Reading a text gives octets exactly if
it spells them, so no character beyond the digits has a say, of however many octets it is made.
-/

namespace QuorumChain.Hex

/-- Whether a character is a digit of either case. -/
def IsDigit (c : Char) : Prop :=
  ('0' ≤ c ∧ c ≤ '9') ∨ ('a' ≤ c ∧ c ≤ 'f') ∨ ('A' ≤ c ∧ c ≤ 'F')

instance (c : Char) : Decidable (IsDigit c) :=
  inferInstanceAs (Decidable (_ ∨ _ ∨ _))

/-- Whether a text is the digits of octets, in either case. -/
def Spells (text : List Char) (bytes : Octets) : Prop :=
  text.map Char.toLower = digits bytes

instance (text : List Char) (bytes : Octets) : Decidable (Spells text bytes) :=
  inferInstanceAs (Decidable (_ = _))

/-- The numbers that the digits of octets stand for. -/
def halves (bytes : Octets) : List ℕ :=
  bytes.flatMap fun b => [b.toNat / 16, b.toNat % 16]

/-- A text without every `0x` at its front. -/
def unmarked : List Char → List Char
  | '0' :: 'x' :: rest => unmarked rest
  | text => text

/-- A text without one `0x` at its front, if it has any. -/
def unmarkedOnce : List Char → List Char
  | '0' :: 'x' :: rest => rest
  | text => text

section Digits

theorem halves_cons (b : UInt8) (rest : Octets) :
    halves (b :: rest) = b.toNat / 16 :: b.toNat % 16 :: halves rest := rfl

/-- Two digits are the halves of the octet that they make. -/
theorem halves_pair
    {high low : ℕ} (hhigh : high < 16) (hlow : low < 16) (rest : Octets) :
    halves (UInt8.ofNat (16 * high + low) :: rest) = high :: low :: halves rest := by
  have hvalue : (UInt8.ofNat (16 * high + low)).toNat = 16 * high + low :=
    UInt8.toNat_ofNat_of_lt' (by simp only [UInt8.size]; omega)
  rw [halves_cons, hvalue, show (16 * high + low) / 16 = high by omega,
    show (16 * high + low) % 16 = low by omega]

theorem digits_eq_map_halves (bytes : Octets) : digits bytes = (halves bytes).map digit := by
  induction bytes with
  | nil => rfl
  | cons b rest ih =>
      rw [digits, ih, halves_cons, List.map_cons, List.map_cons]

theorem lt_of_mem_halves {bytes : Octets} {v : ℕ} (hv : v ∈ halves bytes) : v < 16 := by
  obtain ⟨b, -, hb⟩ := List.mem_flatMap.mp hv
  have hlt := b.toNat_lt
  simp only [List.mem_cons, List.not_mem_nil, or_false] at hb
  omega

theorem length_halves (bytes : Octets) : (halves bytes).length = 2 * bytes.length := by
  induction bytes with
  | nil => rfl
  | cons b rest ih =>
      rw [halves_cons, List.length_cons, List.length_cons, List.length_cons, ih, Nat.mul_add]

/-- Digits in pairs are those of octets. -/
theorem exists_halves_eq
    {n : ℕ} {values : List ℕ}
    (hlength : values.length = 2 * n) (hsmall : ∀ v ∈ values, v < 16) :
    ∃ bytes : Octets, bytes.length = n ∧ halves bytes = values := by
  induction n generalizing values with
  | zero => exact ⟨[], rfl, (List.eq_nil_of_length_eq_zero hlength).symm⟩
  | succ n ih =>
      obtain ⟨high, low, rest, rfl⟩ : ∃ high low rest, values = high :: low :: rest := by
        match values, hlength with
        | [_], h => exact absurd h (by simp; omega)
        | high :: low :: rest, _ => exact ⟨high, low, rest, rfl⟩
      have hrest : rest.length = 2 * n := by simpa [Nat.mul_add] using hlength
      obtain ⟨bytes, hbytes, hhalves⟩ := ih hrest fun v hv => hsmall v (by simp [hv])
      refine ⟨UInt8.ofNat (16 * high + low) :: bytes, by rw [List.length_cons, hbytes], ?_⟩
      rw [halves_pair (hsmall high (by simp)) (hsmall low (by simp)), hhalves]

theorem toLower_digit {v : ℕ} (hv : v < 16) : (digit v).toLower = digit v := by
  decide +revert

/-- The digits of octets spell them. -/
theorem spells_digits (bytes : Octets) : Spells (digits bytes) bytes := by
  rw [Spells, digits_eq_map_halves, List.map_map]
  exact List.map_congr_left fun v hv => toLower_digit (lt_of_mem_halves hv)

end Digits

section Characters

/-- Case makes no difference to a character above all letters. -/
theorem toLower_of_le {c : Char} (hc : 128 ≤ c.toNat) : c.toLower = c := by
  refine dif_neg ?_
  rintro ⟨-, hupper⟩
  have hle : c.toNat ≤ 90 := hupper
  omega

theorem digit_lt {v : ℕ} (hv : v < 16) : (digit v).toNat < 128 := by
  decide +revert

theorem digitValue?_lt {b : UInt8} {v : ℕ} (hb : digitValue? b = some v) : v < 16 := by
  simp only [digitValue?] at hb
  grind

theorem digitValue?_of_le {b : UInt8} (hb : 128 ≤ b.toNat) : digitValue? b = none := by
  simp only [digitValue?]
  grind

/-- One octet of text is read as a digit exactly if its character is this digit in either case. -/
theorem digitValue?_eq_some_iff :
    ∀ k < 128, ∀ v < 16,
      digitValue? (UInt8.ofNat k) = some v ↔ (Char.ofNat k).toLower = digit v := by
  decide +kernel

theorem isDigit_ofNat_iff :
    ∀ k < 128, IsDigit (Char.ofNat k) ↔ ∃ v < 16, (Char.ofNat k).toLower = digit v := by
  decide +kernel

theorem isDigit_iff (c : Char) : IsDigit c ↔ ∃ v < 16, c.toLower = digit v := by
  by_cases hc : c.toNat < 128
  · simpa only [Char.ofNat_toNat] using isDigit_ofNat_iff c.toNat hc
  · constructor
    · rintro (⟨-, hle⟩ | ⟨-, hle⟩ | ⟨-, hle⟩)
      all_goals exact absurd (Nat.lt_of_le_of_lt (Char.le_def.mp hle) (by decide)) hc
    · rintro ⟨v, hv, hlower⟩
      rw [toLower_of_le (Nat.le_of_not_lt hc)] at hlower
      exact absurd (hlower ▸ digit_lt hv) hc

theorem forall_isDigit_iff
    {text : List Char} :
    (∀ c ∈ text, IsDigit c) ↔
      ∃ values : List ℕ, (∀ v ∈ values, v < 16) ∧ text.map Char.toLower = values.map digit := by
  constructor
  · intro hdigits
    induction text with
    | nil => exact ⟨[], by simp, rfl⟩
    | cons c rest ih =>
        rw [List.forall_mem_cons] at hdigits
        obtain ⟨v, hv, hlower⟩ := (isDigit_iff c).mp hdigits.1
        obtain ⟨values, hsmall, hmap⟩ := ih hdigits.2
        refine ⟨v :: values, List.forall_mem_cons.mpr ⟨hv, hsmall⟩, ?_⟩
        rw [List.map_cons, List.map_cons, hlower, hmap]
  · rintro ⟨values, hsmall, hmap⟩ c hc
    have hlower : c.toLower ∈ values.map digit := hmap ▸ List.mem_map_of_mem hc
    obtain ⟨v, hv, hdigit⟩ := List.mem_map.mp hlower
    exact (isDigit_iff c).mpr ⟨v, hsmall v hv, hdigit.symm⟩

/-- The texts that spell strings of a length are those of twice as many digits. -/
theorem exists_spells_iff
    {n : ℕ} {text : List Char} :
    (∃ a : Fixed n, Spells text a.octets) ↔ text.length = 2 * n ∧ ∀ c ∈ text, IsDigit c := by
  constructor
  · rintro ⟨a, ha⟩
    rw [Spells, digits_eq_map_halves] at ha
    refine ⟨?_, forall_isDigit_iff.mpr ⟨_, fun v hv => lt_of_mem_halves hv, ha⟩⟩
    rw [← List.length_map Char.toLower, ha, List.length_map, length_halves, a.length_eq]
  · rintro ⟨hlength, hdigits⟩
    obtain ⟨values, hsmall, hmap⟩ := forall_isDigit_iff.mp hdigits
    have hcount : values.length = 2 * n := by
      rw [← List.length_map digit, ← hmap, List.length_map, hlength]
    obtain ⟨bytes, hbytes, rfl⟩ := exists_halves_eq hcount hsmall
    exact ⟨⟨bytes, hbytes⟩, by rw [Spells, hmap, digits_eq_map_halves]⟩

end Characters

section Reading

theorem readDigit_eq_ok
    {position v : ℕ} {b : UInt8} : readDigit position b = .ok v ↔ digitValue? b = some v := by
  unfold readDigit
  cases digitValue? b <;> simp

/-- Pairs of digits are read as the octets whose halves they are. -/
theorem readPairs_eq_ok
    {position : ℕ} {text bytes : Octets} :
    readPairs position text = .ok bytes ↔ text.map digitValue? = (halves bytes).map some := by
  fun_induction readPairs position text generalizing bytes with
  | case1 position =>
      cases bytes <;> simp [halves]
  | case2 position b =>
      cases bytes <;> simp [halves]
  | case3 position high low rest ih =>
      simp only [bind_eq_ok, pure_eq_ok, readDigit_eq_ok, ih]
      constructor
      · rintro ⟨h, hhigh, l, hlow, tail, htail, rfl⟩
        rw [halves_pair (digitValue?_lt hhigh) (digitValue?_lt hlow)]
        simp only [List.map_cons, hhigh, hlow, htail]
      · intro hread
        cases bytes with
        | nil => simp [halves] at hread
        | cons b tail =>
            simp only [halves_cons, List.map_cons, List.cons.injEq] at hread
            obtain ⟨hhigh, hlow, htail⟩ := hread
            refine ⟨_, hhigh, _, hlow, tail, htail, ?_⟩
            rw [Nat.div_add_mod, UInt8.ofNat_toNat]

theorem decodeOctets_eq_ok
    {text bytes : Octets} :
    decodeOctets text = .ok bytes ↔ text.map digitValue? = (halves bytes).map some := by
  unfold decodeOctets
  split
  · next hodd =>
      refine iff_of_false (by simp) fun hread => ?_
      have hlength := congrArg List.length hread
      rw [List.length_map, List.length_map, length_halves] at hlength
      omega
  · exact readPairs_eq_ok

/-- Characters are read as numbers exactly if they are their digits in either case. -/
theorem map_digitValue?_eq_iff
    {text : List Char} {values : List ℕ} (hsmall : ∀ v ∈ values, v < 16) :
    (text.flatMap String.utf8EncodeChar).map digitValue? = values.map some ↔
      text.map Char.toLower = values.map digit := by
  induction text generalizing values with
  | nil => simp
  | cons c rest ih =>
      rw [List.flatMap_cons, List.map_append, List.map_cons]
      by_cases hc : c.toNat < 128
      · rw [Octets.utf8EncodeChar_of_lt hc]
        cases values with
        | nil => simp
        | cons v values =>
            rw [List.forall_mem_cons] at hsmall
            have hfirst := digitValue?_eq_some_iff c.toNat hc v hsmall.1
            rw [Char.ofNat_toNat] at hfirst
            simp only [List.map_cons, List.map_nil, List.cons_append, List.nil_append,
              List.cons.injEq, ← ih hsmall.2, hfirst]
      · -- no octet of such a character is a digit, and the character is none either
        have hle : 128 ≤ c.toNat := Nat.le_of_not_lt hc
        refine iff_of_false (fun hread => ?_) fun hlower => ?_
        · obtain ⟨b, others, hwritten, hb⟩ := Octets.exists_utf8EncodeChar_eq_cons hle
          rw [hwritten, List.map_cons, digitValue?_of_le hb] at hread
          cases values <;> simp at hread
        · cases values with
          | nil => simp at hlower
          | cons v values =>
              rw [List.map_cons, List.cons.injEq, toLower_of_le hle] at hlower
              exact hc (hlower.1 ▸ digit_lt (hsmall v List.mem_cons_self))

/-- A text is read as the octets that it spells. -/
theorem decodeOctets_writing_eq_ok
    {text : List Char} {bytes : Octets} :
    decodeOctets (text.flatMap String.utf8EncodeChar) = .ok bytes ↔ Spells text bytes := by
  rw [decodeOctets_eq_ok, map_digitValue?_eq_iff fun v hv => lt_of_mem_halves hv, Spells,
    digits_eq_map_halves]

end Reading

section Marks

/-- What starts with a small octet is the writing of a text that starts with its character. -/
theorem exists_of_writing_eq_cons
    {text : List Char} {b : UInt8} {others : Octets}
    (hb : b.toNat < 128) (hwriting : text.flatMap String.utf8EncodeChar = b :: others) :
    ∃ rest, text = Char.ofNat b.toNat :: rest ∧ rest.flatMap String.utf8EncodeChar = others := by
  cases text with
  | nil => simp at hwriting
  | cons c rest =>
      rw [List.flatMap_cons] at hwriting
      by_cases hc : c.toNat < 128
      · rw [Octets.utf8EncodeChar_of_lt hc, List.cons_append, List.nil_append, List.cons.injEq]
          at hwriting
        obtain ⟨rfl, hrest⟩ := hwriting
        refine ⟨rest, ?_, hrest⟩
        rw [UInt8.toNat_ofNat_of_lt' (by simp only [UInt8.size]; omega), Char.ofNat_toNat]
      · obtain ⟨d, more, hwritten, hd⟩ :=
          Octets.exists_utf8EncodeChar_eq_cons (Nat.le_of_not_lt hc)
        rw [hwritten, List.cons_append, List.cons.injEq] at hwriting
        exact absurd (hwriting.1 ▸ hd) (Nat.not_le.mpr hb)

theorem exists_of_writing_eq_mark
    {text : List Char} {others : Octets}
    (hwriting : text.flatMap String.utf8EncodeChar = 48 :: 120 :: others) :
    ∃ rest, text = '0' :: 'x' :: rest ∧ rest.flatMap String.utf8EncodeChar = others := by
  obtain ⟨tail, rfl, htail⟩ := exists_of_writing_eq_cons (by decide) hwriting
  obtain ⟨rest, rfl, hrest⟩ := exists_of_writing_eq_cons (by decide) htail
  exact ⟨rest, rfl, hrest⟩

/-- Digits are no marks. -/
theorem unmarked_digits (bytes : Octets) : unmarked (digits bytes) = digits bytes := by
  have hdigit : ∀ v < 16, digit v ≠ 'x' := by decide
  unfold unmarked
  split
  · next rest hmarked =>
      have hx : 'x' ∈ digits bytes := by
        rw [hmarked]
        exact List.mem_cons_of_mem _ List.mem_cons_self
      rw [digits_eq_map_halves] at hx
      obtain ⟨v, hv, hvx⟩ := List.mem_map.mp hx
      exact absurd hvx (hdigit v (lt_of_mem_halves hv))
  · rfl

theorem dropMark_writing (text : List Char) :
    Fixed.dropMark (text.flatMap String.utf8EncodeChar) =
      (unmarkedOnce text).flatMap String.utf8EncodeChar := by
  fun_cases unmarkedOnce text with
  | case1 rest => rfl
  | case2 text hplain =>
      unfold Fixed.dropMark
      split
      · next others hwriting =>
          obtain ⟨rest, htext, -⟩ := exists_of_writing_eq_mark hwriting
          exact absurd htext (hplain rest)
      · rfl

end Marks

end QuorumChain.Hex

namespace QuorumChain.Fixed

variable {n : ℕ}

theorem ofList?_eq_some_iff
    {bytes : Octets} {a : Fixed n} : ofList? bytes = some a ↔ bytes = a.octets := by
  constructor
  · intro h
    unfold ofList? at h
    split at h
    · cases h
      rfl
    · contradiction
  · rintro rfl
    exact ofList?_octets a

/-- A text is read as the string that it spells behind one mark at most. -/
theorem ofText_toOption_eq_some_iff
    {what text : String} {a : Fixed n} :
    (ofText what text).toOption = some a ↔
      Hex.Spells (Hex.unmarkedOnce text.toList) a.octets := by
  rw [ofText, Octets.ofText_eq_flatMap, Hex.dropMark_writing, ← Hex.decodeOctets_writing_eq_ok]
  cases Hex.decodeOctets ((Hex.unmarkedOnce text.toList).flatMap String.utf8EncodeChar) with
  | error cause => simp [Except.toOption]
  | ok bytes =>
      rw [Except.ok.injEq, ← ofList?_eq_some_iff]
      simp only [ofOctets]
      split
      · next b hb => simp [Except.toOption, hb]
      · next hb => simp [Except.toOption, hb]

end QuorumChain.Fixed
