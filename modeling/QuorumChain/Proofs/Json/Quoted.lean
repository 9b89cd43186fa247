import QuorumChain.Json.Token
import QuorumChain.Json.Value
import QuorumChain.Proofs.Text.Utf8

/-!
# Quoted texts are read back

A text in quotes is one token, whatever it consists of, and this token stands for the text.  Both
follow from what is written for a single character: the character itself, a backslash with a letter,
or a backslash with the number of the character.
-/

namespace QuorumChain.Json

/-- What is written for a text between its quotes. -/
def inner (s : String) : Octets :=
  s.toList.flatMap fun c => Octets.ofText (escaped c)

/-- The octet of the digit for a number. -/
def digitOctet (v : ℕ) : UInt8 :=
  UInt8.ofNat (Hex.digit v).toNat

/-- The ways to write a character between quotes. -/
inductive Written (c : Char) : Octets → Prop where
  /-- The character stands for itself. -/
  | plain (himmune : ∀ b ∈ String.utf8EncodeChar c, 32 ≤ b ∧ b ≠ 34 ∧ b ≠ 92) :
      Written c (String.utf8EncodeChar c)
  /-- A letter behind a backslash stands for the character. -/
  | letter {b octet : UInt8} (hknown : isEscape b = true) (hread : escaped? b = some octet)
      (hmeant : String.utf8EncodeChar c = [octet]) : Written c [92, b]
  /-- The number of the character stands behind a backslash. -/
  | number (hsmall : c.toNat < 32) :
      Written c [92, 117, 48, 48, digitOctet (c.toNat / 16), digitOctet (c.toNat % 16)]

section Writing

/-- The octets of a character that needs no escape are no marks of a quoted text. -/
theorem immune_of_plain
    {c : Char} (hquote : c ≠ '"') (hslash : c ≠ '\\') (hlow : 32 ≤ c.toNat)
    {b : UInt8} (hb : b ∈ String.utf8EncodeChar c) : 32 ≤ b ∧ b ≠ 34 ∧ b ≠ 92 := by
  by_cases hc : c.toNat < 128
  · rw [Octets.utf8EncodeChar_of_lt hc, List.mem_singleton] at hb
    have hvalue : b.toNat = c.toNat := by
      rw [hb, UInt8.toNat_ofNat_of_lt' (by simp only [UInt8.size]; omega)]
    have hchar : Char.ofNat b.toNat = c := by rw [hvalue, Char.ofNat_toNat]
    refine ⟨?_, ?_, ?_⟩
    · rw [UInt8.le_iff_toNat_le, hvalue]
      exact hlow
    · rintro rfl
      exact hquote hchar.symm
    · rintro rfl
      exact hslash hchar.symm
  · have hhigh := Octets.le_of_mem_utf8EncodeChar (Nat.le_of_not_lt hc) hb
    refine ⟨?_, ?_, ?_⟩
    · rw [UInt8.le_iff_toNat_le]
      exact Nat.le_trans (by decide) hhigh
    · rintro rfl
      exact absurd hhigh (by decide)
    · rintro rfl
      exact absurd hhigh (by decide)

theorem writing_number_of_lt :
    ∀ k < 16, ("\\u000" ++ String.ofList (Nat.toDigits 16 k)).toList.flatMap String.utf8EncodeChar =
      [92, 117, 48, 48, digitOctet (k / 16), digitOctet (k % 16)] := by
  decide +kernel

theorem writing_number_of_le :
    ∀ k < 32, 16 ≤ k →
      ("\\u00" ++ String.ofList (Nat.toDigits 16 k)).toList.flatMap String.utf8EncodeChar =
        [92, 117, 48, 48, digitOctet (k / 16), digitOctet (k % 16)] := by
  decide +kernel

theorem isEscape_of_mem
    {b : UInt8} (hb : b ∈ ([34, 92, 47, 98, 102, 110, 114, 116] : Octets)) : isEscape b = true := by
  have hwriting : Octets.ofText "\"\\/bfnrt" = [34, 92, 47, 98, 102, 110, 114, 116] := by
    rw [Octets.ofText_eq_flatMap]
    decide +kernel
  rw [isEscape, hwriting]
  exact List.contains_iff_mem.mpr hb

/-- Every character is written in one of the three ways. -/
theorem written_escaped (c : Char) : Written c (Octets.ofText (escaped c)) := by
  rw [Octets.ofText_eq_flatMap]
  unfold escaped
  split_ifs with hquote hslash hline hreturn htab hback hfeed hdigit hsmall
  · subst hquote
    exact .letter (isEscape_of_mem (by decide)) (rfl : escaped? 34 = some 34) rfl
  · subst hslash
    exact .letter (isEscape_of_mem (by decide)) (rfl : escaped? 92 = some 92) rfl
  · subst hline
    exact .letter (isEscape_of_mem (by decide)) (rfl : escaped? 110 = some 10) rfl
  · subst hreturn
    exact .letter (isEscape_of_mem (by decide)) (rfl : escaped? 114 = some 13) rfl
  · subst htab
    exact .letter (isEscape_of_mem (by decide)) (rfl : escaped? 116 = some 9) rfl
  · subst hback
    exact .letter (isEscape_of_mem (by decide)) (rfl : escaped? 98 = some 8) rfl
  · subst hfeed
    exact .letter (isEscape_of_mem (by decide)) (rfl : escaped? 102 = some 12) rfl
  · rw [writing_number_of_lt c.toNat hdigit]
    exact .number (by omega)
  · rw [writing_number_of_le c.toNat hsmall (by omega)]
    exact .number hsmall
  · have hself : c.toString.toList.flatMap String.utf8EncodeChar = String.utf8EncodeChar c := by
      simp [Char.toString]
    rw [hself]
    exact .plain fun b hb => immune_of_plain hquote hslash (by omega) hb

theorem ofText_quoted (s : String) : Octets.ofText (quoted s) = 34 :: inner s ++ [34] := by
  have hfold : ∀ (cs : List Char) (done : String),
      (cs.foldl (fun done c => done ++ escaped c) done).toList.flatMap String.utf8EncodeChar =
        done.toList.flatMap String.utf8EncodeChar ++
          cs.flatMap fun c => Octets.ofText (escaped c) := by
    intro cs
    induction cs with
    | nil => intro done; simp
    | cons c rest ih =>
        intro done
        rw [List.foldl_cons, ih, String.toList_append, List.flatMap_append, List.append_assoc,
          List.flatMap_cons, Octets.ofText_eq_flatMap (escaped c)]
  rw [quoted, String.foldl_eq_foldl_toList, Octets.ofText_append, Octets.ofText_append,
    Octets.ofText_eq_flatMap (List.foldl _ _ _), hfold, Octets.ofText_eq_flatMap]
  rfl

end Writing

section Reading

theorem digitValue?_digitOctet : ∀ v < 16, Hex.digitValue? (digitOctet v) = some v := by
  decide +kernel

theorem unit?_number {k : ℕ} (hk : k < 32) :
    unit? [48, 48, digitOctet (k / 16), digitOctet (k % 16)] = some k := by
  have hzero : Hex.digitValue? 48 = some 0 := rfl
  rw [unit?]
  simp only [List.mapM_cons, List.mapM_nil, hzero, digitValue?_digitOctet (k / 16) (by omega),
    digitValue?_digitOctet (k % 16) (by omega)]
  simp
  omega

theorem ne_of_escaped?_eq_some {b octet : UInt8} (h : escaped? b = some octet) : b ≠ 117 := by
  rintro rfl
  have hnone : escaped? 117 = none := by decide
  rw [hnone] at h
  contradiction

theorem unescape?_cons {b : UInt8} (hb : b ≠ 92) (rest : Octets) :
    unescape? (b :: rest) = (unescape? rest).map (b :: ·) := by
  rw [unescape?]
  all_goals simp [hb]

/-- Reading what is written for a character gives its octets. -/
theorem unescape?_written
    {c : Char} {octets : Octets} (hwritten : Written c octets) (rest : Octets) :
    unescape? (octets ++ rest) = (unescape? rest).map (String.utf8EncodeChar c ++ ·) := by
  cases hwritten with
  | plain himmune =>
      generalize String.utf8EncodeChar c = octets at himmune ⊢
      induction octets with
      | nil => simp
      | cons b others ih =>
          rw [List.forall_mem_cons] at himmune
          rw [List.cons_append, unescape?_cons himmune.1.2.2, ih himmune.2, Option.map_map]
          rfl
  | @letter b octet hknown hread hmeant =>
      have hb := ne_of_escaped?_eq_some hread
      rw [hmeant, List.cons_append, List.cons_append, List.nil_append, unescape?]
      · cases unescape? rest <;> simp [hread]
      all_goals simp [hb]
  | number hsmall =>
      have hchar : charOctets c.toNat = String.utf8EncodeChar c := by
        simp [charOctets, Octets.ofText_eq_flatMap]
      simp only [List.cons_append, List.nil_append]
      rw [unescape?, unit?_number hsmall]
      have hlow : c.toNat < 0xD800 := by omega
      cases unescape? rest <;> simp [hlow, hchar]

/-- What is written between the quotes of a text is read as this text. -/
theorem readText?_inner (s : String) : readText? (inner s) = some s := by
  have hread : ∀ cs : List Char,
      unescape? (cs.flatMap fun c => Octets.ofText (escaped c)) =
        some (cs.flatMap String.utf8EncodeChar) := by
    intro cs
    induction cs with
    | nil => rfl
    | cons c rest ih =>
        rw [List.flatMap_cons, unescape?_written (written_escaped c), ih, Option.map_some,
          List.flatMap_cons]
  rw [readText?, inner, hread, Option.bind_some, ← Octets.ofText_eq_flatMap,
    Octets.fromUTF8?_ofText]

end Reading

section Scanning

/-- Whether a text is split into tokens, whatever tokens stand before it. -/
def Scans (text : Octets) (tokens : List Token) : Prop :=
  ∀ before, text.foldlM Scan.step ⟨.between, before⟩ = some ⟨.between, tokens.reverse ++ before⟩

theorem Scans.append
    {first second : Octets} {tokens others : List Token}
    (hfirst : Scans first tokens) (hsecond : Scans second others) :
    Scans (first ++ second) (tokens ++ others) := by
  intro before
  rw [List.foldlM_append, hfirst, Option.bind_eq_bind, Option.bind_some, hsecond,
    List.reverse_append, List.append_assoc]

theorem scans_ofText
    {text : String} {tokens : List Token}
    (h : Scans (text.toList.flatMap String.utf8EncodeChar) tokens) :
    Scans (Octets.ofText text) tokens := by
  rw [Octets.ofText_eq_flatMap]
  exact h

theorem Scans.tokens?_eq {text : Octets} {tokens : List Token} (h : Scans text tokens) :
    tokens? text = some tokens := by
  rw [tokens?, h, Option.bind_some, Scan.finish, List.append_nil, List.reverse_reverse]

theorem scan_written
    {c : Char} {octets : Octets} (hwritten : Written c octets)
    (written : Octets) (before : List Token) :
    octets.foldlM Scan.step ⟨.inside written, before⟩ =
      some ⟨.inside (octets.reverse ++ written), before⟩ := by
  cases hwritten with
  | plain himmune =>
      generalize String.utf8EncodeChar c = octets at himmune ⊢
      induction octets generalizing written with
      | nil => rfl
      | cons b others ih =>
          rw [List.forall_mem_cons] at himmune
          obtain ⟨⟨hlow, hquote, hslash⟩, hothers⟩ := himmune
          have hstep : Scan.step ⟨.inside written, before⟩ b =
              some ⟨.inside (b :: written), before⟩ := by
            simp only [Scan.step, if_neg hquote, if_neg hslash, if_neg (UInt8.not_lt.mpr hlow)]
          rw [List.foldlM_cons, hstep, Option.bind_eq_bind, Option.bind_some, ih _ hothers,
            List.reverse_cons, List.append_assoc]
          rfl
  | @letter b octet hknown hread hmeant =>
      have hb := ne_of_escaped?_eq_some hread
      simp [Scan.step, hb, hknown]
  | number hsmall =>
      have hhigh := digitValue?_digitOctet (c.toNat / 16) (by omega)
      have hlow := digitValue?_digitOctet (c.toNat % 16) (by omega)
      have hzero : Hex.digitValue? 48 = some 0 := rfl
      simp [Scan.step, hhigh, hlow, hzero]

/-- A text in quotes is one token. -/
theorem scans_quoted (s : String) : Scans (Octets.ofText (quoted s)) [.text (inner s)] := by
  have hinside : ∀ (cs : List Char) (written : Octets) (before : List Token),
      (cs.flatMap fun c => Octets.ofText (escaped c)).foldlM Scan.step ⟨.inside written, before⟩ =
        some ⟨.inside ((cs.flatMap fun c => Octets.ofText (escaped c)).reverse ++ written),
          before⟩ := by
    intro cs
    induction cs with
    | nil => intro written before; rfl
    | cons c rest ih =>
        intro written before
        rw [List.flatMap_cons, List.foldlM_append, scan_written (written_escaped c),
          Option.bind_eq_bind, Option.bind_some, ih, List.reverse_append, List.append_assoc]
  intro before
  have hopen : Scan.step ⟨.between, before⟩ 34 = some ⟨.inside [], before⟩ := rfl
  rw [ofText_quoted, List.cons_append, List.foldlM_cons, hopen, Option.bind_eq_bind,
    Option.bind_some, List.foldlM_append, inner, hinside, Option.bind_eq_bind, Option.bind_some]
  simp [Scan.step]

end Scanning

end QuorumChain.Json
