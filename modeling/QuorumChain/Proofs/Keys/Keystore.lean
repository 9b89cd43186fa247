import QuorumChain.Keys.Keystore
import QuorumChain.Proofs.Json.Quoted
import QuorumChain.Proofs.Text.Hex

/-!
# What a keystore gives away

A keystore gives a key exactly if its secret, behind any number of marks, spells a seed and its
address, behind one mark at most, spells the address of the key made from this seed.  Whatever else
is in it is refused, for the secret first.  What is written for a key gives this key again.
-/

namespace QuorumChain

/-- Whether a complaint is about the secret. -/
def KeystoreError.IsInvalidKey : KeystoreError → Prop
  | .notHex _ | .wrongLength _ => True
  | .unreadable | .malformed | .otherAddress _ _ => False

namespace Keystore

variable {s : Keystore} {seed : Ed25519.Seed}

/-- Whether the secret spells a seed. -/
def HoldsSecret (s : Keystore) (seed : Ed25519.Seed) : Prop :=
  Hex.Spells (Hex.unmarked s.secretKey.toList) seed.octets

/-- Whether the address spells one. -/
def NamesAddress (s : Keystore) (a : Address) : Prop :=
  Hex.Spells (Hex.unmarkedOnce s.address.toList) a.octets

section Writing

theorem write_eq (s : Keystore) :
    s.write =
      "\x7b" ++ ("\n  " ++ Json.quoted "address" ++ ": " ++ Json.quoted s.address ++ "," ++
        ("\n  " ++ Json.quoted "secret_key" ++ ": " ++ Json.quoted s.secretKey)) ++ "\n" ++
        "\x7d" := by
  have houter : Json.newline 0 = "\n" := by decide
  have hinner : Json.newline 1 = "\n  " := by decide
  simp only [write, toJson, Json.pretty, Json.layOut, Json.layOutFields, houter, hinner]

/-- The tokens of what is written for a keystore. -/
theorem scans_write (s : Keystore) :
    Json.Scans (Octets.ofText s.write)
      [.openObject, .text (Json.inner "address"), .colon, .text (Json.inner s.address), .comma,
        .text (Json.inner "secret_key"), .colon, .text (Json.inner s.secretKey), .closeObject] := by
  have hline : Json.Scans (Octets.ofText "\n  ") [] := Json.scans_ofText fun _ => rfl
  have hopen : Json.Scans (Octets.ofText "\x7b") [.openObject] := Json.scans_ofText fun _ => rfl
  have hcolon : Json.Scans (Octets.ofText ": ") [.colon] := Json.scans_ofText fun _ => rfl
  have hcomma : Json.Scans (Octets.ofText ",") [.comma] := Json.scans_ofText fun _ => rfl
  have hend : Json.Scans (Octets.ofText "\n") [] := Json.scans_ofText fun _ => rfl
  have hclose : Json.Scans (Octets.ofText "\x7d") [.closeObject] := Json.scans_ofText fun _ => rfl
  have hmember : ∀ name value,
      Json.Scans (Octets.ofText ("\n  " ++ Json.quoted name ++ ": " ++ Json.quoted value))
        [.text (Json.inner name), .colon, .text (Json.inner value)] := by
    intro name value
    rw [Octets.ofText_append, Octets.ofText_append, Octets.ofText_append]
    exact ((hline.append (Json.scans_quoted name)).append hcolon).append (Json.scans_quoted value)
  rw [write_eq]
  simp only [Octets.ofText_append] at hmember ⊢
  exact ((hopen.append (((hmember "address" s.address).append hcomma).append
    (hmember "secret_key" s.secretKey))).append hend).append hclose

/-- A keystore is read from what is written for it. -/
theorem ofOctets_write (s : Keystore) : ofOctets (Octets.ofText s.write) = .ok s := by
  have hraw : Json.Raw.ofOctets? (Octets.ofText s.write) =
      some (.object [(Json.inner "address", .text (Json.inner s.address)),
        (Json.inner "secret_key", .text (Json.inner s.secretKey))]) := by
    rw [Json.Raw.ofOctets?, s.scans_write.tokens?_eq]
    rfl
  have hkeystore : ofRaw? (.object [(Json.inner "address", .text (Json.inner s.address)),
      (Json.inner "secret_key", .text (Json.inner s.secretKey))]) = some s := by
    simp [ofRaw?, member?, Json.Raw.text?, Json.readText?_inner]
  rw [ofOctets, hraw, Option.bind_some, hkeystore]

end Writing

section Loading

theorem dropMarks_writing (text : List Char) :
    dropMarks (text.flatMap String.utf8EncodeChar) =
      (Hex.unmarked text).flatMap String.utf8EncodeChar := by
  fun_induction Hex.unmarked text with
  | case1 rest ih => exact ih
  | case2 text hplain =>
      unfold dropMarks
      split
      · next others hwriting =>
          obtain ⟨rest, htext, -⟩ := Hex.exists_of_writing_eq_mark hwriting
          exact absurd htext (hplain rest)
      · rfl

theorem seed_eq_ok_iff : s.seed = .ok seed ↔ s.HoldsSecret seed := by
  rw [Keystore.seed, Octets.ofText_eq_flatMap, dropMarks_writing, HoldsSecret,
    ← Hex.decodeOctets_writing_eq_ok]
  cases Hex.decodeOctets ((Hex.unmarked s.secretKey.toList).flatMap String.utf8EncodeChar) with
  | error cause => simp
  | ok bytes =>
      rw [Except.ok.injEq, ← Fixed.ofList?_eq_some_iff]
      simp only
      split
      · next b hb => simp [hb]
      · next hb => simp [hb]

theorem isInvalidKey_of_seed_eq_error
    {e : KeystoreError} (h : s.seed = .error e) : e.IsInvalidKey := by
  unfold Keystore.seed at h
  split at h
  · cases h
    trivial
  · split at h
    · contradiction
    · cases h
      trivial

theorem ofText_address_iff
    {a : Address} : (Address.ofText s.address).toOption = some a ↔ s.NamesAddress a :=
  Fixed.ofText_toOption_eq_some_iff

theorem key_eq_ok_iff
    {key : ValidatorKey} :
    s.key = .ok key ↔
      ∃ seed, s.HoldsSecret seed ∧ key = .ofSeed seed ∧ s.NamesAddress key.address := by
  simp only [Keystore.key, bind_eq_ok, seed_eq_ok_iff]
  refine exists_congr fun seed => and_congr_right fun _ => ?_
  split
  · next hnames =>
      rw [pure_eq_ok]
      constructor
      · rintro rfl
        exact ⟨rfl, ofText_address_iff.mp hnames⟩
      · exact fun h => h.1.symm
  · next hnames =>
      refine iff_of_false throw_ne_ok ?_
      rintro ⟨rfl, hnamed⟩
      exact hnames (ofText_address_iff.mpr hnamed)

theorem key_of_not_holdsSecret
    (h : ¬∃ seed, s.HoldsSecret seed) : ∃ e, s.key = .error e ∧ e.IsInvalidKey := by
  cases hseed : s.seed with
  | error e =>
      refine ⟨e, ?_, isInvalidKey_of_seed_eq_error hseed⟩
      rw [Keystore.key, hseed]
      rfl
  | ok seed => exact absurd ⟨seed, seed_eq_ok_iff.mp hseed⟩ h

theorem key_of_not_namesAddress
    (hsecret : s.HoldsSecret seed) (haddress : ¬s.NamesAddress (ValidatorKey.ofSeed seed).address) :
    s.key = .error (.otherAddress s.address (ValidatorKey.ofSeed seed).address) := by
  rw [Keystore.key, seed_eq_ok_iff.mpr hsecret]
  exact if_neg fun h => haddress (ofText_address_iff.mp h)

theorem load_of_ofOctets
    {text : Octets} (h : ofOctets text = .ok s) : load (some text) = s.key := by
  rw [load, h]
  rfl

end Loading

section Own

theorem holdsSecret_ofKey (seed : Ed25519.Seed) :
    (ofKey (.ofSeed seed)).HoldsSecret seed := by
  have hsecret : (ofKey (.ofSeed seed)).secretKey.toList = Hex.digits seed.octets :=
    String.toList_ofList
  rw [HoldsSecret, hsecret, Hex.unmarked_digits]
  exact Hex.spells_digits _

theorem namesAddress_of_eq_text
    {a : Address} (h : s.address = a.text) : s.NamesAddress a := by
  have htext : s.address.toList = '0' :: 'x' :: Hex.digits a.octets := by
    simp [h, Fixed.text, Fixed.hex, Hex.encode]
  rw [NamesAddress, htext]
  exact Hex.spells_digits _

end Own

/-- What is written for a key gives this key, and what is written for a keystore is read as this
keystore, whatever its two texts are.  A file with a keystore gives a key exactly if the secret,
behind every `0x` at its front, is the sixty-four digits of a seed and the address, behind at most
one, is the forty digits of the address of the key made from it.  A secret of another kind is
refused first, as an invalid key; next to a seed, every other address is refused as not being that
of the key. -/
theorem load_exact :
    (∀ seed, load (some (Octets.ofText (ofKey (.ofSeed seed)).write)) = .ok (.ofSeed seed)) ∧
    (∀ s : Keystore, ofOctets (Octets.ofText s.write) = .ok s) ∧
    ∀ (s : Keystore) (text : Octets), ofOctets text = .ok s →
      ((∃ seed, s.HoldsSecret seed) ↔
        (Hex.unmarked s.secretKey.toList).length = 64 ∧
          ∀ c ∈ Hex.unmarked s.secretKey.toList, Hex.IsDigit c) ∧
      ((∃ a, s.NamesAddress a) ↔
        (Hex.unmarkedOnce s.address.toList).length = 40 ∧
          ∀ c ∈ Hex.unmarkedOnce s.address.toList, Hex.IsDigit c) ∧
      (∀ key, load (some text) = .ok key ↔
        ∃ seed, s.HoldsSecret seed ∧ key = .ofSeed seed ∧ s.NamesAddress key.address) ∧
      ((¬∃ seed, s.HoldsSecret seed) → ∃ e, load (some text) = .error e ∧ e.IsInvalidKey) ∧
      ∀ seed, s.HoldsSecret seed → ¬s.NamesAddress (ValidatorKey.ofSeed seed).address →
        load (some text) =
          .error (.otherAddress s.address (ValidatorKey.ofSeed seed).address) := by
  refine ⟨fun seed => ?_, ofOctets_write, fun s text hread => ?_⟩
  · rw [load_of_ofOctets (ofOctets_write _), key_eq_ok_iff]
    exact ⟨seed, holdsSecret_ofKey seed, rfl, namesAddress_of_eq_text rfl⟩
  · rw [load_of_ofOctets hread]
    exact ⟨Hex.exists_spells_iff, Hex.exists_spells_iff, fun _ => key_eq_ok_iff,
      key_of_not_holdsSecret, fun _ => key_of_not_namesAddress⟩

/-- A seed in digits of both cases is found behind two marks.  The address of its key goes with it,
but behind two marks it is no address. -/
theorem load_exact_of_two_marks :
    let seed : Ed25519.Seed := Fixed.replicate 32 0xab
    let secret := String.ofList ("0x0x".toList ++ (List.replicate 32 ['a', 'B']).flatten)
    let address := (ValidatorKey.ofSeed seed).address
    load (some (Octets.ofText (Keystore.mk address.text secret).write)) = .ok (.ofSeed seed) ∧
    load (some (Octets.ofText (Keystore.mk ("0x" ++ address.text) secret).write)) =
      .error (.otherAddress ("0x" ++ address.text) address) := by
  intro seed secret address
  have hspells : Hex.Spells (Hex.unmarked secret.toList) seed.octets := by
    simp only [secret, seed]
    decide +kernel
  have hsecret : ∀ text, (Keystore.mk text secret).HoldsSecret seed := fun _ => hspells
  constructor
  · refine ((load_exact.2.2 _ _ (ofOctets_write _)).2.2.1 _).mpr ⟨seed, hsecret _, rfl, ?_⟩
    exact namesAddress_of_eq_text rfl
  · refine (load_exact.2.2 _ _ (ofOctets_write _)).2.2.2.2 seed (hsecret _) fun hnames => ?_
    have hlength := (Hex.exists_spells_iff.mp ⟨address, hnames⟩).1
    have htext : ("0x" ++ address.text).toList =
        '0' :: 'x' :: '0' :: 'x' :: Hex.digits address.octets := by
      simp [Fixed.text, Fixed.hex, Hex.encode]
    rw [htext, Hex.digits_eq_map_halves] at hlength
    simp [Hex.unmarkedOnce, Hex.length_halves, address.length_eq] at hlength

end Keystore

end QuorumChain
