import QuorumChain.Chain.Creation
import QuorumChain.Proofs.Wire.Lawful

/-!
# The identity of a block

The digest of a header is the hash of one writing: the header with the identity part of its
extra-data.  Rewriting the round or the seals changes the extra-data but not its identity part, so
it keeps the digest.  The headers that a proposer stamps list the committee.
-/

namespace QuorumChain

open Wire Wire.Format

/-! ## The formats of headers and extra-data -/

theorem VoteKind.format_lawful : VoteKind.format.Lawful :=
  enumeration_lawful (fun a => by cases a <;> decide) (by decide) (by decide)

theorem Vote.format_lawful : Vote.format.Lawful :=
  via_lawful (pair_lawful (fixed_lawful 20) VoteKind.format_lawful) (fun _ => rfl) (fun _ => rfl)

theorem ExtraData.format_lawful : ExtraData.format.Lawful :=
  via_lawful
    (pair_lawful (list_lawful (fixed_lawful 20)) <|
      pair_lawful (option_lawful Vote.format_lawful) <|
        pair_lawful u32_lawful (list_lawful (fixed_lawful 64)))
    (fun _ => rfl) (fun _ => rfl)

theorem Header.format_lawful : Header.format.Lawful :=
  via_lawful
    (pair_lawful (fixed_lawful 32) <| pair_lawful u64_lawful <| pair_lawful u64_lawful <|
      pair_lawful (fixed_lawful 20) <| pair_lawful u64_lawful <| pair_lawful (fixed_lawful 32) <|
        pair_lawful (fixed_lawful 32) octets_lawful)
    (fun _ => rfl) (fun _ => rfl)

/-! ## Reading extra-data -/

theorem firstRepeat?_eq_none
    {α : Type} [DecidableEq α] {known items : List α} :
    firstRepeat? known items = none ↔ items.Nodup ∧ ∀ a ∈ items, a ∉ known := by
  induction items generalizing known with
  | nil => simp [firstRepeat?]
  | cons a rest ih =>
      rw [firstRepeat?]
      split
      · rename_i ha
        simp [ha]
      · rename_i ha
        rw [ih, List.nodup_cons]
        constructor
        · rintro ⟨hrest, hfresh⟩
          refine ⟨⟨fun hmem => hfresh a hmem List.mem_cons_self, hrest⟩, ?_⟩
          intro b hb
          rcases List.mem_cons.mp hb with rfl | hb
          · exact ha
          · exact fun hknown => hfresh b hb (List.mem_cons_of_mem a hknown)
        · rintro ⟨⟨hnot, hrest⟩, hfresh⟩
          refine ⟨hrest, ?_⟩
          intro b hb hknown
          rcases List.mem_cons.mp hknown with rfl | hknown
          · exact hnot hb
          · exact hfresh b (List.mem_cons_of_mem a hb) hknown

namespace ExtraData

theorem encode_eq_ok
    {x : ExtraData} {bytes : Octets} :
    x.encode = .ok bytes ↔ format.excess x = none ∧ bytes = format.write x := by
  rw [encode, mapError_eq_ok, Format.encode_eq_ok]

/-- Octets are read as extra-data exactly if they write it and its validators can stand. -/
theorem decode_eq_ok
    {x : ExtraData} {bytes : Octets} :
    decode bytes = .ok x ↔
      bytes = format.write x ∧ format.excess x = none ∧
        x.validators ≠ [] ∧ x.validators.Nodup := by
  constructor
  · intro h
    simp only [decode, bind_eq_ok, mapError_eq_ok] at h
    obtain ⟨y, hread, h⟩ := h
    split at h
    · contradiction
    · rename_i hlisted
      split at h
      · exact absurd h throw_ne_ok
      · rename_i hrepeat
        obtain rfl := pure_eq_ok.mp h
        obtain ⟨hbytes, hexcess⟩ := format_lawful.write_of_decode hread
        exact ⟨hbytes, hexcess, by simpa using hlisted, (firstRepeat?_eq_none.mp hrepeat).1⟩
  · rintro ⟨rfl, hexcess, hlisted, hnodup⟩
    have hrepeat : firstRepeat? [] x.validators = none :=
      firstRepeat?_eq_none.mpr ⟨hnodup, by simp⟩
    have hempty : x.validators.isEmpty = false := by simpa using hlisted
    simp [decode, format_lawful.decode_write hexcess, mapError_ok, bind, Except.bind, hempty,
      hrepeat, pure, Except.pure]

theorem decode_encode
    {x : ExtraData} {bytes : Octets}
    (h : x.encode = .ok bytes) (hlisted : x.validators ≠ []) (hnodup : x.validators.Nodup) :
    decode bytes = .ok x := by
  obtain ⟨hexcess, hbytes⟩ := encode_eq_ok.mp h
  exact decode_eq_ok.mpr ⟨hbytes, hexcess, hlisted, hnodup⟩

/-- Extra-data can be written if its validators and its seals are not too many. -/
theorem excess_eq_none
    {x : ExtraData} :
    format.excess x = none ↔
      x.validators.length ≤ maxLength ∧ x.seals.length ≤ maxLength := by
  have hvote : (option Vote.format).excess x.vote = none := by
    cases x.vote <;> rfl
  have hround : u32.excess x.round = none := rfl
  have hfixed : ∀ n, ∀ l : List (Fixed n),
      (list (fixed n)).excess l = none ↔ l.length ≤ maxLength := by
    intro n l
    rw [list_excess_eq_none]
    exact ⟨fun h => h.1, fun h => ⟨h, fun _ _ => rfl⟩⟩
  show (pair _ _).excess _ = none ↔ _
  rw [pair_excess_eq_none, pair_excess_eq_none, pair_excess_eq_none, hfixed, hfixed]
  simp [hvote, hround]

end ExtraData

namespace Header

/-! ## The writing behind a digest -/

/-- The octets that are hashed for the digest of a header; none if the extra-data cannot be
read. -/
def writing (h : Header) : Octets :=
  match h.extraData with
  | .ok x => format.write { h with extra := ExtraData.format.write x.identity }
  | .error _ => []

theorem writing_eq
    {h : Header} {x : ExtraData} (hx : h.extraData = .ok x) :
    h.writing = format.write { h with extra := ExtraData.format.write x.identity } := by
  rw [writing, hx]

/-- A header has a digest only if its extra-data can be read; the digest is then the hash of its
writing. -/
theorem digest_eq_ok
    {H : HashFunction} {h : Header} {d : Digest} (hd : h.digest H = .ok d) :
    (∃ x, h.extraData = .ok x) ∧ d = H h.writing := by
  simp only [digest, bind_eq_ok, mapError_eq_ok, digestWith, HashFunction.ofValue, map_eq_ok]
    at hd
  obtain ⟨x, hx, bytes, hidentity, octets, hoctets, rfl⟩ := hd
  refine ⟨⟨x, hx⟩, ?_⟩
  obtain ⟨-, rfl⟩ := ExtraData.encode_eq_ok.mp hidentity
  obtain ⟨-, rfl⟩ := Format.encode_eq_ok.mp hoctets
  rw [writing_eq hx]

theorem excess_eq_none
    {h : Header} : Header.format.excess h = none ↔ h.extra.length ≤ maxLength := by
  show (if h.extra.length ≤ maxLength then none else some h.extra.length) = none ↔ _
  simp

/-- Headers whose digests are taken over one writing differ in nothing but the round and the
seals. -/
theorem agree_of_writing
    {H : HashFunction} {h g : Header} {d e : Digest} (hd : h.digest H = .ok d)
    (he : g.digest H = .ok e) (hwriting : h.writing = g.writing) :
    ∃ x y, h.extraData = .ok x ∧ g.extraData = .ok y ∧ x.identity = y.identity ∧
      ∀ bytes, { h with extra := bytes } = { g with extra := bytes } := by
  simp only [digest, bind_eq_ok, mapError_eq_ok, digestWith, HashFunction.ofValue, map_eq_ok]
    at hd he
  obtain ⟨x, hx, _, hxbytes, _, hxwriting, -⟩ := hd
  obtain ⟨y, hy, _, hybytes, _, hywriting, -⟩ := he
  obtain ⟨hxidentity, rfl⟩ := ExtraData.encode_eq_ok.mp hxbytes
  obtain ⟨hyidentity, rfl⟩ := ExtraData.encode_eq_ok.mp hybytes
  rw [writing_eq hx, writing_eq hy] at hwriting
  have hsame := format_lawful.write_inj (Format.encode_eq_ok.mp hxwriting).1
    (Format.encode_eq_ok.mp hywriting).1 hwriting
  refine ⟨x, y, hx, hy, ?_, fun bytes => ?_⟩
  · exact ExtraData.format_lawful.write_inj hxidentity hyidentity (congrArg Header.extra hsame)
  · exact congrArg (fun g : Header => { g with extra := bytes }) hsame

/-! ## Rewriting the extra-data -/

theorem extraData_validators
    {h : Header} {x : ExtraData} (hx : h.extraData = .ok x) :
    x.validators ≠ [] ∧ x.validators.Nodup ∧ x.validators.length ≤ maxLength := by
  obtain ⟨-, hexcess, hlisted, hnodup⟩ := ExtraData.decode_eq_ok.mp hx
  exact ⟨hlisted, hnodup, (ExtraData.excess_eq_none.mp hexcess).1⟩

/-- A header has a digest exactly if the identity part of its extra-data can stand in a header. -/
theorem exists_digest_iff
    (H : HashFunction) {h : Header} {x : ExtraData} (hx : h.extraData = .ok x) :
    (∃ d, h.digest H = .ok d) ↔ (ExtraData.format.write x.identity).length ≤ maxLength := by
  have hencode : x.identity.encode = .ok (ExtraData.format.write x.identity) :=
    ExtraData.encode_eq_ok.mpr ⟨ExtraData.excess_eq_none.mpr
      ⟨(extraData_validators hx).2.2, Nat.zero_le _⟩, rfl⟩
  simp only [digest, hx, hencode, bind, Except.bind, mapError_eq_ok, digestWith,
    HashFunction.ofValue, map_eq_ok, Format.encode_eq_ok, excess_eq_none]
  constructor
  · rintro ⟨d, bytes, ⟨hfits, -⟩, -⟩
    exact hfits
  · intro hfits
    exact ⟨_, _, ⟨hfits, rfl⟩, rfl⟩

theorem withExtraData_eq_ok
    {h g : Header} {x : ExtraData} (hg : h.withExtraData x = .ok g) :
    ∃ bytes, x.encode = .ok bytes ∧ g = { h with extra := bytes } := by
  simp only [withExtraData, bind_eq_ok, pure_eq_ok] at hg
  obtain ⟨bytes, he, rfl⟩ := hg
  exact ⟨bytes, he, rfl⟩

theorem extraData_withExtraData
    {h g : Header} {x : ExtraData} (hg : h.withExtraData x = .ok g)
    (hlisted : x.validators ≠ []) (hnodup : x.validators.Nodup) :
    g.extraData = .ok x := by
  obtain ⟨bytes, he, rfl⟩ := withExtraData_eq_ok hg
  exact ExtraData.decode_encode he hlisted hnodup

/-- Extra-data with the same identity part gives the same digest. -/
theorem digest_withExtraData
    (H : HashFunction) {h g : Header} {x y : ExtraData}
    (hx : h.extraData = .ok x) (hg : h.withExtraData y = .ok g)
    (hidentity : y.identity = x.identity) :
    g.digest H = h.digest H := by
  obtain ⟨hlisted, hnodup, -⟩ := extraData_validators hx
  have hvalidators : y.identity.validators = x.identity.validators := by rw [hidentity]
  change y.validators = x.validators at hvalidators
  have hy : g.extraData = .ok y :=
    extraData_withExtraData hg (by rwa [hvalidators]) (by rwa [hvalidators])
  obtain ⟨bytes, -, rfl⟩ := withExtraData_eq_ok hg
  simp only [digest, hx, hy, bind, Except.bind, hidentity]
  rfl

theorem withRound_eq_ok
    {h g : Header} {round : UInt32} (hg : h.withRound round = .ok g) :
    ∃ x bytes, h.extraData = .ok x ∧
      ExtraData.encode { x with round, seals := [] } = .ok bytes ∧
        g = { h with extra := bytes } := by
  rw [withRound, bind_eq_ok] at hg
  obtain ⟨x, hx, hg⟩ := hg
  obtain ⟨bytes, he, rfl⟩ := withExtraData_eq_ok hg
  exact ⟨x, bytes, hx, he, rfl⟩

theorem withSeals_eq_ok
    {h g : Header} {seals : List Signature} (hg : h.withSeals seals = .ok g) :
    ∃ x bytes, h.extraData = .ok x ∧
      ExtraData.encode { x with seals } = .ok bytes ∧ g = { h with extra := bytes } := by
  rw [withSeals, bind_eq_ok] at hg
  obtain ⟨x, hx, hg⟩ := hg
  obtain ⟨bytes, he, rfl⟩ := withExtraData_eq_ok hg
  exact ⟨x, bytes, hx, he, rfl⟩

theorem digest_withRound
    (H : HashFunction) {h g : Header} {round : UInt32} (hg : h.withRound round = .ok g) :
    g.digest H = h.digest H := by
  rw [withRound, bind_eq_ok] at hg
  obtain ⟨x, hx, hg⟩ := hg
  exact digest_withExtraData H hx hg rfl

/-- Headers whose digests are taken over one writing become the same header when they are
proposed in another round. -/
theorem withRound_congr
    {H : HashFunction} {h g : Header} {d e : Digest} (hd : h.digest H = .ok d)
    (he : g.digest H = .ok e) (hwriting : h.writing = g.writing) (round : UInt32) :
    h.withRound round = g.withRound round := by
  obtain ⟨x, y, hx, hy, hidentity, hfields⟩ := agree_of_writing hd he hwriting
  have hrest : ({ x with round, seals := [] } : ExtraData) = { y with round, seals := [] } :=
    congrArg (fun z : ExtraData => { z with round }) hidentity
  simp only [withRound, withExtraData, hx, hy, bind, Except.bind, hrest, hfields]

/-- A block keeps its digest when it is sealed. -/
theorem digest_withSeals
    (H : HashFunction) {h g : Header} {seals : List Signature} (hg : h.withSeals seals = .ok g) :
    g.digest H = h.digest H := by
  rw [withSeals, bind_eq_ok] at hg
  obtain ⟨x, hx, hg⟩ := hg
  exact digest_withExtraData H hx hg rfl

/-- Sealing changes nothing of the extra-data but the seals. -/
theorem extraData_withSeals
    {h g : Header} {seals : List Signature} (hg : h.withSeals seals = .ok g) :
    ∃ x, h.extraData = .ok x ∧ g.extraData = .ok { x with seals } := by
  rw [withSeals, bind_eq_ok] at hg
  obtain ⟨x, hx, hg⟩ := hg
  obtain ⟨hlisted, hnodup, -⟩ := extraData_validators hx
  exact ⟨x, hx, extraData_withExtraData hg hlisted hnodup⟩

/-- A header whose extra-data can be read can be sealed with as many seals as can be written. -/
theorem exists_withSeals
    {h : Header} {x : ExtraData} {seals : List Signature}
    (hx : h.extraData = .ok x) (hseals : seals.length ≤ maxLength) :
    ∃ g, h.withSeals seals = .ok g := by
  have hexcess : ExtraData.format.excess { x with seals } = none :=
    ExtraData.excess_eq_none.mpr ⟨(extraData_validators hx).2.2, hseals⟩
  have he : ({ x with seals } : ExtraData).encode = .ok _ :=
    ExtraData.encode_eq_ok.mpr ⟨hexcess, rfl⟩
  refine ⟨{ h with extra := ExtraData.format.write { x with seals } }, ?_⟩
  simp only [withSeals, hx, bind, Except.bind, withExtraData, he, pure, Except.pure]

/-- A header whose extra-data can be read can be proposed in any round. -/
theorem exists_withRound
    {h : Header} {x : ExtraData} (hx : h.extraData = .ok x) (round : UInt32) :
    ∃ g, h.withRound round = .ok g := by
  have hexcess : ExtraData.format.excess { x with round, seals := [] } = none :=
    ExtraData.excess_eq_none.mpr ⟨(extraData_validators hx).2.2, Nat.zero_le _⟩
  have he : ExtraData.encode { x with round, seals := [] } = .ok _ :=
    ExtraData.encode_eq_ok.mpr ⟨hexcess, rfl⟩
  refine ⟨{ h with extra := ExtraData.format.write { x with round, seals := [] } }, ?_⟩
  simp only [withRound, hx, bind, Except.bind, withExtraData, he, pure, Except.pure]

end Header

/-! ## Stamped blocks -/

/-- The extra-data of a stamped block lists the committee and the vote. -/
theorem Block.extraData_stamp
    {b stamped : Block} {parent : Header} {parentDigest : Digest} {round : UInt32}
    {committee : Committee} {vote : Option Vote}
    (h : b.stamp parent parentDigest round committee vote = .ok stamped) :
    stamped.header.extraData = .ok ⟨committee.members, vote, round, []⟩ := by
  simp only [stamp, bind_eq_ok, pure_eq_ok] at h
  obtain ⟨bytes, he, rfl⟩ := h
  exact ExtraData.decode_encode he committee.nonempty committee.nodup

theorem Block.number_stamp
    {b stamped : Block} {parent : Header} {parentDigest : Digest} {round : UInt32}
    {committee : Committee} {vote : Option Vote}
    (h : b.stamp parent parentDigest round committee vote = .ok stamped) :
    stamped.header.number = parent.number + 1 := by
  simp only [stamp, bind_eq_ok, pure_eq_ok] at h
  obtain ⟨bytes, -, rfl⟩ := h
  cases vote <;> rfl

theorem Block.parent_stamp
    {b stamped : Block} {parent : Header} {parentDigest : Digest} {round : UInt32}
    {committee : Committee} {vote : Option Vote}
    (h : b.stamp parent parentDigest round committee vote = .ok stamped) :
    stamped.header.parent = parentDigest := by
  simp only [stamp, bind_eq_ok, pure_eq_ok] at h
  obtain ⟨bytes, -, rfl⟩ := h
  cases vote <;> rfl

theorem Execution.createBlock_eq_ok
    {e : Execution} {parent : Header} {parentDigest : Digest} {round : UInt32}
    {committee : Committee} {vote : Option Vote} {b : Block} :
    e.createBlock parent parentDigest round committee vote = .ok b ↔
      ∃ candidate, e.build parent = .ok candidate ∧
        candidate.stamp parent parentDigest round committee vote = .ok b := by
  simp only [createBlock, bind_eq_ok, mapError_eq_ok]

theorem Execution.extraData_createBlock
    {e : Execution} {parent : Header} {parentDigest : Digest} {round : UInt32}
    {committee : Committee} {vote : Option Vote} {b : Block}
    (h : e.createBlock parent parentDigest round committee vote = .ok b) :
    b.header.extraData = .ok ⟨committee.members, vote, round, []⟩ := by
  obtain ⟨candidate, -, hstamp⟩ := createBlock_eq_ok.mp h
  exact Block.extraData_stamp hstamp

end QuorumChain
