import QuorumChain.Chain.Rules
import QuorumChain.Proofs.Data.Except
import QuorumChain.Proofs.Message.Writing

/-!
# Proposals and headers

A proposal contains a header, so it might be written as another header is.  If it lists no fewer
validators, the lengths leave one possibility: the other header casts a vote, the contained one
does not, and the transactions are written in eight to twelve octets.  But then the subject of the
vote, which also stands in the coinbase, lies partly over the empty coinbase of the contained header
and partly over the transactions; it would make the number of transactions zero, which takes one
octet only.
-/

namespace QuorumChain

open Wire Wire.Format

theorem length_writeGroups_mono
    {k v w : ℕ} (h : v ≤ w) : (writeGroups k v).length ≤ (writeGroups k w).length := by
  induction k generalizing v w with
  | zero => exact Nat.le_refl _
  | succ k ih =>
      simp only [writeGroups]
      by_cases hv : v < 128
      · rw [if_pos hv]
        split <;> simp
      · rw [if_neg hv, if_neg (by omega : ¬w < 128), List.length_cons, List.length_cons]
        exact Nat.succ_le_succ (ih (Nat.div_le_div_right h))

/-- Only zero is written with a leading octet of zero. -/
theorem eq_zero_of_writeCount
    {v : ℕ} {rest : Octets} (h : (writeCount v ++ rest)[0]? = some 0) : v = 0 := by
  rw [writeCount, writeGroups] at h
  split at h
  · rename_i hv
    have hoctet : UInt8.ofNat v = 0 := by simpa using h
    have hnat := congrArg UInt8.toNat hoctet
    rw [UInt8.toNat_ofNat_of_lt' (by omega : v < 256)] at hnat
    exact hnat
  · have hoctet : UInt8.ofNat (v % 128 + 128) = 0 := by simpa using h
    have hnat := congrArg UInt8.toNat hoctet
    rw [UInt8.toNat_ofNat_of_lt' (by omega : v % 128 + 128 < 256)] at hnat
    simp at hnat

theorem getElem?_middle
    {α : Type} {a b c : List α} {i : ℕ} (hi : i < b.length) :
    (a ++ (b ++ c))[a.length + i]? = b[i]? := by
  rw [List.getElem?_append_right (Nat.le_add_right _ _), Nat.add_sub_cancel_left,
    List.getElem?_append_left hi]

/-- The vote is good if it is the one that the extra-data records. -/
theorem Header.checkVote_eq_ok
    {h : Header} {x : ExtraData} : h.checkVote x = .ok () ↔ h.carriedVote = .ok x.vote := by
  rw [checkVote, bind_eq_ok]
  constructor
  · rintro ⟨carried, hcarried, hsame⟩
    split at hsame
    · rename_i heq
      rw [hcarried, heq]
    · exact absurd hsame throw_ne_ok
  · intro hcarried
    exact ⟨x.vote, hcarried, if_pos rfl⟩

/-- The coinbase of a header with a good vote is zero or the subject. -/
theorem Header.vote_of_checkVote
    {h : Header} {x : ExtraData} (hvote : h.checkVote x = .ok ()) :
    (x.vote = none ∧ h.coinbase = .zero) ∨ ∃ kind, x.vote = some ⟨h.coinbase, kind⟩ := by
  have hcarried := checkVote_eq_ok.mp hvote
  rw [carriedVote] at hcarried
  split at hcarried
  · contradiction
  · rename_i kind hkind
    have hsame := Except.ok.inj hcarried
    by_cases hzero : h.coinbase = Address.zero
    · rw [if_pos hzero] at hsame
      exact .inl ⟨hsame.symm, hzero⟩
    · rw [if_neg hzero] at hsame
      exact .inr ⟨kind, hsame.symm⟩

/-! ## Where the fields stand -/

/-- The coinbase stands 48 octets behind the beginning of a header. -/
theorem Header.write_coinbase (h : Header) :
    ∃ before behind, Header.format.write h = before ++ (h.coinbase.octets ++ behind) ∧
      before.length = 48 := by
  refine ⟨h.parent.octets ++
      (Octets.ofNatLE 8 h.number.toNat ++ Octets.ofNatLE 8 h.timestamp.toNat),
    Octets.ofNatLE 8 h.nonce.toNat ++ (h.stateRoot.octets ++ (h.bodyRoot.octets ++
      (writeCount h.extra.length ++ h.extra))), ?_, ?_⟩
  · rw [List.append_assoc, List.append_assoc]
    rfl
  · rw [List.length_append, List.length_append, h.parent.length_eq, Octets.length_ofNatLE,
      Octets.length_ofNatLE]

/-- The subject of a vote stands 26 octets before the end of a header's writing. -/
theorem Header.writing_subject
    {h : Header} {x : ExtraData} {v : Vote} (hx : h.extraData = .ok x) (hv : x.vote = some v) :
    ∃ before behind, h.writing = before ++ (v.subject.octets ++ behind) ∧ behind.length = 6 := by
  have hextra : ∃ before behind,
      ExtraData.format.write x.identity = before ++ (v.subject.octets ++ behind) ∧
        behind.length = 6 := by
    refine ⟨writeCount x.validators.length ++ x.validators.flatMap (fixed 20).write ++ [1],
      VoteKind.format.write v.kind ++ (Octets.ofNatLE 4 0 ++ writeCount 0), ?_, ?_⟩
    · show (writeCount x.validators.length ++ x.validators.flatMap (fixed 20).write) ++
        ((option Vote.format).write x.vote ++ (Octets.ofNatLE 4 0 ++ (writeCount 0 ++ []))) = _
      rw [hv]
      show _ ++ ((1 :: (v.subject.octets ++ VoteKind.format.write v.kind)) ++ _) = _
      simp
    · cases v.kind <;> rfl
  obtain ⟨before, behind, hwrite, hlength⟩ := hextra
  rw [writing_eq hx]
  refine ⟨h.parent.octets ++ (Octets.ofNatLE 8 h.number.toNat ++ (Octets.ofNatLE 8
    h.timestamp.toNat ++ (h.coinbase.octets ++ (Octets.ofNatLE 8 h.nonce.toNat ++
      (h.stateRoot.octets ++ (h.bodyRoot.octets ++
        (writeCount (ExtraData.format.write x.identity).length ++ before))))))),
    behind, ?_, hlength⟩
  show h.parent.octets ++ (Octets.ofNatLE 8 _ ++ (Octets.ofNatLE 8 _ ++ (h.coinbase.octets ++
    (Octets.ofNatLE 8 _ ++ (h.stateRoot.octets ++ (h.bodyRoot.octets ++
      (writeCount _ ++ ExtraData.format.write x.identity))))))) = _
  simp only [List.append_assoc]
  rw [← hwrite]

/-! ## The two writings -/

/-- Extra-data that list no fewer validators are hardly shorter than the identity part of others,
unless they list as many and lack the vote of the others. -/
theorem ExtraData.length_identity_cases
    {x y : ExtraData} (hvalidators : x.validators.length ≤ y.validators.length) :
    (x.validators.length = y.validators.length ∧ x.vote.isSome = true ∧ y.vote = none ∧
      (ExtraData.format.write x.identity).length = (ExtraData.format.write y).length + 21) ∨
    (ExtraData.format.write x.identity).length ≤ (ExtraData.format.write y).length + 1 := by
  have hxlength : (ExtraData.format.write x.identity).length =
      (writeCount x.validators.length).length + 20 * x.validators.length +
        (if x.vote.isSome then 22 else 1) + 4 + 1 + 0 := ExtraData.length_write x.identity
  have hylength := ExtraData.length_write y
  have hcounts : (writeCount x.validators.length).length ≤
      (writeCount y.validators.length).length := length_writeGroups_mono hvalidators
  have hseals := length_writeCount y.seals.length
  by_cases hvote : x.vote.isSome = true ∧ y.vote = none
  · obtain ⟨hxvote, hyvote⟩ := hvote
    rw [if_pos hxvote] at hxlength
    rw [if_neg (by simp [hyvote])] at hylength
    by_cases hlonger : x.validators.length < y.validators.length ∨ 0 < y.seals.length
    · right
      omega
    · left
      obtain ⟨hcount, hnone⟩ : x.validators.length = y.validators.length ∧ y.seals.length = 0 := by
        omega
      have hzero : (writeCount 0).length = 1 := rfl
      rw [hnone, hzero, ← hcount] at hylength
      exact ⟨hcount, hxvote, hyvote, by omega⟩
  · right
    have hle : (if x.vote.isSome = true then 22 else 1) ≤
        (if y.vote.isSome = true then 22 else 1) := by
      cases hxvote : x.vote <;> cases hyvote : y.vote <;> simp_all
    omega

theorem Proposal.length_writing (p : Proposal) :
    (Payload.writing p).length =
      13 + (Header.format.write p.block.header).length +
        (Body.format.write p.block.body).length := by
  rw [Payload.length_writing]
  show 1 + (View.format.write p.view ++
    (Header.format.write p.block.header ++ Body.format.write p.block.body)).length = _
  rw [List.length_append, List.length_append, View.length_write]
  omega

theorem Proposal.writing_pieces
    (p : Proposal) :
    Payload.writing p =
      MessageKind.format.write .proposal ++ (View.format.write p.view ++
        (Header.format.write p.block.header ++ Body.format.write p.block.body)) := rfl

section

variable {p : Proposal} {h : Header} {x y : ExtraData} (hx : h.extraData = .ok x)
  (hy : p.block.header.extraData = .ok y)
  (hvalidators : x.validators.length ≤ y.validators.length) (heq : Payload.writing p = h.writing)

include hx hy hvalidators heq

/-- For the lengths to be equal, the header has to cast a vote that the proposal lacks. -/
theorem Proposal.body_of_writing_eq :
    x.vote.isSome = true ∧ y.vote = none ∧
      8 ≤ (Body.format.write p.block.body).length ∧
        (Body.format.write p.block.body).length ≤ 12 := by
  have hlength := congrArg List.length heq
  rw [Proposal.length_writing, Header.length_write, (ExtraData.decode_eq_ok.mp hy).1,
    Header.writing_eq hx, Header.length_write] at hlength
  dsimp only at hlength
  have hxgroups := length_writeCount (ExtraData.format.write x.identity).length
  have hygroups := length_writeCount (ExtraData.format.write y).length
  rcases ExtraData.length_identity_cases hvalidators with ⟨-, hxvote, hyvote, hlonger⟩ | hshorter
  · have hgroups : (writeCount (ExtraData.format.write y).length).length ≤
        (writeCount (ExtraData.format.write x.identity).length).length :=
      length_writeGroups_mono (by omega)
    exact ⟨hxvote, hyvote, by omega, by omega⟩
  · -- The proposal is longer.
    omega

omit hy hvalidators in
/-- An empty coinbase of the proposal covers the end of the header's. -/
theorem Proposal.coinbase_of_writing_eq
    (hcoinbase : p.block.header.coinbase = .zero) :
    ∀ i < 7, h.coinbase.octets[13 + i]? = some 0 := by
  intro i hi
  obtain ⟨before, behind, hheader, hbefore⟩ :=
    Header.write_coinbase { h with extra := ExtraData.format.write x.identity }
  obtain ⟨before', behind', hblock, hbefore'⟩ := Header.write_coinbase p.block.header
  have hleft : h.writing[before.length + (13 + i)]? = h.coinbase.octets[13 + i]? := by
    rw [Header.writing_eq hx, hheader]
    exact getElem?_middle (by rw [h.coinbase.length_eq]; omega)
  have hsplit : Payload.writing p =
      (MessageKind.format.write .proposal ++ (View.format.write p.view ++ before')) ++
        (p.block.header.coinbase.octets ++ (behind' ++ Body.format.write p.block.body)) := by
    rw [Proposal.writing_pieces, hblock]
    simp only [List.append_assoc]
  have hprefix : (MessageKind.format.write .proposal ++
      (View.format.write p.view ++ before')).length = 61 := by
    rw [List.length_append, List.length_append, Payload.length_write_kind, View.length_write,
      hbefore']
  have hright : (Payload.writing p)[61 + i]? = some 0 := by
    rw [hsplit, ← hprefix, getElem?_middle (by rw [p.block.header.coinbase.length_eq]; omega),
      hcoinbase]
    exact List.getElem?_replicate_of_lt (by omega)
  rw [← hleft, ← heq, hbefore, ← hright]
  congr 1
  omega

/-- Then the subject of the vote makes the number of transactions zero, which begins inside it. -/
theorem Proposal.transactions_of_writing_eq
    {kind : VoteKind} (hxvote : x.vote = some ⟨h.coinbase, kind⟩)
    (hcoinbase : p.block.header.coinbase = .zero) : p.block.body.transactions = [] := by
  obtain ⟨-, -, hshort, hlong⟩ := Proposal.body_of_writing_eq hx hy hvalidators heq
  have hzero := Proposal.coinbase_of_writing_eq hx heq hcoinbase
  obtain ⟨before, behind, hend, hbehind⟩ := Header.writing_subject hx hxvote
  dsimp only at hend
  have hfirst : (Body.format.write p.block.body)[0]? = some 0 := by
    have hsplit : Payload.writing p =
        (MessageKind.format.write .proposal ++ (View.format.write p.view ++
          Header.format.write p.block.header)) ++ (Body.format.write p.block.body ++ []) := by
      rw [Proposal.writing_pieces]
      simp only [List.append_assoc, List.append_nil]
    have hlength := congrArg List.length heq
    rw [hsplit, hend] at hlength
    have hplace : (MessageKind.format.write .proposal ++ (View.format.write p.view ++
        Header.format.write p.block.header)).length + 0 =
          before.length + (13 + (13 - (Body.format.write p.block.body).length)) := by
      simp only [List.length_append, h.coinbase.length_eq, hbehind, List.length_nil] at hlength ⊢
      omega
    have hleft := getElem?_middle (i := 0) (a := MessageKind.format.write .proposal ++
      (View.format.write p.view ++ Header.format.write p.block.header))
        (b := Body.format.write p.block.body) (c := []) (by omega)
    have hright := getElem?_middle (a := before) (b := h.coinbase.octets) (c := behind)
      (i := 13 + (13 - (Body.format.write p.block.body).length))
        (by rw [h.coinbase.length_eq]; omega)
    rw [← hleft, hplace, ← hsplit, heq, hend, hright]
    exact hzero _ (by omega)
  exact List.eq_nil_of_length_eq_zero (eq_zero_of_writeCount hfirst)

end

/-- A proposal is not written as a header that lists no more validators, if the votes of both are
good. -/
theorem Proposal.writing_ne_header
    {p : Proposal} {h : Header} {x y : ExtraData}
    (hx : h.extraData = .ok x) (hvote : h.checkVote x = .ok ())
    (hy : p.block.header.extraData = .ok y) (hblockVote : p.block.header.checkVote y = .ok ())
    (hvalidators : x.validators.length ≤ y.validators.length) :
    Payload.writing p ≠ h.writing := by
  intro heq
  obtain ⟨hxvote, hyvote, hshort, -⟩ :=
    Proposal.body_of_writing_eq hx hy hvalidators heq
  rcases Header.vote_of_checkVote hblockVote with ⟨-, hcoinbase⟩ | ⟨kind, hkind⟩
  · rcases Header.vote_of_checkVote hvote with ⟨hnone, -⟩ | ⟨kind, hkind⟩
    · rw [hnone] at hxvote
      contradiction
    · have hempty := Proposal.transactions_of_writing_eq hx hy hvalidators heq hkind hcoinbase
      have hone : (Body.format.write p.block.body).length = 1 := by
        show (writeCount p.block.body.transactions.length ++
          p.block.body.transactions.flatMap octets.write).length = 1
        rw [hempty]
        rfl
      omega
  · rw [hyvote] at hkind
    contradiction

end QuorumChain
