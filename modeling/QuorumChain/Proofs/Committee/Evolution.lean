import QuorumChain.Committee.Election
import QuorumChain.Proofs.Chain.Attribution
import QuorumChain.Proofs.Committee.History
import QuorumChain.Proofs.Committee.Quorum
import QuorumChain.Proofs.Committee.Requests

/-!
# How a committee develops along a chain

The committee of a height is what the votes of all headers before have made, one after the
other, of the list in the first header; the vote of the first header does not count.  Every
header of a chain that passes the check lists just this committee, so whoever has the chain
knows all committees and the order of their members.  From one height to the next at most one
member joins, at the end, or leaves, and the others keep their order.
-/

namespace QuorumChain

/-! ## One vote -/

namespace Committee

variable {c next : Committee}

/-- The committee after a vote, if one is cast. -/
def heed (c : Committee) : Option Vote → Committee
  | none => c
  | some v => c.apply v

/-- The committee that the first of some votes, so many of them, make of another one. -/
def reached (start : Committee) (votes : List (Option Vote)) (i : Nat) : Committee :=
  (votes.take i).foldl heed start

/-- A committee is followed by one with at most one member more, the last one, or one member
less. -/
inductive Shifts (c next : Committee) : Prop where
  /-- Nothing changes. -/
  | stays (h : next = c)
  /-- Somebody joins behind all others. -/
  | joins (a : Address) (hnew : a ∉ c.members) (h : next.members = c.members ++ [a])
  /-- Somebody leaves, and the order of the others stays. -/
  | leaves (a : Address) (hold : a ∈ c.members) (h : next.members = c.members.erase a)

theorem shifts_drop (c : Committee) (a : Address) : c.Shifts (c.drop a) := by
  by_cases hsame : c.drop a = c
  · exact .stays hsame
  · have hmember : a ∈ c.members := by
      by_contra hforeign
      exact hsame (drop_eq_self_iff.mpr (.inl hforeign))
    refine .leaves a hmember ?_
    rw [drop] at hsame ⊢
    split at hsame
    · contradiction
    · rename_i hleft
      rw [dif_neg hleft, c.nodup.erase_eq_filter]
      exact List.filter_congr fun b _ => by simp [bne, Bool.beq_eq_decide_eq]

theorem shifts_heed (c : Committee) (v : Option Vote) : c.Shifts (c.heed v) := by
  cases v with
  | none => exact .stays rfl
  | some v =>
      obtain ⟨a, kind⟩ := v
      cases kind with
      | add =>
          by_cases hmember : a ∈ c.members
          · exact .stays (dif_pos hmember)
          · exact .joins a hmember (by simp [heed, apply, hmember, add])
      | drop => exact c.shifts_drop a

theorem shifts_reached (start : Committee) (votes : List (Option Vote)) (i : Nat) :
    (start.reached votes i).Shifts (start.reached votes (i + 1)) := by
  rw [reached, reached, List.take_add_one, List.foldl_append]
  cases votes[i]? with
  | none => exact .stays rfl
  | some v => exact shifts_heed _ v

/-- A committee that can elect: it has members, each listed once, somebody in its list proposes
in each view, and fewer than a third of the members may be faulty. -/
structure Sound (c : Committee) : Prop where
  nonempty : c.members ≠ []
  nodup : c.members.Nodup
  modulus : 0 < c.size
  proposer : ∀ v, c.proposerIndex v < c.size ∧
    c.members[c.proposerIndex v]? = some (c.proposer v)
  tolerance : 3 * c.maxFaulty + 1 ≤ c.size

theorem sound (c : Committee) : c.Sound where
  nonempty := c.nonempty
  nodup := c.nodup
  modulus := c.size_pos
  proposer v := ⟨c.proposerIndex_lt v, List.getElem?_eq_getElem (c.proposerIndex_lt v)⟩
  tolerance := c.three_mul_maxFaulty_lt_size

theorem members_of_ofList?
    {l : List Address} (hnodup : l.Nodup) (h : ofList? l = some c) : c.members = l := by
  cases l with
  | nil => contradiction
  | cons a rest =>
      cases h
      exact withoutRepeats_of_nodup hnodup

end Committee

/-! ## One header -/

/-- A header lists a committee in its extra-data. -/
def Header.Lists (h : Header) (c : Committee) : Prop :=
  ∃ x, h.extraData = .ok x ∧ x.validators = c.members

namespace CommitteeCache

variable {scheme : Scheme} {committee next last start : Committee} {first parent h : Header}
  {rest headers : List Header} {votes : List (Option Vote)}

/-- Behind a first header stands the committee that it lists, whatever it votes. -/
theorem lists_of_first (hnumber : first.number = 0) (hnext : first.nextCommittee = .ok start) :
    first.Lists start := by
  obtain ⟨x, hx, hnext⟩ := bind_eq_ok.mp hnext
  have hextra := mapError_eq_ok.mp hx
  refine ⟨x, hextra, ?_⟩
  split at hnext
  · contradiction
  · rename_i recorded hrecorded
    rw [if_pos hnumber] at hnext
    obtain rfl := pure_eq_ok.mp hnext
    exact (Committee.members_of_ofList? (Header.extraData_validators hextra).2.1 hrecorded).symm

/-- A linked header lists the committee that seals it, and its vote decides on the next one. -/
theorem records_of_checkLink
    (hlink : checkLink scheme committee parent h = .ok ()) (hnumber : h.number ≠ 0) :
    h.Lists committee ∧
      ∃ vote, h.carriedVote = .ok vote ∧ h.nextCommittee = .ok (committee.heed vote) := by
  obtain ⟨-, signers, hcheck⟩ := of_checkLink hlink
  obtain ⟨x, -, hx, -, hlists, hvote, -, -⟩ := Header.checkCommitted_eq_ok.mp hcheck
  refine ⟨⟨x, hx, hlists⟩, x.vote, hvote, ?_⟩
  simp only [Header.nextCommittee, hx, mapError_ok, bind, Except.bind, hlists,
    committee.ofList?_members, if_neg hnumber, hvote]
  cases x.vote <;> rfl

/-! ## The whole chain -/

/-- Headers carry some votes, and each lists the committee that the votes before it have made of
another one. -/
structure Records (start : Committee) (headers : List Header) (votes : List (Option Vote)) :
    Prop where
  carried : headers.map Header.carriedVote = votes.map .ok
  listed : ∀ i (hi : i < headers.length), (headers[i]).Lists (start.reached votes i)

/-- Along a chain the votes decide on the committees. -/
theorem Chained.records
    (h : Chained scheme committee parent headers last)
    (hroom : parent.number.toNat + headers.length < 2 ^ 64) :
    ∃ votes, Records committee headers votes ∧ last = votes.foldl Committee.heed committee ∧
      ∀ i, Chained scheme committee parent (headers.take i) (committee.reached votes i) := by
  induction h with
  | nil =>
      refine ⟨[], ⟨rfl, fun i hi => absurd hi (Nat.not_lt_zero i)⟩, rfl, fun i => ?_⟩
      rw [List.take_nil, Committee.reached, List.take_nil]
      exact .nil
  | @cons committee next last parent h rest hlink hnext hrest ih =>
      rw [List.length_cons] at hroom
      have hstep : h.number.toNat = parent.number.toNat + 1 := by
        rw [(of_checkLink hlink).1, UInt64.toNat_add]
        exact Nat.mod_eq_of_lt (by simp; omega)
      have hnumber : h.number ≠ 0 := by
        intro hzero
        rw [hzero] at hstep
        contradiction
      obtain ⟨hlists, vote, hvote, hheed⟩ := records_of_checkLink hlink hnumber
      obtain rfl := Except.ok.inj (hheed.symm.trans hnext)
      obtain ⟨votes, hrecords, hlast, hchained⟩ := ih (by omega)
      refine ⟨vote :: votes, ⟨?_, fun i hi => ?_⟩, hlast, fun i => ?_⟩
      · rw [List.map_cons, List.map_cons, hvote, hrecords.carried]
      · cases i with
        | zero => exact hlists
        | succ i => exact hrecords.listed i (Nat.lt_of_succ_lt_succ hi)
      · cases i with
        | zero => exact .nil
        | succ i => exact .cons hlink hheed (hchained i)

/-- All headers of a chain that passes the check have digests. -/
theorem digests_of_follow
    {c : CommitteeCache} {found : Committee × CommitteeCache}
    (hfollow : c.follow scheme committee parent headers = .ok found) :
    ∀ h ∈ headers, ∃ d, h.digest scheme.hash = .ok d := by
  induction headers generalizing c committee parent with
  | nil => simp
  | cons h rest ih =>
      obtain ⟨⟨⟩, hlink, hfollow⟩ := bind_eq_ok.mp hfollow
      obtain ⟨⟨next, c'⟩, -, hrest⟩ := bind_eq_ok.mp hfollow
      exact List.forall_mem_cons.mpr ⟨digest_of_checkLink hlink, ih hrest⟩

theorem digests_of_replay
    {c : CommitteeCache} {found : Committee × CommitteeCache}
    (hreplay : c.replay scheme headers = .ok found) :
    ∀ h ∈ headers, ∃ d, h.digest scheme.hash = .ok d := by
  cases headers with
  | nil => contradiction
  | cons first rest =>
      obtain ⟨⟨⟩, -, hreplay⟩ := bind_eq_ok.mp hreplay
      obtain ⟨⟨committee, c'⟩, hafter, hfollow⟩ := bind_eq_ok.mp hreplay
      obtain ⟨d, hd, -⟩ := after_cases hafter
      exact List.forall_mem_cons.mpr ⟨⟨d, hd⟩, digests_of_follow hfollow⟩

/-- If no two of the strings hashed for known headers collide, a chain of them that passes the
check, by a cache that has served calls about them, ends with the committee that the votes
behind its first header make, in their order, of the list in that header.  Each header lists the
committee with which the chain before it ends.  All these committees are sound, and each shifts
to the next.  Numbers have 64 bits, and no chain is so long that they are used up. -/
theorem replay_evolves
    {calls : List Call} {capacity : Nat} {known : Set Header} {left : CommitteeCache}
    (hfree : Set.InjOn scheme.hash (Header.writing '' Header.digested scheme.hash known))
    (hcalls : ∀ call ∈ calls, ∀ g ∈ call.headers, g ∈ known) (hknown : ∀ h ∈ headers, h ∈ known)
    (hroom : headers.length ≤ 2 ^ 64)
    (hreplay : (calls.foldl (serve scheme.hash) (empty capacity)).replay scheme headers =
      .ok (last, left)) :
    ∃ first rest start votes, headers = first :: rest ∧ first.Lists start ∧
      Records start rest votes ∧ last = votes.foldl Committee.heed start ∧
      ∀ i, (∃ left', (calls.foldl (serve scheme.hash) (empty capacity)).replay scheme
          (first :: rest.take i) = .ok (start.reached votes i, left')) ∧
        (start.reached votes i).Sound ∧
          (start.reached votes i).Shifts (start.reached votes (i + 1)) := by
  have hserved := (faithful_empty scheme.hash _ capacity).foldl_serve hcalls
  have hdigested : ∀ h ∈ headers, h ∈ Header.digested scheme.hash known :=
    fun h hh => ⟨hknown h hh, digests_of_replay hreplay h hh⟩
  cases headers with
  | nil => contradiction
  | cons first rest =>
      obtain ⟨hnumber, hdigest, start, hstart, hchained⟩ :=
        (hserved.replay_iff hfree hdigested last).mp ⟨left, hreplay⟩
      have hlength : first.number.toNat + rest.length < 2 ^ 64 := by
        rw [hnumber, UInt64.toNat_zero, Nat.zero_add]
        exact hroom
      obtain ⟨votes, hrecords, hlast, hprefix⟩ := hchained.records hlength
      refine ⟨first, rest, start, votes, rfl, lists_of_first hnumber hstart, hrecords, hlast,
        fun i => ⟨?_, Committee.sound _, start.shifts_reached votes i⟩⟩
      have hbefore : ∀ h ∈ first :: rest.take i, h ∈ Header.digested scheme.hash known := by
        obtain ⟨hfirst, hrest⟩ := List.forall_mem_cons.mp hdigested
        exact List.forall_mem_cons.mpr ⟨hfirst, fun h hh => hrest h (List.mem_of_mem_take hh)⟩
      exact (hserved.replay_iff hfree hbefore _).mpr
        ⟨hnumber, hdigest, start, hstart, hprefix i⟩

/-- The newcomer joins four members behind all others, and then the third of them leaves. -/
theorem replay_evolves_of_four :
    let scheme := (Four.setup 0).scheme
    let headers := [Four.first.header, Four.invitation, Four.farewell]
    let calls :=
      [.after Four.invitation, .replay scheme.verify [Four.first.header, Four.odd.header]]
    let known := {h | h ∈ Four.odd.header :: headers}
    let served := calls.foldl (serve scheme.hash) (empty 1)
    Set.InjOn scheme.hash (Header.writing '' Header.digested scheme.hash known) ∧
      (∀ call ∈ calls, ∀ g ∈ call.headers, g ∈ known) ∧ (∀ h ∈ headers, h ∈ known) ∧
      ∃ last left start votes, served.replay scheme headers = .ok (last, left) ∧
        last.members = [Four.address 0, Four.address 1, Four.address 3, Four.newcomer] ∧
        Four.first.header.Lists start ∧ Records start [Four.invitation, Four.farewell] votes ∧
        last = votes.foldl Committee.heed start := by
  intro scheme headers calls known served
  have hcalls : ∀ call ∈ calls, ∀ g ∈ call.headers, g ∈ known := by
    show ∀ call ∈ calls, ∀ g ∈ call.headers, g ∈ Four.odd.header :: headers
    simp [calls, headers, Call.headers]
  have hknown : ∀ h ∈ headers, h ∈ known := fun h hh => List.mem_cons_of_mem _ hh
  have hroom : headers.length ≤ 2 ^ 64 := by simp [headers]
  have hdistinct : ((Four.odd.header :: headers).map fun h => Four.hash h.writing).Nodup := by
    decide +kernel
  have hfree : Set.InjOn scheme.hash (Header.writing '' Header.digested scheme.hash known) := by
    rintro _ ⟨h, ⟨hh, -⟩, rfl⟩ _ ⟨g, ⟨hg, -⟩, rfl⟩ hhash
    exact congrArg Header.writing (List.inj_on_of_nodup_map hdistinct hh hg hhash)
  have hends : (served.replay scheme headers).toOption.map (·.1.members) =
      some [Four.address 0, Four.address 1, Four.address 3, Four.newcomer] := by
    decide +kernel
  cases hreplay : served.replay scheme headers with
  | error e =>
      rw [hreplay] at hends
      contradiction
  | ok found =>
      obtain ⟨last, left⟩ := found
      rw [hreplay] at hends
      obtain ⟨first, rest, start, votes, hsplit, hfirst, hrecords, hlast, -⟩ :=
        replay_evolves hfree hcalls hknown hroom hreplay
      obtain ⟨rfl, rfl⟩ := List.cons.inj hsplit
      exact ⟨hfree, hcalls, hknown, last, left, start, votes, rfl, Option.some.inj hends, hfirst,
        hrecords, hlast⟩

end CommitteeCache

end QuorumChain
