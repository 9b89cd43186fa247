import Mathlib.Data.List.Induction
import QuorumChain.Committee.Cache
import QuorumChain.Committee.Requests
import QuorumChain.Proofs.Data.Backlog
import QuorumChain.Proofs.Data.Except

/-!
# Requests that have an effect

Of several requests about one subject the last one is in force, and a discarded request is not.  A
block carries the first request in force that asks for something not already so.  That is the first
one that would change the committee, unless somebody asks to drop the last member: the committee
stays as it is then, but the request is offered, time and again, and holds up those behind it.
-/

namespace QuorumChain

/-! ## Votes that change nothing -/

namespace Committee

variable {c : Committee} {v : Vote}

/-- Only the last member cannot be dropped. -/
theorem drop_eq_self_iff
    {a : Address} : c.drop a = c ↔ a ∉ c.members ∨ c.members = [a] := by
  rw [drop]
  by_cases hnobody : c.members.filter (· ≠ a) = []
  · rw [dif_pos hnobody]
    refine iff_of_true rfl (.inr ?_)
    have hall : ∀ b ∈ c.members, b = a := by simpa using hnobody
    have hreplicate := List.eq_replicate_of_mem hall
    have hsize : c.members.length = 1 := by
      have hpos := List.length_pos_iff.mpr c.nonempty
      have hle := List.nodup_replicate.mp (hreplicate ▸ c.nodup)
      omega
    rw [hreplicate, hsize]
    rfl
  · rw [dif_neg hnobody]
    constructor
    · intro hsame
      have hmembers : c.members.filter (· ≠ a) = c.members := congrArg members hsame
      exact .inl fun hmem => by simpa using List.filter_eq_self.mp hmembers a hmem
    · rintro (hforeign | hlast)
      · have hmembers : c.members.filter (· ≠ a) = c.members := by
          refine List.filter_eq_self.mpr fun b hb => decide_eq_true ?_
          rintro rfl
          exact hforeign hb
        cases c
        congr
      · exact absurd (by simp [hlast]) hnobody

/-- A vote changes nothing if what it asks for is already so, or if it would drop the last
member. -/
theorem apply_eq_self_iff :
    c.apply v = c ↔ c.isRedundant v = true ∨ v.kind = .drop ∧ c.members = [v.subject] := by
  obtain ⟨a, kind⟩ := v
  cases kind with
  | add =>
      simp only [apply, isRedundant, contains, List.contains_iff_mem, reduceCtorEq, false_and,
        or_false]
      split
      · rename_i hmem
        exact iff_of_true rfl hmem
      · rename_i hforeign
        refine iff_of_false (fun hsame => hforeign ?_) hforeign
        rw [← hsame]
        exact List.mem_append_right _ (List.mem_singleton.mpr rfl)
  | drop =>
      simp only [apply, isRedundant, contains, Bool.not_eq_true', List.contains_eq_mem,
        decide_eq_false_iff_not, true_and]
      exact drop_eq_self_iff

/-- Where a vote has changed the committee, it asks for nothing more. -/
theorem isRedundant_apply (h : c.apply v ≠ c) : (c.apply v).isRedundant v = true := by
  obtain ⟨a, kind⟩ := v
  cases kind with
  | add =>
      have hforeign : a ∉ c.members := fun hmem => h (dif_pos hmem)
      simp [apply, isRedundant, contains, hforeign, add]
  | drop =>
      have hleft : c.members.filter (· ≠ a) ≠ [] := fun hnobody => h (dif_pos hnobody)
      simp only [apply, isRedundant, drop, dif_neg hleft, contains]
      simp

theorem withoutRepeats_of_nodup
    {α : Type} [DecidableEq α] {l : List α} (h : l.Nodup) : withoutRepeats l = l := by
  induction l with
  | nil => rfl
  | cons a rest ih =>
      obtain ⟨hnew, hrest⟩ := List.nodup_cons.mp h
      rw [withoutRepeats, ih hrest, List.filter_eq_self.mpr]
      intro b hb
      exact decide_eq_true fun heq => hnew (heq ▸ hb)

theorem ofList?_members (c : Committee) : ofList? c.members = some c := by
  obtain ⟨members, hnonempty, hnodup⟩ := c
  cases members with
  | nil => contradiction
  | cons a rest => simp only [ofList?, withoutRepeats_of_nodup hnodup]

end Committee

/-- A header behind the first that lists a committee and carries a vote. -/
structure Header.Casts (h : Header) (c : Committee) (v : Vote) : Prop where
  behind : h.number ≠ 0
  lists : ∃ x, h.extraData = .ok x ∧ x.validators = c.members
  carries : h.carriedVote = .ok (some v)

/-- Behind such a header the vote has taken effect. -/
theorem Header.Casts.nextCommittee_eq
    {h : Header} {c : Committee} {v : Vote} (hcasts : h.Casts c v) :
    h.nextCommittee = .ok (c.apply v) := by
  obtain ⟨x, hx, hlists⟩ := hcasts.lists
  rw [nextCommittee, hx, mapError_ok]
  simp only [bind, Except.bind, hlists, c.ofList?_members, if_neg hcasts.behind, hcasts.carries,
    mapError_ok, pure, Except.pure]

namespace VoteRequests

/-! ## The requests in force -/

/-- What an operator tells the node. -/
inductive Order where
  /-- A vote is asked for. -/
  | insert (v : Vote)
  /-- Nothing is asked about a subject any more. -/
  | discard (a : Address)

/-- Whom it is about. -/
def Order.subject : Order → Address
  | .insert v => v.subject
  | .discard a => a

/-- Do as told. -/
def obey (r : VoteRequests) : Order → VoteRequests
  | .insert v => r.insert v
  | .discard a => r.discard a

/-- The requests after all that an operator has told. -/
def after (orders : List Order) : VoteRequests :=
  orders.foldl obey .empty

/-- The last thing told about the subject of a vote is to ask for that vote. -/
def Pending (orders : List Order) (v : Vote) : Prop :=
  ∃ earlier later : List Order,
    orders = earlier ++ .insert v :: later ∧ ∀ o ∈ later, o.subject ≠ v.subject

theorem after_append (orders : List Order) (o : Order) :
    after (orders ++ [o]) = (after orders).obey o :=
  List.foldl_concat ..

theorem not_pending_nil (v : Vote) : ¬Pending [] v := by
  rintro ⟨earlier, later, heq, -⟩
  cases earlier <;> contradiction

theorem pending_append {orders : List Order} {o : Order} {v : Vote} :
    Pending (orders ++ [o]) v ↔
      o = .insert v ∨ o.subject ≠ v.subject ∧ Pending orders v := by
  constructor
  · rintro ⟨earlier, later, heq, hlater⟩
    rcases List.eq_nil_or_concat later with rfl | ⟨later, last, rfl⟩
    · exact .inl (List.append_inj_right' heq rfl |> List.singleton_inj.mp)
    · rw [List.concat_eq_append] at heq hlater
      rw [← List.cons_append, ← List.append_assoc] at heq
      obtain ⟨rfl, hlast⟩ := List.append_inj' heq rfl
      obtain rfl := List.singleton_inj.mp hlast
      refine .inr ⟨hlater o (by simp), earlier, later, rfl, fun o' ho' => ?_⟩
      exact hlater o' (List.mem_append_left _ ho')
  · rintro (rfl | ⟨hother, earlier, later, rfl, hlater⟩)
    · exact ⟨orders, [], rfl, fun _ h => absurd h List.not_mem_nil⟩
    · refine ⟨earlier, later ++ [o], by simp, fun o' ho' => ?_⟩
      rcases List.mem_append.mp ho' with ho' | ho'
      · exact hlater o' ho'
      · exact List.mem_singleton.mp ho' ▸ hother

theorem mem_toList {r : VoteRequests} {v : Vote} :
    v ∈ r.toList ↔ r.wanted.get? v.subject = some v.kind := by
  rw [toList, List.mem_map, SortedMap.get?_eq_some]
  constructor
  · rintro ⟨e, he, rfl⟩
    exact he
  · exact fun he => ⟨_, he, rfl⟩

theorem mem_toList_obey {r : VoteRequests} {o : Order} {v : Vote} :
    v ∈ (r.obey o).toList ↔ o = .insert v ∨ o.subject ≠ v.subject ∧ v ∈ r.toList := by
  rw [mem_toList, mem_toList]
  cases o with
  | insert w =>
      by_cases hsame : w.subject = v.subject
      · obtain ⟨a, kind⟩ := v
        obtain ⟨b, kind'⟩ := w
        obtain rfl : b = a := hsame
        simp [obey, VoteRequests.insert, SortedMap.get?_insert_self, Order.subject]
      · have hne : Order.insert w ≠ .insert v := fun heq => by cases heq; exact hsame rfl
        simp [obey, VoteRequests.insert, SortedMap.get?_insert_of_ne (Ne.symm hsame), Order.subject,
          hsame, hne]
  | discard a =>
      by_cases hsame : a = v.subject
      · simp [obey, VoteRequests.discard, Order.subject, hsame, SortedMap.get?_erase_self]
      · simp [obey, VoteRequests.discard, SortedMap.get?_erase_of_ne (Ne.symm hsame), Order.subject,
          hsame]

/-- The requests in force are those that were asked for last. -/
theorem mem_toList_after (orders : List Order) (v : Vote) :
    v ∈ (after orders).toList ↔ Pending orders v := by
  induction orders using List.reverseRecOn with
  | nil => exact iff_of_false List.not_mem_nil (not_pending_nil v)
  | append_singleton orders o ih => rw [after_append, mem_toList_obey, pending_append, ih]

/-! ## The request that is offered -/

theorem toList_ordered (r : VoteRequests) :
    r.toList.Pairwise fun v w => compare v.subject w.subject = .lt :=
  List.pairwise_map.mpr r.wanted.ordered

/-- In an ordered list, the first item that passes a test is the least one. -/
theorem find?_eq_some_iff_least
    {α κ : Type} [Ord κ] [Std.TransOrd κ] {key : α → κ} {p : α → Bool} {l : List α} {a : α}
    (h : l.Pairwise fun x y => compare (key x) (key y) = .lt) :
    l.find? p = some a ↔
      a ∈ l ∧ p a = true ∧ ∀ b ∈ l, compare (key b) (key a) = .lt → p b = false := by
  rw [List.find?_eq_some_iff_append]
  constructor
  · rintro ⟨hp, front, back, rfl, hfront⟩
    refine ⟨by simp, hp, fun b hb hlt => ?_⟩
    rcases List.mem_append.mp hb with hb | hb
    · simpa using hfront b hb
    · -- whatever is not in front of the item found is not below it
      exfalso
      rcases List.mem_cons.mp hb with rfl | hb
      · rw [Std.ReflOrd.compare_self] at hlt
        contradiction
      · have hgt := (List.pairwise_cons.mp (List.pairwise_append.mp h).2.1).1 b hb
        rw [Std.OrientedOrd.eq_swap, hgt] at hlt
        contradiction
  · rintro ⟨hmem, hp, hleast⟩
    obtain ⟨front, back, rfl⟩ := List.append_of_mem hmem
    refine ⟨hp, front, back, rfl, fun b hb => ?_⟩
    have hlt := (List.pairwise_append.mp h).2.2 b hb a List.mem_cons_self
    simp [hleast b (List.mem_append_left _ hb) hlt]

variable {orders : List Order} {c : Committee} {v : Vote}

theorem offer_eq_some :
    (after orders).offer c = some v ↔
      Pending orders v ∧ c.isRedundant v = false ∧
        ∀ w, Pending orders w → compare w.subject v.subject = .lt → c.isRedundant w = true := by
  rw [offer, find?_eq_some_iff_least (after orders).toList_ordered]
  simp only [mem_toList_after, Bool.not_eq_true', Bool.not_eq_false']

theorem offer_eq_none :
    (after orders).offer c = none ↔ ∀ v, Pending orders v → c.isRedundant v = true := by
  rw [offer, List.find?_eq_none]
  simp only [mem_toList_after, Bool.not_eq_true', Bool.not_eq_false]

/-- The first request in force that would change a committee. -/
structure FirstEffective (orders : List Order) (c : Committee) (v : Vote) : Prop where
  pending : Pending orders v
  effective : c.apply v ≠ c
  first : ∀ w, Pending orders w → compare w.subject v.subject = .lt → c.apply w = c

/-- What is offered has an effect. -/
structure Effective (orders : List Order) (c : Committee) : Prop where
  /-- The first request that would change the committee is offered. -/
  offered : ∀ v, (after orders).offer c = some v ↔ FirstEffective orders c v
  /-- Nothing is offered exactly if no request would change the committee. -/
  silent : (after orders).offer c = none ↔ ∀ v, Pending orders v → c.apply v = c
  /-- Where a header has brought the vote into effect, it is never offered again. -/
  settled : ∀ v, (after orders).offer c = some v →
    (∀ h : Header, h.Casts c v → h.nextCommittee = .ok (c.apply v)) ∧
      ∀ orders', (after orders').offer (c.apply v) ≠ some v

/-- Whether the request to drop the only member comes first among those that are not already
so. -/
def Stalls (orders : List Order) (c : Committee) : Prop :=
  ∃ a, c.members = [a] ∧ Pending orders ⟨a, .drop⟩ ∧
    ∀ w, Pending orders w → compare w.subject a = .lt → c.apply w = c

theorem stalls_of_offer
    (h : (after orders).offer c = some v) (hsame : c.apply v = c) : Stalls orders c := by
  obtain ⟨hpending, hwanted, hfirst⟩ := offer_eq_some.mp h
  rcases Committee.apply_eq_self_iff.mp hsame with hredundant | ⟨hkind, hlast⟩
  · rw [hwanted] at hredundant
    contradiction
  · refine ⟨v.subject, hlast, ?_, fun w hw hlt => ?_⟩
    · rw [← hkind]
      exact hpending
    · exact Committee.apply_eq_self_iff.mpr (.inl (hfirst w hw hlt))

/-- Without such a request, a request that changes nothing asks for what is already so. -/
theorem isRedundant_of_apply_eq
    (hstall : ¬Stalls orders c) {w : Vote} (hw : Pending orders w) (hsame : c.apply w = c)
    (hbelow : ∀ u, Pending orders u → compare u.subject w.subject = .lt → c.apply u = c) :
    c.isRedundant w = true := by
  rcases Committee.apply_eq_self_iff.mp hsame with hredundant | ⟨hkind, hlast⟩
  · exact hredundant
  · refine absurd ⟨w.subject, hlast, ?_, hbelow⟩ hstall
    rw [← hkind]
    exact hw

/-- The request to drop the only member is offered if those before it change nothing. -/
theorem Stalls.exists_offer
    (h : Stalls orders c) : ∃ v, (after orders).offer c = some v ∧ c.apply v = c := by
  obtain ⟨a, hlast, hpending, hbelow⟩ := h
  refine ⟨⟨a, .drop⟩, offer_eq_some.mpr ⟨hpending, ?_, fun w hw hlt => ?_⟩, ?_⟩
  · simp [Committee.isRedundant, Committee.contains, hlast]
  · rcases Committee.apply_eq_self_iff.mp (hbelow w hw hlt) with hredundant | ⟨-, hsame⟩
    · exact hredundant
    · rw [hlast, List.singleton_inj] at hsame
      rw [hsame, Std.ReflOrd.compare_self] at hlt
      contradiction
  · exact Committee.apply_eq_self_iff.mpr (.inr ⟨rfl, hlast⟩)

/-- What is offered has an effect exactly if no request to drop the only member comes first. -/
theorem effective_iff_not_stalls (orders : List Order) (c : Committee) :
    Effective orders c ↔ ¬Stalls orders c := by
  constructor
  · intro heffective hstall
    obtain ⟨v, hoffer, hsame⟩ := hstall.exists_offer
    exact ((heffective.offered v).mp hoffer).effective hsame
  · intro hstall
    refine ⟨fun v => ⟨fun hoffer => ?_, fun hfirst => ?_⟩, ⟨fun hoffer w hw => ?_, fun hsame => ?_⟩,
      fun v hoffer => ⟨fun h hcasts => hcasts.nextCommittee_eq, fun orders' hagain => ?_⟩⟩
    · obtain ⟨hpending, -, hbelow⟩ := offer_eq_some.mp hoffer
      refine ⟨hpending, fun hsame => hstall (stalls_of_offer hoffer hsame), fun w hw hlt => ?_⟩
      exact Committee.apply_eq_self_iff.mpr (.inl (hbelow w hw hlt))
    · refine offer_eq_some.mpr ⟨hfirst.pending, ?_, fun w hw hlt => ?_⟩
      · refine eq_false_of_ne_true fun hredundant => hfirst.effective ?_
        exact Committee.apply_eq_self_iff.mpr (.inl hredundant)
      · refine isRedundant_of_apply_eq hstall hw (hfirst.first w hw hlt) fun u hu hlt' => ?_
        exact hfirst.first u hu (Std.TransCmp.lt_trans hlt' hlt)
    · exact Committee.apply_eq_self_iff.mpr (.inl (offer_eq_none.mp hoffer w hw))
    · refine offer_eq_none.mpr fun w hw => ?_
      exact isRedundant_of_apply_eq hstall hw (hsame w hw) fun u hu _ => hsame u hu
    · have hchanged : c.apply v ≠ c := fun hsame => hstall (stalls_of_offer hoffer hsame)
      obtain ⟨-, hwanted, -⟩ := offer_eq_some.mp hagain
      rw [Committee.isRedundant_apply hchanged] at hwanted
      contradiction

/-- A committee of one. -/
def lone : Committee :=
  ⟨[Fixed.replicate 20 1], List.cons_ne_nil _ _, List.nodup_singleton _⟩

/-- A member that is alone asks to be dropped and somebody else to be added: it is the first request
that is offered, though it is the second that would change the committee. -/
theorem lone_not_effective :
    ¬Effective [.insert ⟨Fixed.replicate 20 1, .drop⟩, .insert ⟨Fixed.replicate 20 2, .add⟩] lone ∧
      Pending [.insert ⟨Fixed.replicate 20 1, .drop⟩, .insert ⟨Fixed.replicate 20 2, .add⟩]
        ⟨Fixed.replicate 20 2, .add⟩ ∧
      lone.apply ⟨Fixed.replicate 20 2, .add⟩ ≠ lone := by
  refine ⟨fun heffective => ?_, ⟨[_], [], rfl, fun _ h => absurd h List.not_mem_nil⟩, by decide⟩
  have hoffer : (after [.insert ⟨Fixed.replicate 20 1, .drop⟩,
      .insert ⟨Fixed.replicate 20 2, .add⟩]).offer lone = some ⟨Fixed.replicate 20 1, .drop⟩ := by
    decide
  exact ((heffective.offered _).mp hoffer).effective (by decide)

end VoteRequests

end QuorumChain
