import QuorumChain.Proofs.Data.Backlog

/-!
# Backlogs as priority lists

A list kept in the order of its keys serves as a backlog: a new item goes behind all those whose
keys are not greater, and what then exceeds the limit is cut off.  Whatever is pushed, taken and
dropped, a backlog gives the same answers as this list and holds the same items in the same
order.  Without removals, these are the first items of all that was pushed, sorted by their keys
with the order of arrival kept.
-/

namespace QuorumChain

/-! ## Operations -/

namespace Backlog

/-- What is done with a backlog. -/
inductive Operation (κ α : Type) where
  /-- Keep an item under a key. -/
  | push (k : κ) (a : α)
  /-- Hand out the items under a key. -/
  | take (k : κ)
  /-- Forget the items under smaller keys. -/
  | dropBelow (bound : κ)
deriving DecidableEq

/-- What comes of it. -/
inductive Answer (α : Type) where
  /-- Whether the new item is kept. -/
  | kept (stays : Bool)
  /-- The items under the key. -/
  | taken (items : List α)
  /-- Nothing is reported. -/
  | done
deriving DecidableEq

variable {κ α : Type}

/-- The answers to some operations, one after the other, and where they end. -/
def run {σ : Type} (step : σ → Operation κ α → Answer α × σ) :
    σ → List (Operation κ α) → List (Answer α) × σ
  | s, [] => ([], s)
  | s, op :: rest =>
    let after := run step (step s op).2 rest
    ((step s op).1 :: after.1, after.2)

variable [Ord κ] [Std.TransOrd κ]

/-- An operation on a backlog. -/
def operate (b : Backlog κ α) : Operation κ α → Answer α × Backlog κ α
  | .push k a => (.kept (b.push? k a).isSome, b.push k a)
  | .take k => (.taken (b.take k).1, (b.take k).2)
  | .dropBelow bound => (.done, b.dropBelow bound)

/-- What an operation takes off the count. -/
def loss (b : Backlog κ α) : Operation κ α → Nat
  | .push k a => if b.count < b.limit ∨ (b.push? k a).isNone then 0 else 1
  | .take k => (b.take k).1.length
  | .dropBelow bound =>
    (b.buckets.filter fun k _ => compare k bound == .lt).values.flatten.length

end Backlog

namespace PriorityList

open Backlog (Operation Answer run)

variable {κ α : Type} [Ord κ]

/-- Whether the key of an item is at most that of another one. -/
def atMost (x y : κ × α) : Bool :=
  (compare x.1 y.1).isLE

/-- No item stands before one with a smaller key. -/
def Sorted (l : List (κ × α)) : Prop :=
  l.Pairwise fun x y => atMost x y = true

/-- The place of a new item: behind all those whose keys are at most its own. -/
def place (l : List (κ × α)) (x : κ × α) : Nat :=
  l.countP (atMost · x)

/-- The list with a new item at its place. -/
def enqueue (l : List (κ × α)) (x : κ × α) : List (κ × α) :=
  l.take (place l x) ++ x :: l.drop (place l x)

/-- The items under a key, as they stand in a list. -/
def under (k : κ) (l : List (κ × α)) : List (κ × α) :=
  l.filter fun x => compare x.1 k == .eq

/-- An operation on a list with a limit. -/
def operate (limit : Nat) (l : List (κ × α)) : Operation κ α → Answer α × List (κ × α)
  | .push k a => (.kept (decide (place l (k, a) < limit)), (enqueue l (k, a)).take limit)
  | .take k => (.taken ((under k l).map (·.2)), l.filter fun x => compare x.1 k != .eq)
  | .dropBelow bound => (.done, l.filter fun x => compare x.1 bound != .lt)

/-! ## Sorted lists -/

section Sorted

variable {l below above : List (κ × α)} {x y z : κ × α}

/-- Where those whose keys are at most that of an item stand in front, the item goes between
them and the others. -/
theorem place_append
    (hbelow : ∀ y ∈ below, atMost y x = true) (habove : ∀ y ∈ above, atMost y x = false) :
    place (below ++ above) x = below.length := by
  have hnone : ∀ y ∈ above, ¬atMost y x = true := fun y hy => by simp [habove y hy]
  rw [place, List.countP_append, List.countP_eq_length.mpr hbelow, List.countP_eq_zero.mpr hnone,
    Nat.add_zero]

theorem enqueue_append
    (hbelow : ∀ y ∈ below, atMost y x = true) (habove : ∀ y ∈ above, atMost y x = false) :
    enqueue (below ++ above) x = below ++ x :: above := by
  rw [enqueue, place_append hbelow habove, List.take_left, List.drop_left]

/-- Whether a list is cut off before or after an item is inserted as well makes no difference to
what is left when it is cut off then. -/
theorem take_enqueue_take
    (hbelow : ∀ y ∈ below, atMost y x = true) (habove : ∀ y ∈ above, atMost y x = false)
    (limit : Nat) :
    (enqueue ((below ++ above).take limit) x).take limit =
      (enqueue (below ++ above) x).take limit := by
  rw [enqueue_append hbelow habove, List.take_append, enqueue_append
    (fun y hy => hbelow y (List.mem_of_mem_take hy))
    (fun y hy => habove y (List.mem_of_mem_take hy)), List.take_append, List.take_append,
    List.take_take, Nat.min_self, List.length_take]
  have hroom : limit - min limit below.length = limit - below.length := by omega
  rw [hroom]
  cases limit - below.length with
  | zero => rfl
  | succ room => simp [List.take_take]

/-- In front of an item with a greater key, everything is as if that one were not there. -/
theorem enqueue_concat (hx : atMost y x = false) :
    place (l ++ [y]) x = place l x ∧ enqueue (l ++ [y]) x = enqueue l x ++ [y] := by
  have hplace : place (l ++ [y]) x = place l x := by
    simp [place, hx]
  have hle : place l x ≤ l.length := List.countP_le_length
  refine ⟨hplace, ?_⟩
  rw [enqueue, hplace, List.take_append_of_le_length hle, List.drop_append_of_le_length hle,
    enqueue, List.append_assoc, List.cons_append]

theorem length_enqueue (l : List (κ × α)) (x : κ × α) : (enqueue l x).length = l.length + 1 := by
  have hle : place l x ≤ l.length := List.countP_le_length
  simp [enqueue]
  omega

/-- Where there is room, a new item is kept. -/
theorem operate_push_of_room
    {limit : Nat} {k : κ} {a : α} (hroom : l.length < limit) :
    operate limit l (.push k a) = (.kept true, enqueue l (k, a)) := by
  have hplace : place l (k, a) < limit := List.countP_le_length.trans_lt hroom
  have hlength : (enqueue l (k, a)).length ≤ limit := by
    rw [length_enqueue]
    exact hroom
  rw [operate, decide_eq_true hplace, List.take_of_length_le hlength]

/-- In a full list, the last item gives way to one with a smaller key. -/
theorem operate_push_concat
    {k : κ} {a : α} (hlast : atMost y (k, a) = false) :
    operate (l.length + 1) (l ++ [y]) (.push k a) = (.kept true, enqueue l (k, a)) := by
  obtain ⟨hplace, henqueue⟩ := enqueue_concat (l := l) hlast
  have hlt : place (l ++ [y]) (k, a) < l.length + 1 := by
    rw [hplace]
    exact Nat.lt_succ_of_le List.countP_le_length
  rw [operate, decide_eq_true hlt, henqueue, List.take_left' (length_enqueue l (k, a))]

/-- In a full list, there is no place for an item behind all others. -/
theorem operate_push_of_behind
    {k : κ} {a : α} (hbehind : ∀ y ∈ l, atMost y (k, a) = true) :
    operate l.length l (.push k a) = (.kept false, l) := by
  have hplace : place l (k, a) = l.length := List.countP_eq_length.mpr hbehind
  rw [operate, hplace, decide_eq_false (Nat.lt_irrefl _), enqueue, hplace, List.take_length,
    List.take_left]

theorem under_cons
    {k : κ} (h : compare x.1 k = .eq) (l : List (κ × α)) : under k (x :: l) = x :: under k l :=
  List.filter_cons_of_pos (beq_iff_eq.mpr h)

variable [Std.TransOrd κ]

theorem atMost_trans
    (x y z : κ × α) (h : atMost x y = true) (h' : atMost y z = true) : atMost x z = true :=
  Std.TransCmp.isLE_trans h h'

theorem atMost_refl (x : κ × α) : atMost x x = true := by
  rw [atMost, Std.ReflOrd.compare_self]
  rfl

theorem atMost_eq_false : atMost x y = false ↔ compare y.1 x.1 = .lt := by
  rw [atMost, Std.OrientedOrd.eq_swap (a := x.1)]
  cases compare y.1 x.1 <;> simp

theorem atMost_total (x y : κ × α) : (atMost x y || atMost y x) = true := by
  rw [atMost, atMost, Std.OrientedOrd.eq_swap (a := y.1)]
  cases compare x.1 y.1 <;> rfl

/-- A sorted list splits at the place of an item. -/
theorem Sorted.split (h : Sorted l) (x : κ × α) :
    ∃ below above, l = below ++ above ∧ (∀ y ∈ below, atMost y x = true) ∧
      ∀ y ∈ above, atMost y x = false := by
  have hsplit := Backlog.eq_filter_append_filter (p := (atMost · x)) h fun y z => atMost_trans y z x
  refine ⟨_, _, hsplit, fun y hy => (List.mem_filter.mp hy).2, fun y hy => ?_⟩
  simpa using (List.mem_filter.mp hy).2

theorem Sorted.atMost_of_last
    (h : Sorted (l ++ [y])) (hx : atMost y x = true) : ∀ z ∈ l ++ [y], atMost z x = true := by
  intro z hz
  rcases List.mem_append.mp hz with hfront | hlast
  · have hzy := (List.pairwise_append.mp h).2.2 z hfront y (List.mem_singleton_self y)
    exact atMost_trans z y x hzy hx
  · rwa [List.mem_singleton.mp hlast]

theorem Sorted.enqueue (h : Sorted l) (x : κ × α) : Sorted (enqueue l x) := by
  obtain ⟨below, above, rfl, hbelow, habove⟩ := h.split x
  rw [enqueue_append hbelow habove]
  obtain ⟨hfront, hback, hcross⟩ := List.pairwise_append.mp h
  have hx : ∀ y ∈ above, atMost x y = true := by
    intro y hy
    have htotal := atMost_total y x
    rwa [habove y hy, Bool.false_or] at htotal
  refine List.pairwise_append.mpr ⟨hfront, List.pairwise_cons.mpr ⟨hx, hback⟩, ?_⟩
  intro y hy z hz
  rcases List.mem_cons.mp hz with rfl | hz
  · exact hbelow y hy
  · exact hcross y hy z hz

theorem mem_under_self : x ∈ under x.1 l ↔ x ∈ l := by
  rw [under, List.mem_filter]
  exact and_iff_left (beq_iff_eq.mpr Std.ReflCmp.compare_self)

/-- A sorted list is determined by what stands under each key, and in which order. -/
theorem Sorted.ext
    {l' : List (κ × α)} (h : Sorted l) (h' : Sorted l') (hkeys : ∀ k, under k l = under k l') :
    l = l' := by
  induction l generalizing l' with
  | nil =>
      refine (List.eq_nil_iff_forall_not_mem.mpr fun x hx => ?_).symm
      rw [← mem_under_self, ← hkeys] at hx
      contradiction
  | cons x rest ih =>
      have hmem : ∀ z, z ∈ x :: rest ↔ z ∈ l' := fun z => by
        rw [← mem_under_self, hkeys, mem_under_self]
      cases l' with
      | nil => exact absurd ((hmem x).mp List.mem_cons_self) List.not_mem_nil
      | cons y rest' =>
          obtain ⟨hx, hrest⟩ := List.pairwise_cons.mp h
          obtain ⟨hy, hrest'⟩ := List.pairwise_cons.mp h'
          -- each list begins with an item of the other one, so neither key is greater
          have hxy : atMost x y = true := by
            rcases List.mem_cons.mp ((hmem y).mpr List.mem_cons_self) with rfl | hlater
            · exact atMost_refl y
            · exact hx y hlater
          have hyx : atMost y x = true := by
            rcases List.mem_cons.mp ((hmem x).mp List.mem_cons_self) with rfl | hlater
            · exact atMost_refl x
            · exact hy x hlater
          have hsame : compare y.1 x.1 = .eq := Std.OrientedCmp.isLE_antisymm hyx hxy
          have hfirst := hkeys x.1
          rw [under_cons Std.ReflOrd.compare_self, under_cons hsame] at hfirst
          obtain ⟨rfl, -⟩ := List.cons.inj hfirst
          refine congrArg (x :: ·) (ih hrest hrest' fun k => ?_)
          have hthere := hkeys k
          simp only [under, List.filter_cons] at hthere
          split at hthere
          · exact (List.cons.inj hthere).2
          · exact hthere

/-- Inserting an item puts it behind those that stand under its key. -/
theorem under_enqueue (h : Sorted l) (x : κ × α) (k : κ) :
    under k (enqueue l x) = under k (l ++ [x]) := by
  obtain ⟨below, above, rfl, hbelow, habove⟩ := h.split x
  rw [enqueue_append hbelow habove]
  simp only [under, List.filter_append, List.filter_cons, List.filter_nil, List.append_assoc]
  split
  · rename_i hx
    -- nothing above has this key
    have hnone : above.filter (fun y => compare y.1 k == .eq) = [] := by
      refine List.filter_eq_nil_iff.mpr fun y hy heq => ?_
      have hlt := atMost_eq_false.mp (habove y hy)
      rw [Std.TransCmp.congr_left (beq_iff_eq.mp hx),
        Std.OrientedCmp.eq_symm (beq_iff_eq.mp heq)] at hlt
      contradiction
    rw [hnone, List.nil_append]
  · rw [List.append_nil]

/-! ## Sorting -/

/-- Sorting keeps the order of what stands under one key. -/
theorem under_mergeSort (k : κ) (l : List (κ × α)) : under k (l.mergeSort atMost) = under k l := by
  have hequal : (under k l).Pairwise fun x y => atMost x y = true := by
    refine List.pairwise_of_forall_mem_list fun x hx y hy => ?_
    have hxk := beq_iff_eq.mp (List.mem_filter.mp hx).2
    have hyk := beq_iff_eq.mp (List.mem_filter.mp hy).2
    rw [atMost, Std.TransCmp.congr_left hxk, Std.OrientedCmp.eq_symm hyk]
    rfl
  have hsub : (under k l).Sublist (l.mergeSort atMost) :=
    List.sublist_mergeSort atMost_trans atMost_total hequal List.filter_sublist
  have hunder : (under k l).Sublist (under k (l.mergeSort atMost)) := by
    simpa only [under, List.filter_filter, Bool.and_self] using
      hsub.filter fun x => compare x.1 k == .eq
  have hlength : (under k l).length = (under k (l.mergeSort atMost)).length :=
    ((List.mergeSort_perm l atMost).filter _).length_eq.symm
  exact (hunder.eq_of_length hlength).symm

theorem sorted_mergeSort (l : List (κ × α)) : Sorted (l.mergeSort atMost) :=
  List.pairwise_mergeSort atMost_trans atMost_total l

/-- To sort one item more is to enqueue it into what is sorted. -/
theorem mergeSort_concat (l : List (κ × α)) (x : κ × α) :
    (l ++ [x]).mergeSort atMost = enqueue (l.mergeSort atMost) x := by
  refine (sorted_mergeSort _).ext ((sorted_mergeSort l).enqueue x) fun k => ?_
  rw [under_mergeSort, under_enqueue (sorted_mergeSort l)]
  simp only [under, List.filter_append]
  congr 1
  exact (under_mergeSort k l).symm

/-- After pushes only, the list holds the first of all items in the order of their keys and,
under one key, in the order of arrival. -/
theorem run_pushes (limit : Nat) (pushed items : List (κ × α)) :
    (run (operate limit) ((pushed.mergeSort atMost).take limit)
      (items.map fun x => .push x.1 x.2)).2 =
        ((pushed ++ items).mergeSort atMost).take limit := by
  induction items generalizing pushed with
  | nil => rw [List.append_nil]; rfl
  | cons x rest ih =>
      obtain ⟨below, above, hsplit, hbelow, habove⟩ := (sorted_mergeSort pushed).split x
      have hstep : (operate limit ((pushed.mergeSort atMost).take limit) (.push x.1 x.2)).2 =
          ((pushed ++ [x]).mergeSort atMost).take limit := by
        rw [mergeSort_concat, hsplit, ← take_enqueue_take hbelow habove]
        rfl
      rw [List.map_cons, run, hstep]
      have hrest := ih (pushed ++ [x])
      rwa [List.append_assoc] at hrest

end Sorted

end PriorityList

/-! ## Backlogs -/

namespace Backlog

variable {κ α : Type} [Ord κ] {b : Backlog κ α} {limit : Nat}

open PriorityList (atMost Sorted enqueue under)

/-- The last item of a list is the last one under the greatest key. -/
theorem toList_of_last?
    {highest : κ} {bucket : List α} (hlast : b.buckets.last? = some (highest, bucket))
    (hbucket : bucket ≠ []) : ∃ front a, b.toList = front ++ [(highest, a)] := by
  obtain ⟨front, hentries⟩ := List.getLast?_eq_some_iff.mp hlast
  refine ⟨spread front ++ bucket.dropLast.map fun a => (highest, a), bucket.getLast hbucket, ?_⟩
  rw [toList_eq_spread, hentries, spread_append, spread_cons, spread_nil, List.append_nil,
    List.append_assoc]
  congr 1
  conv_lhs => rw [← List.dropLast_append_getLast hbucket, List.map_append]
  rfl

variable [Std.TransOrd κ]

theorem sorted_toList (b : Backlog κ α) : Sorted b.toList := by
  refine List.pairwise_flatMap.mpr ⟨fun e _ => ?_,
    b.buckets.ordered.imp fun {e e'} hlt x hx y hy => ?_⟩
  · refine List.pairwise_map.mpr (List.pairwise_of_forall fun _ _ => ?_)
    exact PriorityList.atMost_refl _
  · obtain ⟨_, -, rfl⟩ := List.mem_map.mp hx
    obtain ⟨_, -, rfl⟩ := List.mem_map.mp hy
    simp [atMost, hlt]

variable [Std.LawfulEqOrd κ]

theorem toList_append_eq_enqueue (b : Backlog κ α) (k : κ) (a : α) :
    (b.append k a).toList = enqueue b.toList (k, a) := by
  have hnot : ∀ x : κ × α, (compare k x.1 == .lt) = !(compare k x.1 != .lt) :=
    fun x => by simp [bne]
  have hside : ∀ x : κ × α, atMost x (k, a) = (compare k x.1 != .lt) := by
    intro x
    rw [Bool.eq_iff_iff, bne_iff_ne, ← Bool.not_eq_false, PriorityList.atMost_eq_false]
  rw [toList_append]
  conv_rhs => rw [b.toList_split k]
  refine (PriorityList.enqueue_append (fun y hy => ?_) (fun y hy => ?_)).symm
  · rw [hside]
    exact (List.mem_filter.mp hy).2
  · rw [hside]
    have hlt := (List.mem_filter.mp hy).2
    rwa [hnot, Bool.not_eq_true'] at hlt

/-- A backlog in order takes a new item as its list does. -/
theorem operate_push
    (h : b.InOrder limit fun _ _ => True) (k : κ) (a : α) :
    PriorityList.operate limit b.toList (.push k a) =
      (.kept (b.push? k a).isSome, (b.push k a).toList) := by
  have hcount := h.tidy.count
  have hbounded := h.bounded
  rw [push, push?, h.limit]
  split
  · rename_i hroom
    rw [PriorityList.operate_push_of_room (by omega), ← toList_append_eq_enqueue]
    rfl
  · rename_i hfull
    have hlimit : limit = b.toList.length := by omega
    split
    · rename_i hnone
      have hempty : b.toList = [] := by
        rw [toList_eq_spread, List.getLast?_eq_none_iff.mp hnone, spread_nil]
      rw [hlimit, PriorityList.operate_push_of_behind (by simp [hempty])]
      rfl
    · rename_i highest bucket hlast
      have hbucket : bucket ≠ [] := h.tidy.filled _ (List.mem_of_getLast? hlast)
      obtain ⟨front, last, hlist⟩ := toList_of_last? hlast hbucket
      split
      · rename_i hlt
        have hfront : (b.evict highest bucket).toList = front := by
          rw [toList_evict hlast hbucket, hlist, List.dropLast_concat]
        have hlength : b.toList.length = front.length + 1 := by
          rw [hlist, List.length_append, List.length_singleton]
        rw [hlimit, hlength, hlist,
          PriorityList.operate_push_concat (PriorityList.atMost_eq_false.mpr hlt), ← hfront,
          ← toList_append_eq_enqueue]
        rfl
      · rename_i hnot
        have hsorted := b.sorted_toList
        have hlast : atMost (highest, last) (k, a) = true := by
          rw [← Bool.not_eq_false, PriorityList.atMost_eq_false]
          exact hnot
        have hbehind : ∀ y ∈ b.toList, atMost y (k, a) = true := by
          rw [hlist] at hsorted ⊢
          exact hsorted.atMost_of_last hlast
        rw [hlimit, PriorityList.operate_push_of_behind hbehind]
        rfl

/-- A backlog in order does as its list does, and stays in order. -/
theorem operate_toList
    (h : b.InOrder limit fun _ _ => True) (op : Operation κ α) :
    PriorityList.operate limit b.toList op = ((b.operate op).1, (b.operate op).2.toList) ∧
      (b.operate op).2.InOrder limit fun _ _ => True := by
  cases op with
  | push k a => exact ⟨operate_push h k a, h.push trivial⟩
  | take k =>
      have hswap : ∀ x : κ × α, (compare x.1 k == .eq) = (compare k x.1 == .eq) := by
        intro x
        rw [Std.OrientedOrd.eq_swap]
        cases compare k x.1 <;> rfl
      refine ⟨?_, h.tidy.take k, h.limit, (Nat.sub_le _ _).trans h.bounded, fun _ _ => trivial⟩
      simp only [PriorityList.operate, operate, under, toList_take, take_eq_filter, hswap, bne]
  | dropBelow bound =>
      refine ⟨?_, h.tidy.dropBelow bound, h.limit, (Nat.sub_le _ _).trans h.bounded,
        fun _ _ => trivial⟩
      rw [PriorityList.operate, operate, toList_dropBelow]

/-- No operation takes more off the count than there is. -/
theorem Tidy.loss_le (h : b.Tidy) (op : Operation κ α) : b.loss op ≤ b.count := by
  cases op with
  | push k a =>
      rw [loss]
      split
      · exact Nat.zero_le _
      · rename_i hkept
        simp only [not_or, push?] at hkept
        obtain ⟨hfull, hsome⟩ := hkept
        rw [if_neg hfull] at hsome
        split at hsome
        · exact absurd rfl hsome
        · rename_i hlast
          exact h.count_pos (List.mem_of_getLast? hlast)
  | take k =>
      rw [loss, length_take, h.count]
      exact List.length_filter_le _ _
  | dropBelow bound =>
      rw [loss, length_below, h.count]
      exact List.length_filter_le _ _

/-- Operations on a backlog in order are answered as those on its list, and lead to the list of the
backlog that they lead to. -/
theorem run_toList
    (h : b.InOrder limit fun _ _ => True) (ops : List (Operation κ α)) :
    run (PriorityList.operate limit) b.toList ops =
        ((run operate b ops).1, (run operate b ops).2.toList) ∧
      (run operate b ops).2.InOrder limit fun _ _ => True := by
  induction ops generalizing b with
  | nil => exact ⟨rfl, h⟩
  | cons op rest ih =>
      obtain ⟨hstep, hnext⟩ := operate_toList h op
      obtain ⟨hrest, hlast⟩ := ih hnext
      refine ⟨?_, hlast⟩
      rw [run, hstep, hrest]
      rfl

/-- A backlog holds the items of a sorted list within the limit, and its count is that of the
list. -/
structure Represents (b : Backlog κ α) (limit : Nat) (l : List (κ × α)) : Prop where
  toList : b.toList = l
  sorted : Sorted l
  bounded : l.length ≤ limit
  count : b.count = l.length
  loss : ∀ op, b.loss op ≤ b.count

theorem InOrder.represents
    {p : κ → α → Prop} (h : b.InOrder limit p) : b.Represents limit b.toList where
  toList := rfl
  sorted := b.sorted_toList
  bounded := h.tidy.count ▸ h.bounded
  count := h.tidy.count
  loss := h.tidy.loss_le

/-- A backlog gives the same answers as a list that is kept sorted and cut off at the limit, and
holds what the list holds.  If nothing is removed, these are the first of all items that were
pushed, sorted by their keys and under one key in the order of arrival. -/
theorem refines_priority_list (limit : Nat) :
    (∀ ops : List (Operation κ α),
      (run operate (empty limit) ops).1 = (run (PriorityList.operate limit) [] ops).1 ∧
        (run operate (empty limit) ops).2.Represents limit
          (run (PriorityList.operate limit) [] ops).2) ∧
    ∀ items : List (κ × α),
      (run operate (empty limit) (items.map fun x => .push x.1 x.2)).2.toList =
        (items.mergeSort atMost).take limit := by
  have hstart : (empty limit : Backlog κ α).InOrder limit fun _ _ => True :=
    inOrder_empty limit _
  refine ⟨fun ops => ?_, fun items => ?_⟩
  · obtain ⟨hsame, hinOrder⟩ := run_toList hstart ops
    change run (PriorityList.operate limit) [] ops = _ at hsame
    rw [hsame]
    exact ⟨rfl, hinOrder.represents⟩
  · obtain ⟨hsame, -⟩ := run_toList hstart (items.map fun x => .push x.1 x.2)
    have hsorted := PriorityList.run_pushes limit [] items
    rw [List.mergeSort_nil, List.take_nil, List.nil_append] at hsorted
    rw [← hsorted]
    exact (congrArg (·.2) hsame).symm

/-- With room for two, the third of five items is turned away, the fourth takes the place of the
second, and the fifth comes too late for its key. -/
theorem refines_priority_list_of_two :
    let pushes : List (UInt64 × Nat) := [(5, 0), (9, 1), (10, 2), (6, 3), (6, 4)]
    let ops := pushes.map (fun x => Operation.push x.1 x.2) ++ [.take 9, .dropBelow 6, .take 6]
    (run operate (empty 2) ops).1 =
        [.kept true, .kept true, .kept false, .kept true, .kept false,
          .taken [], .done, .taken [3]] ∧
      (run operate (empty 2) ops).2.Represents 2 [] ∧
        (run operate (empty 2) (pushes.map fun x => .push x.1 x.2)).2.toList =
          (pushes.mergeSort atMost).take 2 := by
  intro pushes ops
  obtain ⟨hany, hpushes⟩ := @refines_priority_list UInt64 Nat _ _ _ 2
  obtain ⟨hanswers, hend⟩ := hany ops
  refine ⟨?_, ?_, hpushes pushes⟩
  · rw [hanswers]
    decide +kernel
  · have hempty : (run (PriorityList.operate 2) [] ops).2 = [] := by decide +kernel
    rwa [hempty] at hend

end Backlog

end QuorumChain
