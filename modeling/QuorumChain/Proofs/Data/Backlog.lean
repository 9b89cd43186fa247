import Mathlib.Data.List.Perm.Basic
import Mathlib.Data.List.Sort
import QuorumChain.Proofs.Data.SortedMap

/-!
# Backlogs as lists

Read in order, a backlog is the list of its items: smallest key first and, under each key, in
the order of arrival.  A new item goes behind those whose keys are not greater, taking and
dropping keys filters the list, and making room cuts off its last item.  A tidy backlog counts
its items and has no empty bucket; it is determined by its list.
-/

namespace QuorumChain

namespace SortedMap

variable {κ α : Type} [Ord κ] [Std.LawfulEqOrd κ]

/-- Maps with the same values under all keys are equal. -/
theorem ext_get? [Std.TransOrd κ] {m m' : SortedMap κ α} (h : ∀ k, m.get? k = m'.get? k) :
    m = m' := by
  apply ext
  have hperm : m.entries.Perm m'.entries := by
    refine (List.perm_ext_iff_of_nodup m.nodup_keys.of_map m'.nodup_keys.of_map).mpr ?_
    rintro ⟨k, a⟩
    rw [← get?_eq_some, ← get?_eq_some, h]
  refine hperm.eq_of_pairwise ?_ m.ordered m'.ordered
  intro x y _ _ hxy hyx
  rw [Std.OrientedOrd.eq_swap, hyx] at hxy
  contradiction

theorem get?_insert_self
    [Std.TransOrd κ] (m : SortedMap κ α) (k : κ) (a : α) : (m.insert k a).get? k = some a :=
  get?_eq_some.mpr (mem_insertEntry_self k a m.entries)

theorem get?_insert_of_ne
    [Std.TransOrd κ] {m : SortedMap κ α} {k k' : κ} {a : α} (h : k ≠ k') :
    (m.insert k' a).get? k = m.get? k := by
  ext v
  rw [get?_eq_some, get?_eq_some]
  constructor
  · intro hmem
    rcases mem_insertEntry hmem with heq | hmem
    · exact absurd (congrArg (·.1) heq) h
    · exact hmem
  · exact fun hmem => mem_insertEntry_of_mem hmem h

/-- An entry whose key is not kept makes no difference to what is kept. -/
theorem filter_insert
    [Std.TransOrd κ] {m : SortedMap κ α} {k : κ} {a : α} {p : κ → α → Bool}
    (h : ∀ b, p k b = false) : (m.insert k a).filter p = m.filter p := by
  apply ext
  show (insertEntry k a m.entries).filter _ = m.entries.filter _
  generalize m.entries = l
  induction l with
  | nil => simp [insertEntry, h]
  | cons e rest ih =>
      rw [insertEntry]
      split
      · rw [List.filter_cons_of_neg (by simp [h])]
      · rename_i heq
        obtain rfl := Std.LawfulEqCmp.eq_of_compare heq
        rw [List.filter_cons_of_neg (by simp [h]), List.filter_cons_of_neg (by simp [h])]
      · rw [List.filter_cons, List.filter_cons, ih]

theorem get?_dropBelow_self
    [Std.TransOrd κ] (m : SortedMap κ α) (k : κ) : (m.dropBelow k).get? k = m.get? k := by
  ext v
  rw [get?_eq_some, get?_eq_some]
  constructor
  · exact mem_of_mem_filter
  · intro hmem
    refine List.mem_filter.mpr ⟨hmem, ?_⟩
    dsimp only
    rw [Std.ReflOrd.compare_self]
    rfl

theorem get?_erase_of_ne
    {m : SortedMap κ α} {k k' : κ} (h : k ≠ k') : (m.erase k').get? k = m.get? k := by
  ext v
  rw [get?_eq_some, get?_eq_some]
  constructor
  · exact mem_of_mem_filter
  · intro hmem
    refine List.mem_filter.mpr ⟨hmem, bne_iff_ne.mpr fun heq => h ?_⟩
    exact (Std.LawfulEqCmp.eq_of_compare heq).symm

theorem get?_erase_self (m : SortedMap κ α) (k : κ) : (m.erase k).get? k = none := by
  refine Option.eq_none_iff_forall_ne_some.mpr fun a hmem => ?_
  have hkept := (List.mem_filter.mp (get?_eq_some.mp hmem)).2
  dsimp only at hkept
  rw [Std.ReflOrd.compare_self] at hkept
  contradiction

end SortedMap

namespace Backlog

section Spread

variable {κ α : Type}

/-- The items of some buckets with their keys. -/
def spread (l : List (κ × List α)) : List (κ × α) :=
  l.flatMap fun e => e.2.map fun a => (e.1, a)

@[simp] theorem spread_nil : spread ([] : List (κ × List α)) = [] := rfl

@[simp] theorem spread_cons (e : κ × List α) (l : List (κ × List α)) :
    spread (e :: l) = (e.2.map fun a => (e.1, a)) ++ spread l := rfl

@[simp] theorem spread_append (l l' : List (κ × List α)) :
    spread (l ++ l') = spread l ++ spread l' :=
  List.flatMap_append

/-- Choosing items by their keys is choosing buckets. -/
theorem filter_spread (p : κ → Bool) (l : List (κ × List α)) :
    (spread l).filter (fun x => p x.1) = spread (l.filter fun e => p e.1) := by
  induction l with
  | nil => rfl
  | cons e rest ih =>
      rw [spread_cons, List.filter_append, ih, List.filter_map, List.filter_cons]
      by_cases hp : p e.1 = true
      · rw [if_pos hp, spread_cons, List.filter_eq_self.mpr]
        exact fun _ _ => hp
      · rw [if_neg hp, List.filter_eq_nil_iff.mpr, List.map_nil, List.nil_append]
        exact fun _ _ => hp

theorem length_spread (l : List (κ × List α)) :
    (spread l).length = (l.map (·.2)).flatten.length := by
  induction l with
  | nil => rfl
  | cons e rest ih =>
      rw [spread_cons, List.map_cons, List.flatten_cons, List.length_append, List.length_append, ih,
        List.length_map]

end Spread

variable {κ α : Type} [Ord κ]

theorem toList_eq_spread (b : Backlog κ α) : b.toList = spread b.buckets.entries := rfl

/-- The count is right and no bucket is empty. -/
structure Tidy (b : Backlog κ α) : Prop where
  count : b.count = b.toList.length
  filled : ∀ e ∈ b.buckets.entries, e.2 ≠ []

theorem tidy_empty (limit : Nat) : (empty limit : Backlog κ α).Tidy :=
  ⟨rfl, fun _ he => absurd he List.not_mem_nil⟩

theorem Tidy.count_pos
    {b : Backlog κ α} {e : κ × List α} (h : b.Tidy) (he : e ∈ b.buckets.entries) : 0 < b.count := by
  obtain ⟨a, ha⟩ := List.exists_mem_of_ne_nil _ (h.filled e he)
  rw [h.count]
  exact List.length_pos_of_mem (List.mem_flatMap.mpr ⟨e, he, List.mem_map_of_mem ha⟩)

/-- A tidy backlog that keeps to a limit and holds nothing but items that belong under their
keys. -/
structure InOrder (b : Backlog κ α) (cap : Nat) (p : κ → α → Prop) : Prop where
  tidy : b.Tidy
  limit : b.limit = cap
  bounded : b.count ≤ cap
  placed : ∀ x ∈ b.toList, p x.1 x.2

theorem inOrder_empty (cap : Nat) (p : κ → α → Prop) : (empty cap).InOrder cap p :=
  ⟨tidy_empty cap, rfl, Nat.zero_le _, fun _ hx => absurd hx List.not_mem_nil⟩

theorem InOrder.mono
    {b : Backlog κ α} {cap : Nat} {p q : κ → α → Prop} (h : b.InOrder cap p)
    (hpq : ∀ k a, p k a → q k a) : b.InOrder cap q :=
  ⟨h.tidy, h.limit, h.bounded, fun x hx => hpq _ _ (h.placed x hx)⟩

/-! ## Taking and dropping keys -/

theorem toList_dropBelow (b : Backlog κ α) (bound : κ) :
    (b.dropBelow bound).toList = b.toList.filter fun x => compare x.1 bound != .lt :=
  (filter_spread (fun k => compare k bound != .lt) b.buckets.entries).symm

theorem toList_take (b : Backlog κ α) (k : κ) :
    (b.take k).2.toList = b.toList.filter fun x => compare k x.1 != .eq :=
  (filter_spread (fun k' => compare k k' != .eq) b.buckets.entries).symm

/-- The items under a key, and the backlog of those under greater keys. -/
def release (b : Backlog κ α) (k : κ) : List α × Backlog κ α :=
  (b.dropBelow k).take k

theorem length_below (b : Backlog κ α) (bound : κ) :
    (b.buckets.filter fun k _ => compare k bound == .lt).values.flatten.length =
      (b.toList.filter fun x => compare x.1 bound == .lt).length := by
  rw [toList_eq_spread, filter_spread (fun k => compare k bound == .lt), length_spread]
  rfl

/-- Dropping keys takes as much off the count as off the list. -/
theorem Tidy.dropBelow {b : Backlog κ α} (h : b.Tidy) (bound : κ) : (b.dropBelow bound).Tidy where
  count := by
    have hsplit := List.length_eq_length_filter_add (l := b.toList)
      fun x => compare x.1 bound == .lt
    rw [toList_dropBelow]
    show b.count - _ = _
    rw [length_below, h.count]
    simp only [bne]
    omega
  filled e he := h.filled e (SortedMap.mem_of_mem_filter he)

/-! ## Splitting at a key -/

section Split

/-- A list in order splits into those in front, which have a property, and the others, if all
that stands before something with the property has it as well. -/
theorem eq_filter_append_filter
    {β : Type} {R : β → β → Prop} {p : β → Bool} {l : List β} (h : l.Pairwise R)
    (hp : ∀ x y, R x y → p y = true → p x = true) : l = l.filter p ++ l.filter (!p ·) := by
  induction l with
  | nil => rfl
  | cons x rest ih =>
      obtain ⟨hfirst, hrest⟩ := List.pairwise_cons.mp h
      by_cases hx : p x = true
      · rw [List.filter_cons_of_pos hx, List.filter_cons_of_neg (by simpa using hx),
          List.cons_append, ← ih hrest]
      · have hnone : ∀ y ∈ x :: rest, ¬p y = true :=
          List.forall_mem_cons.mpr ⟨hx, fun y hy hpy => hx (hp x y (hfirst y hy) hpy)⟩
        rw [List.filter_eq_nil_iff.mpr hnone, List.nil_append, List.filter_eq_self.mpr]
        intro y hy
        simpa using hnone y hy

variable [Std.TransOrd κ]

/-- Buckets split at a key, because they are ordered. -/
theorem entries_split (m : SortedMap κ (List α)) (k : κ) :
    m.entries = (m.entries.filter fun e => compare k e.1 != .lt) ++
      m.entries.filter fun e => compare k e.1 == .lt := by
  have hsplit := eq_filter_append_filter (p := fun e => compare k e.1 != .lt) m.ordered ?_
  · simpa only [bne, Bool.not_not] using hsplit
  · intro x y hxy hy
    rw [bne_iff_ne] at hy ⊢
    exact fun hx => hy (Std.TransCmp.lt_trans hx hxy)

theorem toList_split (b : Backlog κ α) (k : κ) :
    b.toList = (b.toList.filter fun x => compare k x.1 != .lt) ++
      b.toList.filter fun x => compare k x.1 == .lt := by
  rw [toList_eq_spread, filter_spread (fun k' => compare k k' != .lt),
    filter_spread (fun k' => compare k k' == .lt), ← spread_append, ← entries_split]

theorem push_of_lt {b : Backlog κ α} (h : b.count < b.limit) (k : κ) (a : α) :
    b.push k a = b.append k a := by
  rw [push, push?, if_pos h, Option.getD_some]

theorem toList_release (b : Backlog κ α) (k : κ) :
    (b.release k).2.toList = b.toList.filter fun x => compare k x.1 == .lt := by
  rw [release, toList_take, toList_dropBelow, List.filter_filter]
  apply List.filter_congr
  intro x _
  rw [Std.OrientedOrd.eq_swap (a := x.1)]
  cases compare k x.1 <;> rfl

end Split

variable [Std.LawfulEqOrd κ]

/-- What is under a key stands in the list in the same order. -/
theorem getD_get?_eq_filter (m : SortedMap κ (List α)) (k : κ) :
    (m.get? k).getD [] = ((spread m.entries).filter fun x => compare k x.1 == .eq).map (·.2) := by
  obtain ⟨l, hl⟩ := m
  rw [filter_spread (fun k' => compare k k' == .eq), SortedMap.get?]
  dsimp only
  induction l with
  | nil => rfl
  | cons e rest ih =>
      obtain ⟨hfirst, hrest⟩ := List.pairwise_cons.mp hl
      by_cases heq : compare k e.1 = .eq
      · obtain rfl := Std.LawfulEqCmp.eq_of_compare heq
        have hnone : (rest.filter fun x => compare e.1 x.1 == .eq) = [] := by
          rw [List.filter_eq_nil_iff]
          intro x hx
          rw [hfirst x hx]
          decide
        simp [hnone, Function.comp_def]
      · rw [List.find?_cons, List.filter_cons, beq_eq_false_iff_ne.mpr heq]
        exact ih hrest

theorem take_eq_filter (b : Backlog κ α) (k : κ) :
    (b.take k).1 = (b.toList.filter fun x => compare k x.1 == .eq).map (·.2) :=
  getD_get?_eq_filter b.buckets k

theorem length_take (b : Backlog κ α) (k : κ) :
    (b.take k).1.length = (b.toList.filter fun x => compare k x.1 == .eq).length := by
  rw [take_eq_filter, List.length_map]

theorem Tidy.take {b : Backlog κ α} (h : b.Tidy) (k : κ) : (b.take k).2.Tidy where
  count := by
    have hsplit := List.length_eq_length_filter_add (l := b.toList) fun x => compare k x.1 == .eq
    rw [toList_take]
    show b.count - (b.take k).1.length = _
    rw [length_take, h.count]
    simp only [bne]
    omega
  filled e he := h.filled e (SortedMap.mem_of_mem_filter he)

theorem Tidy.release {b : Backlog κ α} (h : b.Tidy) (k : κ) : (b.release k).2.Tidy :=
  (h.dropBelow k).take k

variable [Std.TransOrd κ]

/-- A tidy backlog is determined by its list and its limit. -/
theorem Tidy.ext
    {b b' : Backlog κ α} (h : b.Tidy) (h' : b'.Tidy) (hlimit : b.limit = b'.limit)
    (hlist : b.toList = b'.toList) : b = b' := by
  have hbuckets : b.buckets = b'.buckets := by
    apply SortedMap.ext_get?
    intro k
    have hsame : (b.buckets.get? k).getD [] = (b'.buckets.get? k).getD [] := by
      rw [getD_get?_eq_filter, getD_get?_eq_filter, ← toList_eq_spread, ← toList_eq_spread, hlist]
    cases hb : b.buckets.get? k with
    | none =>
        cases hb' : b'.buckets.get? k with
        | none => rfl
        | some l' =>
            rw [hb, hb'] at hsame
            exact absurd hsame.symm (h'.filled _ (SortedMap.get?_eq_some.mp hb'))
    | some l =>
        cases hb' : b'.buckets.get? k with
        | none =>
            rw [hb, hb'] at hsame
            exact absurd hsame (h.filled _ (SortedMap.get?_eq_some.mp hb))
        | some l' =>
            rw [hb, hb'] at hsame
            exact congrArg some hsame
  have hcount : b.count = b'.count := by rw [h.count, h'.count, hlist]
  cases b
  cases b'
  cases hlimit
  cases hcount
  cases hbuckets
  rfl

/-! ## New items -/

theorem spread_insert (m : SortedMap κ (List α)) (k : κ) (a : α) :
    spread (m.insert k ((m.get? k).getD [] ++ [a])).entries =
      spread (m.entries.filter fun e => compare k e.1 != .lt) ++
        (k, a) :: spread (m.entries.filter fun e => compare k e.1 == .lt) := by
  obtain ⟨l, hl⟩ := m
  rw [SortedMap.get?, SortedMap.insert]
  dsimp only
  induction l with
  | nil => rfl
  | cons e rest ih =>
      obtain ⟨hfirst, hrest⟩ := List.pairwise_cons.mp hl
      rw [SortedMap.insertEntry]
      cases hcompare : compare k e.1 with
      | lt =>
          have habove : ∀ x ∈ e :: rest, compare k x.1 = .lt := by
            intro x hx
            rcases List.mem_cons.mp hx with rfl | hx
            · exact hcompare
            · exact Std.TransCmp.lt_trans hcompare (hfirst x hx)
          have hnone : (e :: rest).find? (fun x => compare k x.1 == .eq) = none := by
            rw [List.find?_eq_none]
            intro x hx
            rw [habove x hx]
            decide
          rw [hnone, List.filter_eq_nil_iff.mpr, List.filter_eq_self.mpr]
          · rfl
          · intro x hx
            rw [habove x hx]
            rfl
          · intro x hx
            rw [habove x hx]
            decide
      | eq =>
          obtain rfl := Std.LawfulEqCmp.eq_of_compare hcompare
          have hbelow : (rest.filter fun x => compare e.1 x.1 != .lt) = [] := by
            rw [List.filter_eq_nil_iff]
            intro x hx
            rw [hfirst x hx]
            decide
          have habove : (rest.filter fun x => compare e.1 x.1 == .lt) = rest := by
            rw [List.filter_eq_self]
            intro x hx
            rw [hfirst x hx]
            rfl
          simp [hbelow, habove]
      | gt =>
          have hskip : (e :: rest).find? (fun x => compare k x.1 == .eq) =
              rest.find? fun x => compare k x.1 == .eq := by
            rw [List.find?_cons, hcompare]
            rfl
          rw [hskip, List.filter_cons, List.filter_cons, hcompare]
          show (e.2.map fun a => (e.1, a)) ++ spread (SortedMap.insertEntry _ _ rest) =
            ((e.2.map fun a => (e.1, a)) ++ spread _) ++ _
          rw [ih hrest, List.append_assoc]
          rfl

/-- A new item goes behind those whose keys are not greater. -/
theorem toList_append (b : Backlog κ α) (k : κ) (a : α) :
    (b.append k a).toList = (b.toList.filter fun x => compare k x.1 != .lt) ++
      (k, a) :: b.toList.filter fun x => compare k x.1 == .lt := by
  rw [toList_eq_spread b, filter_spread (fun k' => compare k k' != .lt),
    filter_spread (fun k' => compare k k' == .lt)]
  exact spread_insert b.buckets k a

theorem Tidy.append {b : Backlog κ α} (h : b.Tidy) (k : κ) (a : α) : (b.append k a).Tidy where
  count := by
    have hsplit := congrArg List.length (b.toList_split k)
    rw [toList_append]
    rw [List.length_append] at hsplit ⊢
    rw [List.length_cons]
    show b.count + 1 = _
    rw [h.count]
    omega
  filled e he := by
    rcases SortedMap.mem_insertEntry he with rfl | he
    · exact List.append_ne_nil_of_right_ne_nil _ (List.cons_ne_nil _ _)
    · exact h.filled e he

/-! ## Making room -/

theorem insertEntry_last
    {k : κ} {a a' : α} {l : List (κ × α)} (h : ∀ x ∈ l, compare x.1 k = .lt) :
    SortedMap.insertEntry k a' (l ++ [(k, a)]) = l ++ [(k, a')] := by
  induction l with
  | nil => simp [SortedMap.insertEntry, Std.ReflCmp.compare_self]
  | cons e rest ih =>
      have hgt : compare k e.1 = .gt := Std.OrientedCmp.gt_of_lt (h e List.mem_cons_self)
      rw [List.cons_append, SortedMap.insertEntry, hgt]
      exact congrArg (e :: ·) (ih fun x hx => h x (List.mem_cons_of_mem _ hx))

/-- Making room cuts off the last item. -/
theorem toList_evict
    {b : Backlog κ α} {k : κ} {bucket : List α} (hlast : b.buckets.last? = some (k, bucket))
    (hbucket : bucket ≠ []) : (b.evict k bucket).toList = b.toList.dropLast := by
  obtain ⟨front, hentries⟩ := List.getLast?_eq_some_iff.mp hlast
  have hfront : ∀ x ∈ front, compare x.1 k = .lt := by
    have hordered := b.buckets.ordered
    rw [hentries, List.pairwise_append] at hordered
    exact fun x hx => hordered.2.2 x hx (k, bucket) (List.mem_singleton_self _)
  have hlist : b.toList.dropLast = spread front ++ (bucket.dropLast.map fun a => (k, a)) := by
    rw [toList_eq_spread, hentries, spread_append, spread_cons, spread_nil, List.append_nil,
      List.dropLast_append_of_ne_nil (by simpa using hbucket), List.map_dropLast]
  rw [hlist, toList_eq_spread, evict]
  dsimp only
  split
  · rename_i hempty
    rw [List.isEmpty_iff.mp hempty, List.map_nil, List.append_nil]
    have herase : (b.buckets.erase k).entries = front := by
      show b.buckets.entries.filter _ = _
      rw [hentries, List.filter_append, List.filter_eq_self.mpr]
      · simp [Std.ReflCmp.compare_self]
      · intro x hx
        show (compare k x.1 != .eq) = true
        rw [Std.OrientedCmp.gt_of_lt (hfront x hx)]
        rfl
    rw [herase]
  · have hinsert : (b.buckets.insert k bucket.dropLast).entries =
        front ++ [(k, bucket.dropLast)] := by
      show SortedMap.insertEntry _ _ b.buckets.entries = _
      rw [hentries, insertEntry_last hfront]
    rw [hinsert, spread_append, spread_cons, spread_nil, List.append_nil]

theorem Tidy.evict
    {b : Backlog κ α} {k : κ} {bucket : List α} (h : b.Tidy)
    (hlast : b.buckets.last? = some (k, bucket)) : (b.evict k bucket).Tidy := by
  have hbucket : bucket ≠ [] := h.filled _ (List.mem_of_getLast? hlast)
  refine ⟨?_, ?_⟩
  · rw [toList_evict hlast hbucket, List.length_dropLast, ← h.count]
    rfl
  · intro e he
    simp only [Backlog.evict] at he
    split at he
    · exact h.filled e (SortedMap.mem_of_mem_filter he)
    · rename_i hrest
      rcases SortedMap.mem_insertEntry he with rfl | he
      · simpa using hrest
      · exact h.filled e he

theorem Tidy.push {b : Backlog κ α} (h : b.Tidy) (k : κ) (a : α) : (b.push k a).Tidy := by
  rw [Backlog.push, push?]
  split
  · exact h.append k a
  · split
    · exact h
    · rename_i highest bucket hlast
      split
      · exact (h.evict hlast).append k a
      · exact h

theorem get?_evict_of_ne
    {b : Backlog κ α} {k k' : κ} {bucket : List α} (h : k ≠ k') :
    (b.evict k' bucket).buckets.get? k = b.buckets.get? k := by
  rw [evict]
  dsimp only
  split
  · exact SortedMap.get?_erase_of_ne h
  · exact SortedMap.get?_insert_of_ne h

theorem append_ne
    {b b' : Backlog κ α} {k : κ} (a : α) (h : b'.buckets.get? k = b.buckets.get? k) :
    b'.append k a ≠ b := by
  intro heq
  have hbucket : (b'.append k a).buckets.get? k = some ((b'.buckets.get? k).getD [] ++ [a]) :=
    SortedMap.get?_insert_self _ _ _
  rw [heq, h] at hbucket
  have hlength := congrArg (fun bucket => (bucket.getD []).length) hbucket
  simp at hlength

theorem ne_of_push? {b b' : Backlog κ α} {k : κ} {a : α} (h : b.push? k a = some b') : b' ≠ b := by
  rw [push?] at h
  split at h
  · cases h
    exact append_ne a rfl
  · split at h
    · contradiction
    · split at h
      · rename_i highest bucket _ hlt
        cases h
        apply append_ne a
        apply get?_evict_of_ne
        rintro rfl
        rw [Std.ReflOrd.compare_self] at hlt
        contradiction
      · contradiction

/-- A backlog stays what it is only if it has no room for an item. -/
theorem push_eq_self
    {b : Backlog κ α} {k : κ} {a : α} : b.push k a = b ↔ b.push? k a = none := by
  rw [push]
  cases hpush : b.push? k a with
  | none => exact iff_of_true rfl rfl
  | some b' => exact iff_of_false (ne_of_push? hpush) (Option.some_ne_none b')

/-! ## One item more -/

section Gains

variable {β γ : Type}

/-- A list with one item more than another. -/
def Gains (x : β) (l l' : List β) : Prop :=
  ∃ front back, l = front ++ back ∧ l' = front ++ x :: back

theorem Gains.append_left
    {x : β} {l l' : List β} (h : Gains x l l') (front : List β) :
    Gains x (front ++ l) (front ++ l') := by
  obtain ⟨first, back, rfl, rfl⟩ := h
  exact ⟨front ++ first, back, (List.append_assoc ..).symm, (List.append_assoc ..).symm⟩

theorem Gains.append_right
    {x : β} {l l' : List β} (h : Gains x l l') (back : List β) :
    Gains x (l ++ back) (l' ++ back) := by
  obtain ⟨front, last, rfl, rfl⟩ := h
  exact ⟨front, last ++ back, List.append_assoc .., by simp⟩

theorem Gains.map
    {x : β} {l l' : List β} (h : Gains x l l') (f : β → γ) : Gains (f x) (l.map f) (l'.map f) := by
  obtain ⟨front, back, rfl, rfl⟩ := h
  exact ⟨front.map f, back.map f, List.map_append, by simp⟩

theorem Gains.filter_of_pos
    {x : β} {l l' : List β} {p : β → Bool} (h : Gains x l l') (hx : p x = true) :
    Gains x (l.filter p) (l'.filter p) := by
  obtain ⟨front, back, rfl, rfl⟩ := h
  refine ⟨front.filter p, back.filter p, List.filter_append .., ?_⟩
  rw [List.filter_append, List.filter_cons_of_pos hx]

theorem Gains.filter_of_neg
    {x : β} {l l' : List β} {p : β → Bool} (h : Gains x l l') (hx : p x = false) :
    l'.filter p = l.filter p := by
  obtain ⟨front, back, rfl, rfl⟩ := h
  rw [List.filter_append, List.filter_append, List.filter_cons_of_neg (by simp [hx])]

end Gains

variable {b b' : Backlog κ α} {k k' : κ} {a a' : α}

theorem gains_append (b : Backlog κ α) (k : κ) (a : α) :
    Gains (k, a) b.toList (b.append k a).toList :=
  ⟨_, _, b.toList_split k, b.toList_append k a⟩

/-- A new item goes to its place with or without another one. -/
theorem Gains.append (h : Gains (k, a) b.toList b'.toList) (k' : κ) (a' : α) :
    Gains (k, a) (b.append k' a').toList (b'.append k' a').toList := by
  rw [toList_append, toList_append]
  by_cases hlt : compare k' k = .lt
  · have hbelow := h.filter_of_neg (p := fun x => compare k' x.1 != .lt) (by simp [hlt])
    have habove := h.filter_of_pos (p := fun x => compare k' x.1 == .lt) (by simp [hlt])
    rw [hbelow]
    exact (habove.append_left [(k', a')]).append_left _
  · have hbelow := h.filter_of_pos (p := fun x => compare k' x.1 != .lt) (by simp [hlt])
    have habove := h.filter_of_neg (p := fun x => compare k' x.1 == .lt) (by simp [hlt])
    rw [habove]
    exact hbelow.append_right _

theorem release_eq_filter (b : Backlog κ α) (k : κ) :
    (b.release k).1 = (b.toList.filter fun x => compare k x.1 == .eq).map (·.2) := by
  rw [release, take_eq_filter, toList_dropBelow, List.filter_filter]
  congr 1
  apply List.filter_congr
  intro x _
  rw [Std.OrientedOrd.eq_swap (a := x.1)]
  cases compare k x.1 <;> rfl

/-- What is put under a key is the last to be released with it, and nothing else is released or
forgotten for it. -/
theorem release_append (b : Backlog κ α) (k : κ) (a : α) :
    (b.append k a).release k = ((b.release k).1 ++ [a], (b.release k).2) := by
  have hbelow : (b.append k a).buckets.filter (fun k' _ => compare k' k == .lt) =
      b.buckets.filter fun k' _ => compare k' k == .lt :=
    SortedMap.filter_insert fun _ => by
      rw [Std.ReflOrd.compare_self]
      rfl
  have htaken : ((b.append k a).release k).1 = (b.release k).1 ++ [a] := by
    show (((b.append k a).buckets.dropBelow k).get? k).getD [] =
      ((b.buckets.dropBelow k).get? k).getD [] ++ [a]
    rw [SortedMap.get?_dropBelow_self, SortedMap.get?_dropBelow_self]
    exact congrArg (·.getD []) (SortedMap.get?_insert_self b.buckets k _)
  have herased : (b.append k a).buckets.erase k = b.buckets.erase k :=
    SortedMap.filter_insert (p := fun k' _ => compare k k' != .eq) fun _ => by
      rw [Std.ReflOrd.compare_self]
      rfl
  have hswap : ∀ m : SortedMap κ (List α), (m.dropBelow k).erase k = (m.erase k).dropBelow k := by
    intro m
    apply SortedMap.ext
    show (m.entries.filter _).filter _ = (m.entries.filter _).filter _
    rw [List.filter_filter, List.filter_filter]
    exact List.filter_congr fun _ _ => Bool.and_comm _ _
  have hrest : ((b.append k a).release k).2.buckets = (b.release k).2.buckets := by
    show ((b.append k a).buckets.dropBelow k).erase k = (b.buckets.dropBelow k).erase k
    rw [hswap, hswap, herased]
  have hcount : ((b.append k a).release k).2.count = (b.release k).2.count := by
    show b.count + 1 - ((b.append k a).buckets.filter _).values.flatten.length -
      ((b.append k a).release k).1.length = b.count - (b.buckets.filter _).values.flatten.length -
        (b.release k).1.length
    rw [hbelow, htaken, List.length_append, List.length_singleton]
    omega
  refine Prod.ext htaken ?_
  show (⟨b.limit, ((b.append k a).release k).2.count, ((b.append k a).release k).2.buckets⟩ :
    Backlog κ α) = ⟨b.limit, (b.release k).2.count, (b.release k).2.buckets⟩
  rw [hcount, hrest]

/-! ## Backlogs in order -/

variable {cap : Nat} {p : κ → α → Prop}

theorem mem_toList_append {x : κ × α} :
    x ∈ (b.append k a).toList ↔ x = (k, a) ∨ x ∈ b.toList := by
  obtain ⟨front, back, hold, hnew⟩ := gains_append b k a
  rw [hold, hnew]
  simp only [List.mem_append, List.mem_cons]
  tauto

/-- A backlog in order has room for an item that belongs under its key, or makes room, or stays what
it is. -/
theorem InOrder.push (h : b.InOrder cap p) (hp : p k a) : (b.push k a).InOrder cap p := by
  have hplaced : ∀ {b' : Backlog κ α}, (∀ x ∈ b'.toList, x ∈ b.toList) →
      ∀ x ∈ (b'.append k a).toList, p x.1 x.2 := by
    intro b' hsub x hx
    rcases mem_toList_append.mp hx with rfl | hx
    · exact hp
    · exact h.placed x (hsub x hx)
  rw [Backlog.push, push?]
  split
  · rename_i hroom
    rw [h.limit] at hroom
    exact ⟨h.tidy.append k a, h.limit, hroom, hplaced fun _ => id⟩
  · split
    · exact h
    · rename_i highest bucket hlast
      split
      · have hmem : (highest, bucket) ∈ b.buckets.entries := List.mem_of_getLast? hlast
        have hcount : b.count - 1 + 1 ≤ cap := by
          rw [Nat.sub_add_cancel (h.tidy.count_pos hmem)]
          exact h.bounded
        refine ⟨(h.tidy.evict hlast).append k a, h.limit, hcount, hplaced fun x hx => ?_⟩
        rw [toList_evict hlast (h.tidy.filled _ hmem)] at hx
        exact List.dropLast_subset _ hx
      · exact h

/-- After a release, everything belongs above the key. -/
theorem InOrder.release
    (h : b.InOrder cap p) (k : κ) :
    (b.release k).2.InOrder cap fun k' a => compare k k' = .lt ∧ p k' a where
  tidy := h.tidy.release k
  limit := h.limit
  bounded := by
    have hcount : (b.release k).2.count ≤ b.count := (Nat.sub_le _ _).trans (Nat.sub_le _ _)
    exact hcount.trans h.bounded
  placed x hx := by
    rw [toList_release] at hx
    obtain ⟨hx, hlt⟩ := List.mem_filter.mp hx
    exact ⟨beq_iff_eq.mp hlt, h.placed x hx⟩

/-- What is released belongs under the key. -/
theorem InOrder.of_mem_release (h : b.InOrder cap p) (ha : a ∈ (b.release k).1) : p k a := by
  rw [release_eq_filter] at ha
  obtain ⟨x, hx, rfl⟩ := List.mem_map.mp ha
  obtain ⟨hx, heq⟩ := List.mem_filter.mp hx
  rw [Std.LawfulEqCmp.eq_of_compare (beq_iff_eq.mp heq)]
  exact h.placed x hx

end Backlog

end QuorumChain
