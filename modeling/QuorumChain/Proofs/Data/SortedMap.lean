import Mathlib.Data.List.Nodup
import QuorumChain.Data.Backlog

/-!
# What maps and backlogs hold

A map holds the entries put into it, at most one under each key, and loses none but by removal.  A
backlog holds nothing that was not put into it.
-/

namespace QuorumChain

namespace SortedMap

variable {κ α : Type} [Ord κ]

/-- The map with an entry, unless the key has one already. -/
def keepFirst [Std.TransOrd κ] (m : SortedMap κ α) (k : κ) (a : α) : SortedMap κ α :=
  (m.insertNew? k a).getD m

theorem mem_values
    {m : SortedMap κ α} {a : α} :
    a ∈ m.values ↔ ∃ k, (k, a) ∈ m.entries := by
  simp [values]

theorem mem_of_mem_filter
    {m : SortedMap κ α} {keep : κ → α → Bool} {x : κ × α}
    (hx : x ∈ (m.filter keep).entries) : x ∈ m.entries :=
  (List.mem_filter.mp hx).1

theorem mem_insertEntry_self
    (k : κ) (a : α) (l : List (κ × α)) : (k, a) ∈ insertEntry k a l := by
  induction l with
  | nil => exact List.mem_cons_self
  | cons e rest ih =>
      simp only [insertEntry]
      split
      · exact List.mem_cons_self
      · exact List.mem_cons_self
      · exact List.mem_cons_of_mem _ ih

variable [Std.LawfulEqOrd κ]

theorem contains_eq_true
    {m : SortedMap κ α} {k : κ} : m.contains k = true ↔ ∃ a, (k, a) ∈ m.entries := by
  simp only [contains, List.any_eq_true, beq_iff_eq]
  constructor
  · rintro ⟨⟨k', a⟩, hmem, heq⟩
    obtain rfl := Std.LawfulEqCmp.eq_of_compare heq
    exact ⟨a, hmem⟩
  · rintro ⟨a, hmem⟩
    exact ⟨(k, a), hmem, Std.ReflCmp.compare_self⟩

theorem mem_insertEntry_of_mem
    {k : κ} {a : α} {x : κ × α} {l : List (κ × α)} (hx : x ∈ l) (hk : x.1 ≠ k) :
    x ∈ insertEntry k a l := by
  induction l with
  | nil => contradiction
  | cons e rest ih =>
      simp only [insertEntry]
      split
      · exact List.mem_cons_of_mem _ hx
      · rename_i heq
        obtain rfl := Std.LawfulEqCmp.eq_of_compare heq
        rcases List.mem_cons.mp hx with rfl | hx
        · contradiction
        · exact List.mem_cons_of_mem _ hx
      · rcases List.mem_cons.mp hx with rfl | hx
        · exact List.mem_cons_self
        · exact List.mem_cons_of_mem _ (ih hx)

/-- No key has two entries. -/
theorem nodup_keys (m : SortedMap κ α) : (m.entries.map (·.1)).Nodup := by
  rw [List.nodup_iff_pairwise_ne, List.pairwise_map]
  refine m.ordered.imp fun {a b} hlt heq => ?_
  rw [heq, Std.ReflOrd.compare_self] at hlt
  contradiction

theorem get?_eq_some
    {m : SortedMap κ α} {k : κ} {a : α} : m.get? k = some a ↔ (k, a) ∈ m.entries := by
  simp only [get?, Option.map_eq_some_iff]
  constructor
  · rintro ⟨⟨k', a'⟩, hfind, rfl⟩
    have heq := List.find?_some hfind
    obtain rfl := Std.LawfulEqCmp.eq_of_compare (beq_iff_eq.mp heq)
    exact List.mem_of_find?_eq_some hfind
  · intro hmem
    have hsome : (m.entries.find? fun e => compare k e.1 == .eq).isSome := by
      rw [List.find?_isSome]
      exact ⟨(k, a), hmem, beq_iff_eq.mpr Std.ReflCmp.compare_self⟩
    obtain ⟨⟨k', a'⟩, hfind⟩ := Option.isSome_iff_exists.mp hsome
    have heq := List.find?_some hfind
    obtain rfl := Std.LawfulEqCmp.eq_of_compare (beq_iff_eq.mp heq)
    refine ⟨(k, a'), hfind, ?_⟩
    have hnodup := List.inj_on_of_nodup_map m.nodup_keys
      (List.mem_of_find?_eq_some hfind) hmem rfl
    cases hnodup
    rfl

theorem perm_insertEntry
    {k : κ} {l : List (κ × α)} (h : ∀ b, (k, b) ∉ l) (a : α) :
    (insertEntry k a l).Perm ((k, a) :: l) := by
  induction l with
  | nil => exact .refl _
  | cons e rest ih =>
      have hrest : ∀ b, (k, b) ∉ rest := fun b hb => h b (List.mem_cons_of_mem _ hb)
      simp only [insertEntry]
      split
      · exact .refl _
      · rename_i heq
        obtain rfl := Std.LawfulEqCmp.eq_of_compare heq
        exact absurd List.mem_cons_self (h e.2)
      · exact ((ih hrest).cons e).trans (.swap _ _ rest)

variable [Std.TransOrd κ]

/-- A new entry is put under a key that has none, and the others stay. -/
theorem insertNew?_eq_some
    {m m' : SortedMap κ α} {k : κ} {a : α} (h : m.insertNew? k a = some m') :
    (∀ b, (k, b) ∉ m.entries) ∧ ∀ x, x ∈ m'.entries ↔ x = (k, a) ∨ x ∈ m.entries := by
  rw [insertNew?] at h
  split at h
  · contradiction
  · rename_i hnew
    cases h
    have hfree : ∀ b, (k, b) ∉ m.entries := by
      intro b hb
      exact hnew (contains_eq_true.mpr ⟨b, hb⟩)
    refine ⟨hfree, fun x => ⟨mem_insertEntry, ?_⟩⟩
    rintro (rfl | hx)
    · exact mem_insertEntry_self k a m.entries
    · apply mem_insertEntry_of_mem hx
      intro hk
      apply hfree x.2
      rwa [← hk]

theorem insertNew?_eq_none
    {m : SortedMap κ α} {k : κ} {a : α} (h : m.insertNew? k a = none) :
    ∃ b, (k, b) ∈ m.entries := by
  rw [insertNew?] at h
  split at h
  · rename_i hknown
    exact contains_eq_true.mp hknown
  · contradiction

theorem mem_keepFirst
    {m : SortedMap κ α} {k : κ} {a : α} {x : κ × α}
    (hx : x ∈ (m.keepFirst k a).entries) : x = (k, a) ∨ x ∈ m.entries := by
  rw [keepFirst] at hx
  cases hnew : m.insertNew? k a with
  | none =>
      rw [hnew] at hx
      exact .inr hx
  | some m' =>
      rw [hnew] at hx
      exact ((insertNew?_eq_some hnew).2 x).mp hx

theorem mem_keepFirst_of_mem
    {m : SortedMap κ α} {k : κ} {a : α} {x : κ × α}
    (hx : x ∈ m.entries) : x ∈ (m.keepFirst k a).entries := by
  rw [keepFirst]
  cases hnew : m.insertNew? k a with
  | none => exact hx
  | some m' => exact ((insertNew?_eq_some hnew).2 x).mpr (.inr hx)

/-- The key has an entry afterwards. -/
theorem exists_mem_keepFirst
    (m : SortedMap κ α) (k : κ) (a : α) : ∃ b, (k, b) ∈ (m.keepFirst k a).entries := by
  rw [keepFirst]
  cases hnew : m.insertNew? k a with
  | none => exact insertNew?_eq_none hnew
  | some m' => exact ⟨a, ((insertNew?_eq_some hnew).2 (k, a)).mpr (.inl rfl)⟩

/-- Under a new key, an entry is kept beside all others. -/
theorem perm_keepFirst
    {m : SortedMap κ α} {k : κ} (h : ∀ b, (k, b) ∉ m.entries) (a : α) :
    (m.keepFirst k a).entries.Perm ((k, a) :: m.entries) := by
  rw [keepFirst, insertNew?, if_neg]
  · exact perm_insertEntry h a
  · intro hknown
    obtain ⟨b, hb⟩ := contains_eq_true.mp hknown
    exact h b hb

theorem length_filter_keepFirst
    {m : SortedMap κ α} {k : κ} (h : ∀ b, (k, b) ∉ m.entries) (a : α) (p : α → Bool) :
    ((m.keepFirst k a).values.filter p).length =
      (m.values.filter p).length + if p a = true then 1 else 0 := by
  have hperm := ((perm_keepFirst h a).map (·.2)).filter p
  refine hperm.length_eq.trans ?_
  rw [List.map_cons, List.filter_cons, values]
  split
  · rw [List.length_cons]
  · rw [Nat.add_zero]

end SortedMap

namespace Backlog

variable {κ α : Type} [Ord κ]

/-- Whether a backlog holds an item. -/
def Holds (b : Backlog κ α) (a : α) : Prop :=
  ∃ e ∈ b.buckets.entries, a ∈ e.2

theorem not_holds_empty {limit : Nat} {a : α} : ¬(empty limit : Backlog κ α).Holds a := by
  rintro ⟨e, he, -⟩
  exact List.not_mem_nil he

theorem holds_of_mem_get?
    [Std.LawfulEqOrd κ] {b : Backlog κ α} {k : κ} {a : α}
    (h : a ∈ (b.buckets.get? k).getD []) : b.Holds a := by
  cases hbucket : b.buckets.get? k with
  | none =>
      rw [hbucket] at h
      exact absurd h List.not_mem_nil
  | some bucket =>
      rw [hbucket] at h
      exact ⟨(k, bucket), SortedMap.get?_eq_some.mp hbucket, h⟩

/-- What is taken out was held. -/
theorem holds_of_mem_take
    [Std.LawfulEqOrd κ] {b : Backlog κ α} {k : κ} {a : α} (h : a ∈ (b.take k).1) : b.Holds a :=
  holds_of_mem_get? h

theorem holds_of_holds_take
    {b : Backlog κ α} {k : κ} {a : α} (h : (b.take k).2.Holds a) : b.Holds a := by
  obtain ⟨e, he, ha⟩ := h
  exact ⟨e, SortedMap.mem_of_mem_filter he, ha⟩

theorem holds_of_holds_dropBelow
    {b : Backlog κ α} {k : κ} {a : α} (h : (b.dropBelow k).Holds a) : b.Holds a := by
  obtain ⟨e, he, ha⟩ := h
  exact ⟨e, SortedMap.mem_of_mem_filter he, ha⟩

variable [Std.TransOrd κ]

theorem holds_evict
    {b : Backlog κ α} {k : κ} {bucket : List α} {a : α}
    (hbucket : (k, bucket) ∈ b.buckets.entries) (h : (b.evict k bucket).Holds a) :
    b.Holds a := by
  obtain ⟨e, he, ha⟩ := h
  simp only [evict] at he
  split at he
  · exact ⟨e, SortedMap.mem_of_mem_filter he, ha⟩
  · rcases SortedMap.mem_insertEntry he with rfl | he
    · exact ⟨(k, bucket), hbucket, List.dropLast_subset bucket ha⟩
    · exact ⟨e, he, ha⟩

variable [Std.LawfulEqOrd κ]

theorem holds_append
    {b : Backlog κ α} {k : κ} {a a' : α} (h : (b.append k a).Holds a') :
    a' = a ∨ b.Holds a' := by
  obtain ⟨e, he, ha'⟩ := h
  rcases SortedMap.mem_insertEntry he with rfl | he
  · rcases List.mem_append.mp ha' with ha' | ha'
    · exact .inr (holds_of_mem_get? ha')
    · exact .inl (List.mem_singleton.mp ha')
  · exact .inr ⟨e, he, ha'⟩

/-- A backlog gains at most the item pushed. -/
theorem holds_push
    {b : Backlog κ α} {k : κ} {a a' : α} (h : (b.push k a).Holds a') :
    a' = a ∨ b.Holds a' := by
  rw [push, push?] at h
  split at h
  · exact holds_append h
  · split at h
    · exact .inr h
    · rename_i highest bucket hlast
      have hbucket : (highest, bucket) ∈ b.buckets.entries := List.mem_of_getLast? hlast
      split at h
      · rcases holds_append h with rfl | h
        · exact .inl rfl
        · exact .inr (holds_evict hbucket h)
      · exact .inr h

end Backlog

end QuorumChain
