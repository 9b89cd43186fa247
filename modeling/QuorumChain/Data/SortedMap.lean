/-!
# Maps kept in key order

Votes, buffered messages and round-change requests are all listed in the order of their keys.  A
map is the list of its entries in strictly increasing key order, so a map has one representation
and equal maps are equal values.
-/

namespace QuorumChain

/-- A finite map from `κ` to `α`, listed in increasing key order. -/
structure SortedMap (κ : Type) (α : Type) [Ord κ] where
  /-- The entries, smallest key first. -/
  entries : List (κ × α)
  /-- Each key is smaller than every later one. -/
  ordered : entries.Pairwise fun a b => compare a.1 b.1 = .lt

namespace SortedMap

variable {κ α : Type} [Ord κ]

theorem ext {a b : SortedMap κ α} (h : a.entries = b.entries) : a = b := by
  cases a
  cases b
  cases h
  rfl

instance [DecidableEq κ] [DecidableEq α] : DecidableEq (SortedMap κ α) := fun a b =>
  if h : a.entries = b.entries then isTrue (ext h) else isFalse fun e => h (e ▸ rfl)

/-- The map without entries. -/
def empty : SortedMap κ α :=
  ⟨[], .nil⟩

instance : EmptyCollection (SortedMap κ α) :=
  ⟨empty⟩

instance : Inhabited (SortedMap κ α) :=
  ⟨empty⟩

/-- The keys in increasing order. -/
def keys (m : SortedMap κ α) : List κ :=
  m.entries.map (·.1)

/-- The values in the order of their keys. -/
def values (m : SortedMap κ α) : List α :=
  m.entries.map (·.2)

/-- The number of entries. -/
def size (m : SortedMap κ α) : Nat :=
  m.entries.length

/-- Whether there is no entry. -/
def isEmpty (m : SortedMap κ α) : Bool :=
  m.entries.isEmpty

/-- The value under a key. -/
def get? (m : SortedMap κ α) (k : κ) : Option α :=
  (m.entries.find? fun e => compare k e.1 == .eq).map (·.2)

/-- Whether a key has a value. -/
def contains (m : SortedMap κ α) (k : κ) : Bool :=
  m.entries.any fun e => compare k e.1 == .eq

/-- Put an entry at its place in a list ordered by key, in place of one with the same key. -/
def insertEntry (k : κ) (a : α) : List (κ × α) → List (κ × α)
  | [] => [(k, a)]
  | e :: rest =>
    match compare k e.1 with
    | .lt => (k, a) :: e :: rest
    | .eq => (k, a) :: rest
    | .gt => e :: insertEntry k a rest

theorem mem_insertEntry {k : κ} {a : α} {x : κ × α} {l : List (κ × α)}
    (h : x ∈ insertEntry k a l) : x = (k, a) ∨ x ∈ l := by
  induction l with
  | nil => simpa [insertEntry] using h
  | cons e rest ih =>
    simp only [insertEntry] at h
    split at h
    · simpa using h
    · rcases List.mem_cons.1 h with rfl | h
      · exact .inl rfl
      · exact .inr (List.mem_cons_of_mem _ h)
    · rcases List.mem_cons.1 h with rfl | h
      · exact .inr List.mem_cons_self
      · exact (ih h).imp_right (List.mem_cons_of_mem _)

theorem ordered_insertEntry [Std.TransOrd κ] (k : κ) (a : α) {l : List (κ × α)}
    (h : l.Pairwise fun x y => compare x.1 y.1 = .lt) :
    (insertEntry k a l).Pairwise fun x y => compare x.1 y.1 = .lt := by
  induction l with
  | nil => simp [insertEntry]
  | cons e rest ih =>
    obtain ⟨he, hrest⟩ := List.pairwise_cons.1 h
    simp only [insertEntry]
    split
    · rename_i hlt
      refine List.pairwise_cons.2 ⟨fun y hy => ?_, h⟩
      rcases List.mem_cons.1 hy with rfl | hy
      · exact hlt
      · exact Std.TransCmp.lt_trans hlt (he y hy)
    · rename_i heq
      exact List.pairwise_cons.2 ⟨fun y hy => Std.TransCmp.lt_of_eq_of_lt heq (he y hy), hrest⟩
    · rename_i hgt
      refine List.pairwise_cons.2 ⟨fun y hy => ?_, ih hrest⟩
      rcases mem_insertEntry hy with rfl | hy
      · exact Std.OrientedCmp.lt_of_gt hgt
      · exact he y hy

/-- Set the value under a key. -/
def insert [Std.TransOrd κ] (m : SortedMap κ α) (k : κ) (a : α) : SortedMap κ α :=
  ⟨insertEntry k a m.entries, ordered_insertEntry k a m.ordered⟩

/-- Set the value under a key that has none; a key that already has a value keeps it, and the
answer is `none`. -/
def insertNew? [Std.TransOrd κ] (m : SortedMap κ α) (k : κ) (a : α) : Option (SortedMap κ α) :=
  if m.contains k then none else some (m.insert k a)

/-- Keep the entries whose key and value pass a test. -/
def filter (m : SortedMap κ α) (keep : κ → α → Bool) : SortedMap κ α :=
  ⟨m.entries.filter fun e => keep e.1 e.2, m.ordered.filter _⟩

/-- Remove a key. -/
def erase (m : SortedMap κ α) (k : κ) : SortedMap κ α :=
  m.filter fun k' _ => compare k k' != .eq

/-- Remove every key below a bound. -/
def dropBelow (m : SortedMap κ α) (bound : κ) : SortedMap κ α :=
  m.filter fun k _ => compare k bound != .lt

/-- The entry with the greatest key. -/
def last? (m : SortedMap κ α) : Option (κ × α) :=
  m.entries.getLast?

end SortedMap

end QuorumChain
