import QuorumChain.Data.SortedMap

/-!
# Backlogs

A backlog keeps what arrives too early, under the key at which it will be wanted, and hands it out
in the order of arrival.  It holds a limited number of items.  When it is full, a new item pushes
out the latest arrival under the greatest key, provided that its own key is smaller.
-/

namespace QuorumChain

/-- Items kept for later, by key. -/
structure Backlog (κ α : Type) [Ord κ] where
  /-- The greatest number of items. -/
  limit : Nat
  /-- The number of items. -/
  count : Nat
  /-- The items under each key in the order of arrival; no list is empty. -/
  buckets : SortedMap κ (List α)
deriving DecidableEq

namespace Backlog

variable {κ α : Type} [Ord κ]

/-- The backlog without items. -/
def empty (limit : Nat) : Backlog κ α :=
  ⟨limit, 0, .empty⟩

/-- All items with their keys, smallest key first and in the order of arrival under each key. -/
def toList (b : Backlog κ α) : List (κ × α) :=
  b.buckets.entries.flatMap fun e => e.2.map fun a => (e.1, a)

variable [Std.TransOrd κ]

/-- Put an item behind those with the same key, without regard to the limit. -/
def append (b : Backlog κ α) (k : κ) (a : α) : Backlog κ α :=
  { b with
    count := b.count + 1
    buckets := b.buckets.insert k ((b.buckets.get? k).getD [] ++ [a]) }

/-- Take away the last item of a bucket. -/
def evict (b : Backlog κ α) (k : κ) (bucket : List α) : Backlog κ α :=
  let rest := bucket.dropLast
  { b with
    count := b.count - 1
    buckets := if rest.isEmpty then b.buckets.erase k else b.buckets.insert k rest }

/-- Keep an item, if there is room or room can be made for it. -/
def push? (b : Backlog κ α) (k : κ) (a : α) : Option (Backlog κ α) :=
  if b.count < b.limit then some (b.append k a)
  else
    match b.buckets.last? with
    | none => none
    | some (highest, bucket) =>
      if compare k highest = .lt then some ((b.evict highest bucket).append k a) else none

/-- Keep an item if possible. -/
def push (b : Backlog κ α) (k : κ) (a : α) : Backlog κ α :=
  (b.push? k a).getD b

/-- The items under a key, and the backlog without them. -/
def take (b : Backlog κ α) (k : κ) : List α × Backlog κ α :=
  let taken := (b.buckets.get? k).getD []
  (taken, { b with count := b.count - taken.length, buckets := b.buckets.erase k })

/-- The backlog without the items under smaller keys. -/
def dropBelow (b : Backlog κ α) (bound : κ) : Backlog κ α :=
  let below := b.buckets.filter fun k _ => compare k bound == .lt
  { b with
    count := b.count - below.values.flatten.length
    buckets := b.buckets.dropBelow bound }

end Backlog

end QuorumChain
