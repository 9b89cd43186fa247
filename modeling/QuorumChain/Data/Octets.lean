/-!
# Octet strings

Addresses, digests and signatures are octet strings of a fixed length, and every value that is
hashed or sent is first written as an octet string.  This module holds both: plain octet lists,
lists whose length is part of the type, and the little-endian writing of numbers.
-/

namespace QuorumChain

/-- A string of octets of any length. -/
abbrev Octets := List UInt8

/-- A string of exactly `n` octets. -/
structure Fixed (n : Nat) where
  /-- The octets themselves, first one first. -/
  octets : Octets
  /-- There are `n` of them. -/
  length_eq : octets.length = n
deriving DecidableEq

namespace Fixed

variable {n : Nat}

/-- Two strings of fixed length are equal as soon as their octets are. -/
theorem ext {a b : Fixed n} (h : a.octets = b.octets) : a = b := by
  cases a
  cases b
  cases h
  rfl

/-- The string that repeats one octet. -/
def replicate (n : Nat) (b : UInt8) : Fixed n :=
  ⟨List.replicate n b, List.length_replicate⟩

/-- The string of zero octets. -/
def zero : Fixed n :=
  replicate n 0

instance : Inhabited (Fixed n) :=
  ⟨zero⟩

/-- A list of the right length as a string of fixed length. -/
def ofList? (bytes : Octets) : Option (Fixed n) :=
  if h : bytes.length = n then some ⟨bytes, h⟩ else none

theorem ofList?_octets (a : Fixed n) : ofList? a.octets = some a := by
  simp [ofList?, a.length_eq]

/-- The first `n` octets of a list, filled up with zeros at the end. -/
def ofPadded (bytes : Octets) : Fixed n :=
  ⟨(bytes ++ List.replicate n 0).take n, by simp⟩

/-- Strings of one length are ordered octet by octet. -/
instance : Ord (Fixed n) :=
  ⟨fun a b => compare a.octets b.octets⟩

instance : Std.TransOrd (Fixed n) where
  eq_swap {a b} := by
    have h : compare a.octets b.octets = (compare b.octets a.octets).swap :=
      Std.OrientedCmp.eq_swap
    exact h
  isLE_trans {a b c} hab hbc := by
    have h : (compare a.octets c.octets).isLE :=
      Std.TransCmp.isLE_trans (b := b.octets) hab hbc
    exact h

instance : Std.LawfulEqOrd (Fixed n) where
  compare_self {a} := by
    have h : compare a.octets a.octets = .eq := Std.ReflCmp.compare_self
    exact h
  eq_of_compare {a b} h := by
    have h : compare a.octets b.octets = .eq := h
    exact ext (Std.LawfulEqCmp.eq_of_compare h)

end Fixed

namespace Octets

/-- The `k` low octets of a number, least significant first. -/
def ofNatLE : Nat → Nat → Octets
  | 0, _ => []
  | k + 1, v => UInt8.ofNat (v % 256) :: ofNatLE k (v / 256)

/-- The number that a string writes, least significant octet first. -/
def toNatLE : Octets → Nat
  | [] => 0
  | b :: rest => b.toNat + 256 * toNatLE rest

@[simp] theorem length_ofNatLE (k v : Nat) : (ofNatLE k v).length = k := by
  induction k generalizing v with
  | zero => rfl
  | succ k ih => simp [ofNatLE, ih]

/-- Consecutive pieces of `size` elements, the last one possibly shorter. -/
def pieces {α : Type} (size : Nat) (items : List α) : List (List α) :=
  go items.length items
where
  /-- One piece at a time; `fuel` bounds the number of pieces. -/
  go : Nat → List α → List (List α)
    | 0, _ => []
    | _, [] => []
    | fuel + 1, rest => rest.take size :: go fuel (rest.drop size)

/-- The octets of a text in UTF-8. -/
def ofText (text : String) : Octets :=
  text.toUTF8.toList

end Octets

end QuorumChain
