import QuorumChain.Chain.HeaderVote

/-!
# Committees

The committee of a height is the ordered list of its validators.  Nobody is listed twice and at
least one is listed.  The order decides who proposes, so every node has to derive the same list.
A quorum is more than two thirds of the members.
-/

namespace QuorumChain

/-- The validators of a height, in order. -/
structure Committee where
  /-- The members. -/
  members : List Address
  /-- There is a member. -/
  nonempty : members ≠ []
  /-- Nobody is listed twice. -/
  nodup : members.Nodup
deriving DecidableEq

/-- A list without the entries that repeat an earlier one. -/
def withoutRepeats {α : Type} [DecidableEq α] : List α → List α
  | [] => []
  | a :: rest => a :: (withoutRepeats rest).filter (· ≠ a)

theorem nodup_withoutRepeats {α : Type} [DecidableEq α] (l : List α) :
    (withoutRepeats l).Nodup := by
  induction l with
  | nil => exact .nil
  | cons a rest ih =>
    exact List.nodup_cons.2 ⟨by simp, ih.filter _⟩

namespace Committee

/-- The committee of a list; entries that repeat an earlier one do not count. -/
def ofList? : List Address → Option Committee
  | [] => none
  | a :: rest =>
    some ⟨withoutRepeats (a :: rest), by simp [withoutRepeats], nodup_withoutRepeats _⟩

/-- The number of members. -/
def size (c : Committee) : Nat :=
  c.members.length

theorem size_pos (c : Committee) : 0 < c.size :=
  List.length_pos_iff.2 c.nonempty

/-- Whether somebody is a member. -/
def contains (c : Committee) (a : Address) : Bool :=
  c.members.contains a

/-- The least number of members that make a certificate: more than two thirds. -/
def quorum (c : Committee) : Nat :=
  c.size * 2 / 3 + 1

/-- The number of faulty members that are tolerated: less than a third. -/
def maxFaulty (c : Committee) : Nat :=
  (c.size - 1) / 3

/-- Whether a vote asks for what is already so. -/
def isRedundant (c : Committee) (v : Vote) : Bool :=
  match v.kind with
  | .add => c.contains v.subject
  | .drop => !c.contains v.subject

/-- The committee with a new last member. -/
def add (c : Committee) (a : Address) (h : a ∉ c.members) : Committee where
  members := c.members ++ [a]
  nonempty := by simp
  nodup := by
    refine List.nodup_append.2 ⟨c.nodup, by simp, ?_⟩
    intro x hx y hy e
    obtain rfl := List.mem_singleton.1 hy
    exact h (e ▸ hx)

/-- The committee without a member, unless nobody would be left. -/
def drop (c : Committee) (a : Address) : Committee :=
  if h : c.members.filter (· ≠ a) = [] then c
  else ⟨c.members.filter (· ≠ a), h, c.nodup.filter _⟩

/-- The committee after a vote has taken effect. -/
def apply (c : Committee) (v : Vote) : Committee :=
  match v.kind with
  | .add => if h : v.subject ∈ c.members then c else c.add v.subject h
  | .drop => c.drop v.subject

end Committee

end QuorumChain
