import Mathlib.Data.Nat.ModEq
import QuorumChain.Chain.Creation
import QuorumChain.Node.Basic
import QuorumChain.Proofs.Node.Record
import QuorumChain.Proofs.Wire.Lawful
import QuorumChain.Simulation.OpenScheme

/-!
# A committee of four

Four members decide the first height above a first block.  Their signatures need not be secret, and
their hash is easy to compute: it is the number that a string writes, modulo a prime.
-/

namespace QuorumChain.Four

/-- The residue of the number that a string writes. -/
def hash : HashFunction := fun w =>
  ⟨Octets.ofNatLE 32 (Octets.toNatLE w % (2 ^ 255 - 19)), Octets.length_ofNatLE _ _⟩

/-- The address of a member. -/
def address (k : Fin 4) : Address :=
  Fixed.replicate 20 (UInt8.ofNat k.val)

/-- The four members. -/
def committee : Committee :=
  ⟨List.ofFn address, by decide, by decide⟩

/-- The first block of a chain. -/
def first : Block :=
  (genesis hash committee.members 0).toOption.getD default

/-- The digest of a block. -/
def digest (b : Block) : Digest :=
  (b.header.digest hash).toOption.getD .zero

/-- The height above the first block. -/
def base : Base :=
  ⟨first.header, digest first, committee⟩

/-- The block that a proposer makes in a round. -/
def fresh (round : UInt32) : Block :=
  ((Execution.emptyBlocks hash).createBlock base.parent base.parentDigest round committee
    none).toOption.getD default

/-- The signer of a member. -/
def signer (k : Fin 4) : Signer :=
  OpenScheme.signer hash (address k)

/-- Another block that the rules allow. -/
def odd : Block :=
  { fresh 0 with header := { (fresh 0).header with timestamp := 7 } }

/-- A member's proposal of a block, without a justification. -/
def propose (k : Fin 4) (round : UInt32) (b : Block) : Except WireError Message :=
  .proposal <$> (signer k).proposal hash ⟨base.height, round⟩ b none

/-- A member's prepare for a block. -/
def prepare (k : Fin 4) (round : UInt32) (b : Block) : Except WireError Message :=
  .prepare <$> (signer k).prepare hash ⟨base.height, round⟩ (digest b)

/-- A member's commit for a block. -/
def commit (k : Fin 4) (round : UInt32) (b : Block) : Except WireError Message :=
  .commit <$> (signer k).commit hash ⟨base.height, round⟩ (digest b)

/-- A member's request for a round, without a certificate. -/
def request (k : Fin 4) (round : UInt32) : Except WireError Message :=
  .roundChange <$> (signer k).roundChange hash ⟨base.height, round⟩ none

/-- A block with the seals of some members. -/
def sealed (b : Block) (ks : List (Fin 4)) : Header :=
  (b.header.withSeals (ks.map fun k => (signer k).sign (digest b))).toOption.getD default

/-- What a member works with. -/
def setup (k : Fin 4) : Setup :=
  ⟨.standard, OpenScheme.scheme hash committee.members, signer k, .emptyBlocks hash⟩

/-- A moment at which no votes are requested and the engine makes empty blocks. -/
def moment : Setup.Moment :=
  ⟨.empty, .emptyBlocks hash⟩

/-- The turns in which a node hears messages; those that cannot be written are left out. -/
def hears (messages : List (Except WireError Message)) : List Turn :=
  messages.filterMap fun m => m.toOption.map fun m => ⟨moment, .message m⟩

/-- The first fresh block with transactions that its header does not commit to. -/
def altered : Block :=
  { fresh 0 with body := ⟨[[42]]⟩ }

/-- A block that the first proposer has signed, with prepares of all others for its header. -/
def prepared (b : Block) : Except WireError PreparedCertificate := do
  let m ← (signer 1).proposal hash ⟨base.height, 0⟩ b none
  let prepares ← [0, 2, 3].mapM fun k => (signer k).prepare hash ⟨base.height, 0⟩ (digest b)
  return ⟨m.signed, prepares⟩

/-- The request of the first proposer for the second round, with a prepared block. -/
def reveal (b : Block) : Except WireError Message := do
  .roundChange <$> (signer 1).roundChange hash ⟨base.height, 1⟩ (some (← prepared b))

/-- The turns in which the second proposer takes the first fresh block, gives the first round up and
hears of a block prepared in it. -/
def succeeds (b : Block) : List Turn :=
  hears [propose 1 0 (fresh 0)] ++
    ⟨moment, .expiry ⟨base.height, 0⟩⟩ :: hears [request 3 1, reveal b]

/-- Check a proposal as the fourth member does. -/
def check (m : JustifiedProposal) : Except Rejection Digest :=
  m.check (setup 3).scheme (setup 3).execution base.parent base.parentDigest base.committee

/-- What a member works with that keeps few messages for later. -/
def cramped (limit : Nat) (k : Fin 4) : Setup :=
  { setup k with settings := { Settings.standard with futureMessageLimit := limit } }

/-- The header of the first fresh block with the seals of a quorum. -/
def head : Header :=
  sealed (fresh 0) [0, 1, 2]

/-- The block that the first proposer of the second height makes. -/
def next : Block :=
  ((Execution.emptyBlocks hash).createBlock head (digest (fresh 0)) 0 committee
    none).toOption.getD default

/-- The proposal of the second height. -/
def proposeNext : Except WireError Message :=
  .proposal <$> (signer 2).proposal hash ⟨base.height + 1, 0⟩ next none

/-- A member's prepare for the proposal of the second height. -/
def prepareNext (k : Fin 4) : Except WireError Message :=
  .prepare <$> (signer k).prepare hash ⟨base.height + 1, 0⟩ (digest next)

/-- A prepare of the fourth member for the proposal of the second height; somebody else has made it
up. -/
def forged : Message :=
  .prepare ⟨⟨⟨base.height + 1, 0⟩, digest next⟩, address 3, .zero⟩

/-- A header two heights below the end. -/
def late : Header :=
  { first.header with number := 18446744073709551614 }

/-- The header of the last block that has a number, with the seals of a quorum. -/
def latest : Header :=
  sealed (((Execution.emptyBlocks hash).createBlock late ((late.digest hash).toOption.getD .zero) 0
    committee none).toOption.getD default) [0, 1, 2]

/-- Somebody who is no member. -/
def newcomer : Address :=
  Fixed.replicate 20 4

/-- What the newcomer works with; nobody can verify its signatures. -/
def newcomerSetup : Setup :=
  { setup 0 with signer := OpenScheme.signer hash newcomer }

/-- The block of the first height that votes for the newcomer. -/
def inviting : Block :=
  ((Execution.emptyBlocks hash).createBlock base.parent base.parentDigest 0 committee
    (some ⟨newcomer, .add⟩)).toOption.getD default

/-- Its header with the seals of a quorum. -/
def invitation : Header :=
  sealed inviting [0, 1, 2]

/-- The four members and the newcomer. -/
def five : Committee :=
  committee.apply ⟨newcomer, .add⟩

/-- The block of the second height, on top of the invitation, that votes against the third
member. -/
def parting : Block :=
  ((Execution.emptyBlocks hash).createBlock invitation (digest inviting) 0 five
    (some ⟨address 2, .drop⟩)).toOption.getD default

/-- Its header with the seals of all but the newcomer. -/
def farewell : Header :=
  sealed parting [0, 1, 2, 3]

/-- The arrival of messages; those that cannot be written do not arrive. -/
def arrivals (messages : List (Except WireError Message)) : List Event :=
  messages.filterMap fun m => m.toOption.map .message

/-- The members accept each other's signatures. -/
theorem verify_sign (k l : Fin 4) (d : Digest) :
    (setup l).scheme.verify (setup k).signer.address d ((setup k).signer.sign d) = true := by
  have hknown : committee.members.contains (address k) = true :=
    List.contains_iff_mem.mpr (List.mem_ofFn.mpr ⟨k, rfl⟩)
  exact Bool.and_eq_true_iff.mpr ⟨hknown, beq_self_eq_true _⟩

/-- The hash tells apart what starts with two addresses and ends alike: their numbers are smaller
than the prime. -/
theorem eq_of_hash_append
    {a a' : Address} {d : Digest}
    (h : hash (a.octets ++ d.octets) = hash (a'.octets ++ d.octets)) : a = a' := by
  have hlt : ∀ a : Address, Octets.toNatLE a.octets < 2 ^ 255 - 19 := by
    intro a
    have hbound := Wire.Format.toNatLE_lt a.octets
    rw [a.length_eq] at hbound
    exact hbound.trans (by decide)
  have hresidue : ∀ w : Octets, Octets.toNatLE (hash w).octets =
      Octets.toNatLE w % (2 ^ 255 - 19) := by
    intro w
    exact Wire.Format.toNatLE_ofNatLE ((Nat.mod_lt _ (by decide)).trans (by decide))
  have hmod : Nat.ModEq (2 ^ 255 - 19) (Octets.toNatLE (a.octets ++ d.octets))
      (Octets.toNatLE (a'.octets ++ d.octets)) := by
    rw [Nat.ModEq, ← hresidue, ← hresidue, h]
  rw [Wire.Format.toNatLE_append, Wire.Format.toNatLE_append, a.length_eq, a'.length_eq] at hmod
  have heq := (Nat.ModEq.add_right_cancel' _ hmod).eq_of_lt_of_lt (hlt a) (hlt a')
  exact Fixed.ext (Wire.Format.toNatLE_inj (a.length_eq.trans a'.length_eq.symm) heq)

/-- No signature is good for two addresses. -/
theorem verify_unique
    {k : Fin 4} {a a' : Address} {d : Digest} {mark : Signature}
    (h : (setup k).scheme.verify a d mark = true) (h' : (setup k).scheme.verify a' d mark = true) :
    a = a' := by
  have hmark : OpenScheme.sign hash a d = OpenScheme.sign hash a' d :=
    (beq_iff_eq.mp (Bool.and_eq_true_iff.mp h).2).symm.trans
      (beq_iff_eq.mp (Bool.and_eq_true_iff.mp h').2)
  have hfirst : ∀ a : Address, (OpenScheme.sign hash a d).octets.take 32 =
      (hash (a.octets ++ d.octets)).octets := by
    intro a
    rw [OpenScheme.sign, Fixed.ofPadded, List.take_take, List.append_assoc,
      Nat.min_eq_left (by decide)]
    exact List.take_left' (Fixed.length_eq _)
  apply eq_of_hash_append (d := d)
  apply Fixed.ext
  rw [← hfirst, ← hfirst, hmark]

end QuorumChain.Four
