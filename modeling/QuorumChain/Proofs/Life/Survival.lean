import QuorumChain.Proofs.Life.Foundation
import QuorumChain.Proofs.Node.Endurance
import QuorumChain.Proofs.Node.Four

/-!
# Events that cannot fail

A node fails only where a message would be too long to be written.  Whatever it has taken up
fits into messages, for its instance is robust all along; only the blocks that it makes itself
may not.  Where they are within the limits of the encoding, no message, no timer and no request
of the operator makes the node fail, whatever its execution engines have answered before.  A new
head still can, but only before its height has begun: the node remembers another committee at
most.
-/

namespace QuorumChain

/-- Within the limits of the encoding, messages are taken up one after the other without a fault. -/
theorem Instance.Robust.exists_forEach
    {c : Context} {i : Instance} (h : i.Robust c.signer.address)
    (hsize : i.committee.size ≤ Wire.maxLength)
    (hfits : c.execution.ProposalsFit i.parent i.parentDigest i.committee) (kept : List Message) :
    ∃ j actions, Step.forEach kept (Instance.receive c) i = .ok (j, actions) := by
  have hnext : ∀ k : Instance, k.Robust c.signer.address ∧ k.base = i.base → ∀ m ∈ kept,
      ∃ l actions, Instance.receive c k m = .ok (l, actions) ∧
        (l.Robust c.signer.address ∧ l.base = i.base) := by
    rintro k ⟨hk, hbase⟩ m -
    have hparent : k.parent = i.parent := congrArg Base.parent hbase
    have hdigest : k.parentDigest = i.parentDigest := congrArg Base.parentDigest hbase
    have hcommittee : k.committee = i.committee := congrArg Base.committee hbase
    have hlisted : k.committee.size ≤ Wire.maxLength := by rwa [hcommittee]
    have hstill : c.execution.ProposalsFit k.parent k.parentDigest k.committee := by
      rwa [hparent, hdigest, hcommittee]
    obtain ⟨l, actions, hl⟩ := hk.exists_receive hlisted hstill m
    exact ⟨l, actions, hl, (hk.receive m).of_ok hl, (Instance.receive_base.of_ok hl).trans hbase⟩
  obtain ⟨j, actions, hj, -⟩ := Step.exists_forEach hnext ⟨h, rfl⟩
  exact ⟨j, actions, hj⟩

namespace Node

/-- What an instance may have to show again can be written, throughout the life of a node. -/
theorem lasting_robust (s : Setup) : Lasting s fun i => i.Robust s.signer.address where
  begins b moment := by
    have hfresh : (b.fresh s).Robust (s.context moment).signer.address := Instance.robust_fresh s b
    exact (Instance.start_stays []).imp fun _ _ ⟨_, _, hstays⟩ => hfresh.stays hstays
  receives {i} moment m hi := by
    have hrobust : i.Robust (s.context moment).signer.address := hi
    exact hrobust.receive m
  expires {i} moment view hi := by
    have hrobust : i.Robust (s.context moment).signer.address := hi
    exact hrobust.expire view

/-- What the height rests on at which a node handles an event: the present one or, behind a new
head, the next one. -/
def Bases (s : Setup) (n : Node) : Event → Base → Prop
  | .newHead head, b => b.parent = head ∧ head.digest s.scheme.hash = .ok b.parentDigest ∧
      ∃ committees, n.committees.after s.scheme.hash head = .ok (b.committee, committees)
  | _, b => ∃ i, n.current = some i ∧ i.base = b

/-- The proposals of fresh blocks that a node may make while it handles an event are messages within
the limits of the encoding. -/
def ProposalsFit (s : Setup) (n : Node) (e : Event) : Prop :=
  ∀ b, n.Bases s e b → s.execution.ProposalsFit b.parent b.parentDigest b.committee

/-- The votes of the committee with which a node handles an event are not too many to be written. -/
def Listed (s : Setup) (n : Node) (e : Event) : Prop :=
  ∀ b, n.Bases s e b → b.committee.size ≤ Wire.maxLength

/-- What becomes of an event: it is answered, unless it is a new head that changes nothing but the
committees remembered. -/
structure Survives (n : Node) (e : Event) (r : Reaction) : Prop where
  answered : (∀ head, e ≠ .newHead head) → ∃ actions, r.result = .ok actions
  intact : ∀ fault, r.result = .error fault → r.node = { n with committees := r.node.committees }

variable {s : Setup} {n : Node} {i : Instance} {head : Header} {e : Event}

/-- A node whose committees come from headers works with such as can be listed. -/
theorem Grounded.listed (h : n.Grounded s) (e : Event) : n.Listed s e := by
  intro b hb
  have hpresent : (∃ i, n.current = some i ∧ i.base = b) → b.committee.size ≤ Wire.maxLength := by
    rintro ⟨i, hi, rfl⟩
    exact (h.derived i hi).size_le
  cases e with
  | newHead head =>
      obtain ⟨-, hdigest, committees, hafter⟩ := hb
      obtain ⟨-, d, hd, g, -, hg, hnext⟩ :=
        h.faithful.provenance ⟨trivial, b.parentDigest, hdigest⟩ hafter
      exact Header.size_nextCommittee_le hg hnext
  | _ => exact hpresent hb

theorem survives_of_ok
    {r : Reaction} {actions : List Action} (h : r.result = .ok actions) : n.Survives e r where
  answered _ := ⟨actions, h⟩
  intact fault hfault := by
    rw [h] at hfault
    contradiction

theorem survives_ofStep
    {step : Step Instance} (h : ∃ j actions, step = .ok (j, actions)) :
    n.Survives e (n.ofStep step) := by
  obtain ⟨j, actions, rfl⟩ := h
  exact survives_of_ok rfl

/-- A height that can be opened within the limits takes up all that has waited for it. -/
theorem survives_startHeight
    (hlisted : n.Listed s (.newHead head)) (hfits : n.ProposalsFit s (.newHead head)) :
    n.Survives (.newHead head) (startHeight s n head) := by
  rcases startHeight_cases s n head with ⟨committees, cause, -, hfails⟩ |
    ⟨b, committees, i, first, hopens, hopened⟩
  · rw [hfails n.early]
    exact ⟨fun hother => absurd rfl (hother head), fun _ _ => rfl⟩
  · have hi : i.Robust (n.context s).signer.address :=
      ((lasting_robust s).begins b ⟨n.votes, s.execution⟩).of_ok hopens.start
    have hbase : i.base = b := Instance.start_base.of_ok hopens.start
    have hb : n.Bases s (.newHead head) i.base := by
      rw [hbase]
      exact ⟨hopens.parent, hopens.digest, committees, hopens.committee⟩
    obtain ⟨j, rest, hrest⟩ :=
      hi.exists_forEach (hlisted _ hb) (hfits _ hb) (n.early.release b.height).1
    have hstep := Step.andThen_eq_ok.mpr ⟨i, first, rest, rfl, hrest, rfl⟩
    rw [hopened n.early]
    exact survives_of_ok (congrArg Reaction.result (ofOpening_eq_ok.mpr ⟨j, hstep, rfl⟩))

/-- A node whose instance is robust survives every event, within the limits of the encoding. -/
theorem survives_handle
    (hrobust : ∀ i, n.current = some i → i.Robust s.signer.address) (hlisted : n.Listed s e)
    (hfits : n.ProposalsFit s e) : n.Survives e (n.handle s e) := by
  have hcases := handle_cases s n e
  generalize n.handle s e = reaction at hcases ⊢
  cases hcases with
  | passes votes => exact survives_of_ok rfl
  | defers hdefers => exact survives_of_ok rfl
  | @receives m i hi hheight =>
      exact survives_ofStep
        (Instance.Robust.exists_receive (c := n.context s) (hrobust i hi)
          (hlisted i.base ⟨i, hi, rfl⟩) (hfits i.base ⟨i, hi, rfl⟩) m)
  | @expires view i hi hheight =>
      exact survives_ofStep
        (Instance.Robust.exists_expire (c := n.context s) (hrobust i hi)
          (hlisted i.base ⟨i, hi, rfl⟩) (hfits i.base ⟨i, hi, rfl⟩) view)
  | adopts hi hadopts => exact survives_startHeight hlisted hfits

end Node

end QuorumChain
