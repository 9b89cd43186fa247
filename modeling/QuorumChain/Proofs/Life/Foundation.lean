import QuorumChain.Proofs.Committee.History
import QuorumChain.Proofs.Life.Basic
import QuorumChain.Proofs.Node.Derivation

/-!
# What a node rests on

All committees that a node remembers are those behind headers with the digests under which they
stand. So the height that it decides is derived from such a header, whatever the node has been
through.
-/

namespace QuorumChain.Node

open CommitteeCache

variable {s : Setup} {n : Node} {head : Header}

/-- The committees that a node works with are those behind headers. -/
structure Grounded (s : Setup) (n : Node) : Prop where
  faithful : n.committees.Faithful s.scheme.hash (Header.digested s.scheme.hash Set.univ)
  derived : ∀ i, n.current = some i → i.base.Derived s.scheme.hash

/-- What a node rests on has nothing to do with its execution engine. -/
theorem Grounded.asking
    (h : n.Grounded s) (x : Execution) : n.Grounded { s with execution := x } :=
  ⟨h.faithful, h.derived⟩

/-- What a step has left of an instance is still built on the same base. -/
theorem Grounded.ofStep
    {i : Instance} {step : Step Instance} (h : n.Grounded s) (hi : n.current = some i)
    (hstep : step.Ends fun _ j => j.base = i.base) : (n.ofStep step).node.Grounded s := by
  have hcommittees : (n.ofStep step).node.committees = n.committees := by
    cases step <;> rfl
  refine ⟨hcommittees ▸ h.faithful, fun j hj => ?_⟩
  rw [current_ofStep] at hj
  obtain rfl := Option.some.inj hj
  have hbase : step.outcome.1.base = i.base := hstep
  rw [hbase]
  exact h.derived i hi

theorem Grounded.after
    {committee : Committee} {committees : CommitteeCache} (h : n.Grounded s)
    (hafter : n.committees.after s.scheme.hash head = .ok (committee, committees)) :
    Grounded s { n with committees } := by
  obtain ⟨d, hd, -⟩ := after_cases hafter
  exact ⟨(h.faithful.provenance ⟨trivial, d, hd⟩ hafter).1, h.derived⟩

theorem Opens.derived
    {b : Base} {committees : CommitteeCache} {i : Instance} {first : List Action}
    (h : n.Grounded s) (hopens : Opens s n head b committees i first) :
    b.Derived s.scheme.hash := by
  obtain ⟨-, d, hd, g, -, hg, hnext⟩ :=
    h.faithful.provenance ⟨trivial, b.parentDigest, hopens.digest⟩ hopens.committee
  obtain rfl := Except.ok.inj (hopens.digest.symm.trans hd)
  exact ⟨g, hg, hnext⟩

theorem Grounded.startHeight
    (h : n.Grounded s) (head : Header) : (startHeight s n head).node.Grounded s := by
  rcases startHeight_cases s n head with ⟨committees, e, hcommittees, hfails⟩ |
    ⟨b, committees, i, first, hopens, hopened⟩
  · rw [hfails n.early]
    rcases hcommittees with rfl | ⟨committee, hafter⟩
    · exact h
    · exact h.after hafter
  · have hleft := h.after hopens.committee
    rw [hopened n.early]
    refine ⟨?_, fun j hj => ?_⟩
    · generalize Step.andThen _ _ = step
      cases step <;> exact hleft.faithful
    · rcases current_ofOpening hj with hold | ⟨actions, hstep⟩
      · exact h.derived j hold
      · obtain ⟨k, _, rest, hfirst, hrest, -⟩ := Step.andThen_eq_ok.mp hstep
        cases hfirst
        have hbegun : i.base = b := Instance.start_base.of_ok hopens.start
        have hbase : j.base = b := (Instance.forEach_base.of_ok hrest).trans hbegun
        rw [hbase]
        exact hopens.derived h

theorem Grounded.handle
    (h : n.Grounded s) (e : Event) : (n.handle s e).node.Grounded s := by
  have hcases := handle_cases s n e
  generalize n.handle s e = reaction at hcases ⊢
  cases hcases with
  | passes votes => exact ⟨h.faithful, h.derived⟩
  | defers hdefers => exact ⟨h.faithful, h.derived⟩
  | receives hi hheight => exact h.ofStep hi Instance.receive_base
  | expires hi hheight => exact h.ofStep hi Instance.expire_base
  | adopts hi hadopts => exact h.startHeight _

theorem Grounded.start (h : n.Grounded s) (head : Header) : (start s n head).node.Grounded s := by
  rw [Node.start]
  split
  · exact h
  · rename_i committee committees hafter
    have hleft := h.after hafter
    dsimp only
    split
    · split
      · exact hleft
      · exact hleft.startHeight head
    · exact hleft.startHeight head

end QuorumChain.Node
