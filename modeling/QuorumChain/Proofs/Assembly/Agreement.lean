import QuorumChain.Proofs.Assembly.Locking
import QuorumChain.Proofs.Assembly.Script

/-!
# Agreement

All blocks that nodes hand out at a height have one digest: each has been committed by a quorum, and
two digests that quorums have committed are the same.
-/

namespace QuorumChain.Assembly

section General

variable {ι : Type} [DecidableEq ι] {N : Assembly ι} {run : List (Happening ι)}

/-- A digest is decided: in some view of the height, a quorum has committed it. -/
def Decided (N : Assembly ι) (run : List (Happening ι)) (d : Digest) : Prop :=
  ∃ v : View, v.height = N.base.height ∧
    N.base.committee.Quorate fun a => a ∉ N.faulty → N.Committed run a v d

variable (hrun : N.Run run) (hnever : N.NeverResets run) (hfree : N.CollisionFree run)

include hrun hnever hfree

/-- Whatever a node hands out is decided. -/
theorem decided_of_import
    {x : ι} {block : Block} (h : .importBlock block ∈ (N.record run x).made) :
    ∃ d, block.header.digest N.hash = .ok d ∧ N.Decided run d := by
  obtain ⟨view, d, hheight, hdigest, hdecides⟩ := (hnever.reachable x).logged.imports block h
  rw [N.hash_eq x] at hdigest
  exact ⟨d, hdigest, view, hheight, quorate_of_decides hrun hnever hfree hheight hdecides⟩

/-- No two digests are decided. -/
theorem decided_unique : ∃ d, ∀ d', N.Decided run d' → d' = d := by
  by_cases hsome : ∃ d, N.Decided run d
  · obtain ⟨d, v, hv, hcommitted⟩ := hsome
    refine ⟨d, ?_⟩
    rintro d' ⟨w, hw, hcommitted'⟩
    exact committed_unique hrun hnever hfree hcommitted hcommitted' (hw.trans hv.symm)
  · exact ⟨.zero, fun d hd => absurd ⟨d, hd⟩ hsome⟩

omit hnever

/-- All blocks that nodes hand out in a run have one digest. -/
theorem imports_agree (hbelow : N.Below run) :
    ∃ d, ∀ x block, .importBlock block ∈ (N.record run x).made →
      block.header.digest N.hash = .ok d := by
  obtain ⟨d, hunique⟩ := decided_unique hrun hbelow.neverResets hfree
  refine ⟨d, ?_⟩
  intro x block hblock
  obtain ⟨d', hdigest, hd'⟩ := decided_of_import hrun hbelow.neverResets hfree hblock
  rw [hdigest, hunique d' hd']

end General

/-- Two of three members hand out the block of round zero; the third hears nothing, and the faulty
one votes for it. -/
theorem imports_agree_of_three :
    ∃ run, (Four.assembly 3).Run run ∧ (Four.assembly 3).CollisionFree run ∧
      (Four.assembly 3).Below run ∧
        (∀ x : Fin 3, x ≠ 2 →
          ∃ block, .importBlock block ∈ ((Four.assembly 3).record run x).made) ∧
        ∃ d, ∀ x block, .importBlock block ∈ ((Four.assembly 3).record run x).made →
          block.header.digest Four.hash = .ok d := by
  have hperforms : (Four.assembly 3).performs
      [.pass 0 1 0, .pass 0 1 1, .hand 0 (Four.prepare 3 0 (Four.fresh 0)),
        .pass 1 0 0, .hand 1 (Four.prepare 3 0 (Four.fresh 0)),
        .pass 0 1 2, .hand 0 (Four.commit 3 0 (Four.fresh 0)),
        .pass 1 0 1, .hand 1 (Four.commit 3 0 (Four.fresh 0))]
      (fun r => !(r 0).imported.isEmpty && !(r 1).imported.isEmpty) = true := by
    decide +kernel
  obtain ⟨run, hrun, -, hbelow, hfree, hend⟩ := exists_run_of_performs rfl hperforms
  refine ⟨run, hrun, hfree, hbelow, ?_, imports_agree hrun hfree hbelow⟩
  intro x hx
  have himported : ((Four.assembly 3).record run x).imported ≠ [] := by
    rw [Bool.and_eq_true, Bool.not_eq_true', Bool.not_eq_true'] at hend
    match x with
    | 0 => exact List.isEmpty_eq_false_iff.mp hend.1
    | 1 => exact List.isEmpty_eq_false_iff.mp hend.2
    | 2 => exact absurd rfl hx
  obtain ⟨block, hblock⟩ := List.exists_mem_of_ne_nil _ himported
  exact ⟨block, Record.mem_imported.mp hblock⟩

end QuorumChain.Assembly
