import QuorumChain.Chain.Rules

/-!
# Successful checks

A check is a sequence of steps each of which may fail.  It succeeds exactly if all of its steps do;
the facts below take a success apart into those of the steps.
-/

namespace QuorumChain

variable {ε ε' α β : Type}

theorem bind_eq_ok
    {x : Except ε α} {f : α → Except ε β} {b : β} :
    (x >>= f) = .ok b ↔ ∃ a, x = .ok a ∧ f a = .ok b := by
  cases x with
  | error e => simp [bind, Except.bind]
  | ok a => simp [bind, Except.bind]

theorem pure_eq_ok
    {a b : α} : (pure a : Except ε α) = .ok b ↔ a = b := by
  simp [pure, Except.pure]

theorem throw_ne_ok
    {e : ε} {a : α} : (throw e : Except ε α) ≠ .ok a := by
  simp [throw, throwThe, MonadExceptOf.throw]

theorem mapError_ok
    {f : ε → ε'} {a : α} : (Except.ok a : Except ε α).mapError f = .ok a := rfl

theorem mapError_eq_ok
    {x : Except ε α} {f : ε → ε'} {a : α} : x.mapError f = .ok a ↔ x = .ok a := by
  cases x with
  | error e =>
      constructor
      · intro h
        change Except.error (f e) = .ok a at h
        contradiction
      · intro h
        contradiction
  | ok b => rw [mapError_ok, Except.ok.injEq, Except.ok.injEq]

theorem map_eq_ok
    {x : Except ε α} {f : α → β} {b : β} : x.map f = .ok b ↔ ∃ a, x = .ok a ∧ f a = b := by
  cases x <;> simp [Except.map]

theorem isOk_eq_true
    {x : Except ε α} : x.isOk = true ↔ ∃ a, x = .ok a := by
  cases x <;> simp [Except.isOk, Except.toBool]

theorem require_eq_ok
    {condition : Bool} {e : ε} {u : Unit} : require condition e = .ok u ↔ condition = true := by
  cases condition <;> simp [require]

/-- A check of all items succeeds exactly if that of each item does. -/
theorem forM_eq_ok
    {f : α → Except ε Unit} {items : List α} :
    items.forM f = .ok () ↔ ∀ a ∈ items, f a = .ok () := by
  induction items with
  | nil => exact iff_of_true rfl fun a ha => absurd ha List.not_mem_nil
  | cons a rest ih =>
      rw [List.forall_mem_cons, ← ih]
      refine bind_eq_ok.trans ⟨?_, ?_⟩
      · rintro ⟨⟨⟩, hfirst, hrest⟩
        exact ⟨hfirst, hrest⟩
      · rintro ⟨hfirst, hrest⟩
        exact ⟨⟨⟩, hfirst, hrest⟩

end QuorumChain
