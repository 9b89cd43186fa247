import QuorumChain.Proofs.Node.Four

/-!
# Which octets are extra-data

Extra-data have one writing.  Octets are refused as malformed exactly if they write nothing; what
they write is then refused if it lists nobody, and otherwise if it lists somebody twice, by the name
of the first entry that repeats an earlier one.  Everything else is read.
-/

namespace QuorumChain

open Wire Wire.Format

/-- The first repeat stands behind entries that are new and distinct, and repeats one of them. -/
theorem firstRepeat?_eq_some
    {α : Type} [DecidableEq α] {known items : List α} {a : α} :
    firstRepeat? known items = some a ↔
      ∃ earlier later, items = earlier ++ a :: later ∧
        (earlier.Nodup ∧ ∀ b ∈ earlier, b ∉ known) ∧ (a ∈ known ∨ a ∈ earlier) := by
  induction items generalizing known with
  | nil => simp [firstRepeat?]
  | cons b rest ih =>
      rw [firstRepeat?]
      by_cases hb : b ∈ known
      · rw [if_pos hb]
        constructor
        · rintro ⟨⟩
          exact ⟨[], rest, rfl, ⟨.nil, by simp⟩, .inl hb⟩
        · rintro ⟨earlier, later, hitems, ⟨-, hnew⟩, -⟩
          cases earlier with
          | nil =>
              cases hitems
              rfl
          | cons c earlier =>
              cases hitems
              exact absurd hb (hnew b List.mem_cons_self)
      · rw [if_neg hb, ih]
        constructor
        · rintro ⟨earlier, later, rfl, ⟨hnodup, hnew⟩, ha⟩
          refine ⟨b :: earlier, later, rfl, ⟨List.nodup_cons.mpr ⟨?_, hnodup⟩, ?_⟩, ?_⟩
          · intro hmem
            exact hnew b hmem List.mem_cons_self
          · intro c hc hknown
            rcases List.mem_cons.mp hc with rfl | hc
            · exact hb hknown
            · exact hnew c hc (List.mem_cons_of_mem b hknown)
          · simp only [List.mem_cons] at ha ⊢
            tauto
        · rintro ⟨earlier, later, hitems, ⟨hnodup, hnew⟩, ha⟩
          cases earlier with
          | nil =>
              cases hitems
              exact absurd ha (by simp [hb])
          | cons c earlier =>
              cases hitems
              obtain ⟨hfirst, hnodup⟩ := List.nodup_cons.mp hnodup
              refine ⟨earlier, later, rfl, ⟨hnodup, ?_⟩, ?_⟩
              · intro c hc hknown
                rcases List.mem_cons.mp hknown with rfl | hknown
                · exact hfirst hc
                · exact hnew c (List.mem_cons_of_mem _ hc) hknown
              · simp only [List.mem_cons] at ha ⊢
                tauto

namespace ExtraData

variable {x : ExtraData} {bytes : Octets}

/-! ## Octets that write something -/

/-- The writing of extra-data is judged by the validators alone. -/
theorem decode_of_encode
    (hx : x.encode = .ok bytes) :
    decode bytes =
      if x.validators = [] then .error .noValidators
      else match firstRepeat? [] x.validators with
        | some a => .error (.repeatedValidator a)
        | none => .ok x := by
  obtain ⟨hexcess, rfl⟩ := encode_eq_ok.mp hx
  rw [decode, format_lawful.decode_write hexcess, mapError_ok]
  by_cases hlisted : x.validators = []
  · simp [hlisted, bind, Except.bind, throw, throwThe, MonadExceptOf.throw]
  · have hempty : x.validators.isEmpty = false := by simpa using hlisted
    simp only [bind, Except.bind, hempty, hlisted]
    cases firstRepeat? [] x.validators <;> rfl

theorem not_malformed_of_encode
    (hx : x.encode = .ok bytes) (cause : WireError) : decode bytes ≠ .error (.malformed cause) := by
  rw [decode_of_encode hx]
  split
  · simp
  · split <;> simp

theorem decode_noValidators_of_encode
    (hx : x.encode = .ok bytes) : decode bytes = .error .noValidators ↔ x.validators = [] := by
  rw [decode_of_encode hx]
  split
  · rename_i hlisted
    exact iff_of_true rfl hlisted
  · rename_i hlisted
    refine iff_of_false ?_ hlisted
    split <;> simp

theorem decode_repeatedValidator_of_encode
    (hx : x.encode = .ok bytes) {a : Address} :
    decode bytes = .error (.repeatedValidator a) ↔
      ∃ earlier later, x.validators = earlier ++ a :: later ∧ earlier.Nodup ∧ a ∈ earlier := by
  have hrepeat : firstRepeat? [] x.validators = some a ↔
      ∃ earlier later, x.validators = earlier ++ a :: later ∧ earlier.Nodup ∧ a ∈ earlier := by
    rw [firstRepeat?_eq_some]
    simp
  rw [decode_of_encode hx, ← hrepeat]
  split
  · rename_i hlisted
    simp [hlisted, firstRepeat?]
  · cases firstRepeat? [] x.validators <;> simp

/-! ## All octets -/

theorem decode_of_unwritten
    (hbytes : ∀ x : ExtraData, x.encode ≠ .ok bytes) :
    ∃ cause, decode bytes = .error (.malformed cause) := by
  cases hread : format.decode bytes with
  | error cause =>
      refine ⟨cause, ?_⟩
      rw [decode, hread]
      rfl
  | ok x =>
      obtain ⟨rfl, hexcess⟩ := format_lawful.write_of_decode hread
      exact absurd (encode_eq_ok.mpr ⟨hexcess, rfl⟩) (hbytes x)

theorem decode_malformed_iff :
    (∃ cause, decode bytes = .error (.malformed cause)) ↔
      ∀ x : ExtraData, x.encode ≠ .ok bytes := by
  constructor
  · rintro ⟨cause, hdecode⟩ x hx
    exact not_malformed_of_encode hx cause hdecode
  · exact decode_of_unwritten

/-- Octets that are not refused as malformed have been written. -/
theorem exists_encode_of_decode
    {e : ExtraDataError} (hdecode : decode bytes = .error e)
    (he : ∀ cause, e ≠ .malformed cause) : ∃ x : ExtraData, x.encode = .ok bytes := by
  by_contra hnone
  obtain ⟨cause, hmalformed⟩ := decode_of_unwritten fun x hx => hnone ⟨x, hx⟩
  rw [hdecode] at hmalformed
  exact he cause (Except.error.inj hmalformed)

theorem decode_noValidators_iff :
    decode bytes = .error .noValidators ↔
      ∃ x : ExtraData, x.encode = .ok bytes ∧ x.validators = [] := by
  constructor
  · intro hdecode
    obtain ⟨x, hx⟩ := exists_encode_of_decode hdecode (by simp)
    exact ⟨x, hx, (decode_noValidators_of_encode hx).mp hdecode⟩
  · rintro ⟨x, hx, hlisted⟩
    exact (decode_noValidators_of_encode hx).mpr hlisted

theorem decode_repeatedValidator_iff
    {a : Address} :
    decode bytes = .error (.repeatedValidator a) ↔
      ∃ x : ExtraData, x.encode = .ok bytes ∧
        ∃ earlier later, x.validators = earlier ++ a :: later ∧ earlier.Nodup ∧ a ∈ earlier := by
  constructor
  · intro hdecode
    obtain ⟨x, hx⟩ := exists_encode_of_decode hdecode (by simp)
    exact ⟨x, hx, (decode_repeatedValidator_of_encode hx).mp hdecode⟩
  · rintro ⟨x, hx, hrepeat⟩
    exact (decode_repeatedValidator_of_encode hx).mpr hrepeat

/-- Extra-data with distinct validators, not too many for a sequence, are read back; octets are read
as extra-data exactly if they write them and the validators can stand.  All other octets write
nothing, or list nobody, or list somebody twice, and are refused for that. -/
theorem decode_exact :
    (∀ x : ExtraData, x.validators ≠ [] → x.validators.Nodup →
      x.validators.length ≤ maxLength → x.seals.length ≤ maxLength →
        ∃ bytes, x.encode = .ok bytes ∧ decode bytes = .ok x) ∧
    ∀ bytes,
      (∀ x, decode bytes = .ok x ↔
        x.encode = .ok bytes ∧ x.validators ≠ [] ∧ x.validators.Nodup) ∧
      ((∃ cause, decode bytes = .error (.malformed cause)) ↔
        ∀ x : ExtraData, x.encode ≠ .ok bytes) ∧
      (decode bytes = .error .noValidators ↔
        ∃ x : ExtraData, x.encode = .ok bytes ∧ x.validators = []) ∧
      ∀ a, decode bytes = .error (.repeatedValidator a) ↔
        ∃ x : ExtraData, x.encode = .ok bytes ∧
          ∃ earlier later, x.validators = earlier ++ a :: later ∧ earlier.Nodup ∧ a ∈ earlier := by
  constructor
  · intro x hlisted hnodup hvalidators hseals
    have hencode := encode_eq_ok.mpr ⟨excess_eq_none.mpr ⟨hvalidators, hseals⟩, rfl⟩
    exact ⟨format.write x, hencode, decode_encode hencode hlisted hnodup⟩
  · intro bytes
    refine ⟨?_, decode_malformed_iff, decode_noValidators_iff,
      fun _ => decode_repeatedValidator_iff⟩
    intro x
    rw [decode_eq_ok, encode_eq_ok]
    tauto

/-- Extra-data that list four validators, cast a vote and carry a seal are read back; those that
list the third one again are refused by its name. -/
theorem decode_exact_of_four :
    let x : ExtraData := ⟨Four.committee.members, some ⟨Four.newcomer, .add⟩, 3, [.zero]⟩
    let doubled : ExtraData := { x with validators := x.validators ++ [Four.address 2] }
    (∃ bytes, x.encode = .ok bytes ∧ decode bytes = .ok x) ∧
      ∃ bytes, doubled.encode = .ok bytes ∧
        decode bytes = .error (.repeatedValidator (Four.address 2)) := by
  intro x doubled
  constructor
  · exact decode_exact.1 x Four.committee.nonempty Four.committee.nodup (by decide) (by decide)
  · have hencode : doubled.encode = .ok (format.write doubled) :=
      encode_eq_ok.mpr ⟨by decide +kernel, rfl⟩
    obtain ⟨-, -, -, hrepeated⟩ := decode_exact.2 (format.write doubled)
    refine ⟨_, hencode, (hrepeated _).mpr ⟨doubled, hencode, _, [], rfl, ?_, ?_⟩⟩
    · exact Four.committee.nodup
    · exact List.mem_ofFn.mpr ⟨2, rfl⟩

end ExtraData

end QuorumChain
