import Mathlib.Tactic.Ring
import QuorumChain.Proofs.Data.Except

/-!
# Lawful formats

Every format built from the combinators reads back what it writes, whatever follows, and accepts
only what it writes.  The law of a combination follows from the laws of its parts, so that the
formats of whole messages are lawful by construction.

The two facts that later arguments use are that a writable value is determined by its octets and
that nothing read is too long to be written.
-/

namespace QuorumChain.Wire.Format

variable {α β : Type}

/-! ## What lawful formats give -/

theorem Lawful.write_inj
    {f : Format α} (hf : f.Lawful) {a b : α}
    (ha : f.excess a = none) (hb : f.excess b = none)
    (h : f.write a = f.write b) : a = b := by
  have hread := hf.read_write a [] ha
  rw [h, hf.read_write b [] hb] at hread
  cases hread
  rfl

theorem Lawful.decode_write
    {f : Format α} (hf : f.Lawful) {a : α} (ha : f.excess a = none) :
    f.decode (f.write a) = .ok a := by
  have hread := hf.read_write a [] ha
  rw [List.append_nil] at hread
  simp [decode, hread, bind, Except.bind, pure, Except.pure]

/-- Octets are decoded to a value only if they are its writing. -/
theorem Lawful.write_of_decode
    {f : Format α} (hf : f.Lawful) {bytes : Octets} {a : α}
    (h : f.decode bytes = .ok a) :
    bytes = f.write a ∧ f.excess a = none := by
  rw [decode, bind_eq_ok] at h
  obtain ⟨⟨b, rest⟩, hread, h⟩ := h
  obtain ⟨hbytes, hb⟩ := hf.write_of_read bytes b rest hread
  dsimp only at h
  split at h
  · rename_i hrest
    have hnil : rest = [] := List.isEmpty_iff.mp hrest
    obtain rfl := pure_eq_ok.mp h
    exact ⟨by rw [hbytes, hnil, List.append_nil], hb⟩
  · exact absurd h throw_ne_ok

/-- A value is encoded exactly if nothing in it is too long. -/
theorem encode_eq_ok
    {f : Format α} {a : α} {bytes : Octets} :
    f.encode a = .ok bytes ↔ f.excess a = none ∧ bytes = f.write a := by
  unfold encode
  cases h : f.excess a with
  | none => simp [eq_comm]
  | some n => simp

/-! ## Numbers and strings of fixed width -/

theorem toNatLE_ofNatLE {k v : Nat} (h : v < 256 ^ k) :
    Octets.toNatLE (Octets.ofNatLE k v) = v := by
  induction k generalizing v with
  | zero =>
      have hv : v = 0 := by simpa using h
      subst hv
      rfl
  | succ k ih =>
      have hdiv : v / 256 < 256 ^ k := by
        apply Nat.div_lt_of_lt_mul
        rwa [pow_succ, Nat.mul_comm] at h
      have hlow : (UInt8.ofNat (v % 256)).toNat = v % 256 := by
        simp [UInt8.toNat_ofNat']
      simp only [Octets.ofNatLE, Octets.toNatLE, ih hdiv, hlow]
      omega

theorem ofNatLE_toNatLE (bytes : Octets) :
    Octets.ofNatLE bytes.length (Octets.toNatLE bytes) = bytes := by
  induction bytes with
  | nil => rfl
  | cons b rest ih =>
      have hb : b.toNat < 256 := b.toNat_lt
      have hmod : (b.toNat + 256 * Octets.toNatLE rest) % 256 = b.toNat := by omega
      have hdiv : (b.toNat + 256 * Octets.toNatLE rest) / 256 = Octets.toNatLE rest := by omega
      simp only [List.length_cons, Octets.toNatLE, Octets.ofNatLE, hmod, hdiv, ih,
        UInt8.ofNat_toNat]

theorem toNatLE_lt (bytes : Octets) :
    Octets.toNatLE bytes < 256 ^ bytes.length := by
  induction bytes with
  | nil => simp [Octets.toNatLE]
  | cons b rest ih =>
      have hb : b.toNat < 256 := b.toNat_lt
      simp only [Octets.toNatLE, List.length_cons, pow_succ]
      omega

theorem toNatLE_append (x y : Octets) :
    Octets.toNatLE (x ++ y) = Octets.toNatLE x + 256 ^ x.length * Octets.toNatLE y := by
  induction x with
  | nil => simp [Octets.toNatLE]
  | cons b rest ih =>
      simp only [List.cons_append, Octets.toNatLE, ih, List.length_cons, pow_succ]
      ring

theorem toNatLE_inj
    {x y : Octets} (hlength : x.length = y.length) (h : Octets.toNatLE x = Octets.toNatLE y) :
    x = y := by
  rw [← ofNatLE_toNatLE x, ← ofNatLE_toNatLE y, hlength, h]

/-- A word format is lawful if the type holds exactly the numbers of its width. -/
theorem word_lawful
    {k : Nat} {toNat : α → Nat} {ofNat : Nat → α}
    (hlt : ∀ a, toNat a < 256 ^ k)
    (hback : ∀ a, ofNat (toNat a) = a)
    (hforth : ∀ v, v < 256 ^ k → toNat (ofNat v) = v) :
    (word k toNat ofNat).Lawful where
  read_write a rest _ := by
    have hlength : (Octets.ofNatLE k (toNat a)).length = k := Octets.length_ofNatLE k _
    have htake : (Octets.ofNatLE k (toNat a) ++ rest).take k = Octets.ofNatLE k (toNat a) := by
      rw [List.take_append_of_le_length (by omega), List.take_of_length_le (by omega)]
    have hdrop : (Octets.ofNatLE k (toNat a) ++ rest).drop k = rest := by
      rw [List.drop_append_of_le_length (by omega), List.drop_of_length_le (by omega),
        List.nil_append]
    have hshort : ¬(Octets.ofNatLE k (toNat a) ++ rest).length < k := by
      rw [List.length_append]
      omega
    simp only [word, if_neg hshort, htake, hdrop, toNatLE_ofNatLE (hlt a), hback]
  write_of_read bytes a rest h := by
    simp only [word] at h ⊢
    split at h
    · contradiction
    · rename_i hlong
      cases h
      have hlength : (bytes.take k).length = k := by
        rw [List.length_take]
        omega
      have hbound := toNatLE_lt (bytes.take k)
      rw [hlength] at hbound
      have hwrite := ofNatLE_toNatLE (bytes.take k)
      rw [hlength] at hwrite
      rw [hforth _ hbound, hwrite, List.take_append_drop]
      exact ⟨rfl, trivial⟩

theorem u32_lawful : u32.Lawful :=
  word_lawful (fun a => a.toNat_lt) (fun _ => UInt32.ofNat_toNat)
    (fun _ hv => UInt32.toNat_ofNat_of_lt' hv)

theorem u64_lawful : u64.Lawful :=
  word_lawful (fun a => a.toNat_lt) (fun _ => UInt64.ofNat_toNat)
    (fun _ hv => UInt64.toNat_ofNat_of_lt' hv)

theorem fixed_lawful (n : Nat) : (fixed n).Lawful where
  read_write a rest _ := by
    have hlength := a.length_eq
    have htake : (a.octets ++ rest).take n = a.octets := by
      rw [List.take_append_of_le_length (by omega), List.take_of_length_le (by omega)]
    have hdrop : (a.octets ++ rest).drop n = rest := by
      rw [List.drop_append_of_le_length (by omega), List.drop_of_length_le (by omega),
        List.nil_append]
    simp only [fixed, htake, hdrop, Fixed.ofList?_octets]
  write_of_read bytes a rest h := by
    simp only [fixed, Fixed.ofList?] at h ⊢
    split at h
    · rename_i b hb
      cases h
      split at hb
      · cases hb
        exact ⟨(List.take_append_drop n bytes).symm, trivial⟩
      · contradiction
    · contradiction

/-! ## Numbers in groups of seven bits -/

theorem readGroups_writeGroups
    {k v : Nat} (first : Bool) (rest : Octets)
    (hv : v < 128 ^ (k + 1)) (hfirst : first = false → 0 < v) :
    readGroups (k + 1) first (writeGroups (k + 1) v ++ rest) = .ok (v, rest) := by
  induction k generalizing v first with
  | zero =>
      have hsmall : v < 128 := by simpa using hv
      have hbyte : (UInt8.ofNat v).toNat = v := UInt8.toNat_ofNat_of_lt' (by
        show v < 256
        omega)
      have hgroup : ¬(UInt8.ofNat v = 0 ∧ first = false) := by
        rintro ⟨hzero, hf⟩
        have hpos := hfirst hf
        have hval := congrArg UInt8.toNat hzero
        rw [hbyte] at hval
        simp at hval
        omega
      rw [writeGroups]
      simp only [if_pos hsmall, List.cons_append, List.nil_append, readGroups, hbyte,
        if_neg hgroup]
  | succ k ih =>
      by_cases hsmall : v < 128
      · have hbyte : (UInt8.ofNat v).toNat = v := UInt8.toNat_ofNat_of_lt' (by
          show v < 256
          omega)
        have hgroup : ¬(UInt8.ofNat v = 0 ∧ first = false) := by
          rintro ⟨hzero, hf⟩
          have hpos := hfirst hf
          have hval := congrArg UInt8.toNat hzero
          rw [hbyte] at hval
          simp at hval
          omega
        rw [writeGroups]
        simp only [if_pos hsmall, List.cons_append, List.nil_append, readGroups, hbyte,
          if_neg hgroup]
      · have hbyte : (UInt8.ofNat (v % 128 + 128)).toNat = v % 128 + 128 :=
          UInt8.toNat_ofNat_of_lt' (by
            show v % 128 + 128 < 256
            omega)
        have hbig : ¬v % 128 + 128 < 128 := by omega
        have hdiv : v / 128 < 128 ^ (k + 1) := by
          apply Nat.div_lt_of_lt_mul
          rwa [pow_succ, Nat.mul_comm] at hv
        have hhigh := ih false hdiv (fun _ => by omega)
        rw [writeGroups]
        simp only [if_neg hsmall, List.cons_append]
        rw [readGroups]
        simp only [hbyte, if_neg hbig, bind, Except.bind, hhigh, pure, Except.pure]
        congr 2
        omega

theorem eq_writeGroups_of_readGroups
    {k v : Nat} {first : Bool} {bytes rest : Octets}
    (h : readGroups k first bytes = .ok (v, rest)) :
    bytes = writeGroups k v ++ rest ∧ v < 128 ^ k ∧ (first = false → 0 < v) := by
  induction k generalizing v first bytes rest with
  | zero => simp [readGroups] at h
  | succ k ih =>
      cases bytes with
      | nil => simp [readGroups] at h
      | cons b tail =>
          rw [readGroups] at h
          split at h
          · rename_i hsmall
            split at h
            · contradiction
            · rename_i hgroup
              cases h
              have hbyte : UInt8.ofNat b.toNat = b := UInt8.ofNat_toNat
              refine ⟨?_, ?_, ?_⟩
              · rw [writeGroups, if_pos hsmall, hbyte]
                rfl
              · calc b.toNat < 128 ^ 1 := by simpa using hsmall
                  _ ≤ 128 ^ (k + 1) := Nat.pow_le_pow_right (by decide) (by omega)
              · intro hf
                by_contra hpos
                apply hgroup
                refine ⟨?_, hf⟩
                apply UInt8.toNat_inj.mp
                simp
                omega
          · rename_i hbig
            rw [bind_eq_ok] at h
            obtain ⟨⟨high, rest'⟩, hhigh, h⟩ := h
            obtain ⟨htail, hlt, hpos⟩ := ih hhigh
            cases h
            have hb : b.toNat < 256 := b.toNat_lt
            have hhighPos := hpos rfl
            have hmod : (b.toNat - 128 + 128 * high) % 128 + 128 = b.toNat := by omega
            have hdiv : (b.toNat - 128 + 128 * high) / 128 = high := by omega
            refine ⟨?_, ?_, fun _ => by omega⟩
            · rw [writeGroups, if_neg (by omega), hmod, hdiv, UInt8.ofNat_toNat, htail]
              rfl
            · rw [pow_succ]
              omega

/-- A number below 2³² is read back. -/
theorem readCount_writeCount
    {v : Nat} (rest : Octets) (hv : v < 4294967296) :
    readCount (writeCount v ++ rest) = .ok (v, rest) := by
  have hgroups : v < 128 ^ (4 + 1) := by omega
  have hread := readGroups_writeGroups (k := 4) true rest hgroups (by simp)
  simp only [readCount, writeCount, hread, bind, Except.bind, if_pos hv, pure, Except.pure]

theorem eq_writeCount_of_readCount
    {v : Nat} {bytes rest : Octets}
    (h : readCount bytes = .ok (v, rest)) :
    bytes = writeCount v ++ rest ∧ v < 4294967296 := by
  rw [readCount, bind_eq_ok] at h
  obtain ⟨⟨w, rest'⟩, hread, h⟩ := h
  dsimp only at h
  split at h
  · rename_i hlt
    cases h
    exact ⟨(eq_writeGroups_of_readGroups hread).1, hlt⟩
  · exact absurd h throw_ne_ok

theorem readLength_writeCount
    {v : Nat} (rest : Octets) (hv : v ≤ maxLength) :
    readLength (writeCount v ++ rest) = .ok (v, rest) := by
  have hread := readCount_writeCount rest (v := v) (by
    unfold maxLength at hv
    omega)
  simp only [readLength, hread, bind, Except.bind, if_pos hv, pure, Except.pure]

theorem eq_writeCount_of_readLength
    {v : Nat} {bytes rest : Octets}
    (h : readLength bytes = .ok (v, rest)) :
    bytes = writeCount v ++ rest ∧ v ≤ maxLength := by
  rw [readLength, bind_eq_ok] at h
  obtain ⟨⟨w, rest'⟩, hread, h⟩ := h
  dsimp only at h
  split at h
  · rename_i hle
    cases h
    exact ⟨(eq_writeCount_of_readCount hread).1, hle⟩
  · exact absurd h throw_ne_ok

/-- A number below 2³² takes one to five octets. -/
theorem length_writeCount (v : Nat) :
    1 ≤ (writeCount v).length ∧ (writeCount v).length ≤ 5 := by
  have hle : ∀ k w, (writeGroups k w).length ≤ k := by
    intro k
    induction k with
    | zero =>
        intro w
        simp [writeGroups]
    | succ k ih =>
        intro w
        rw [writeGroups]
        split
        · simp
        · simpa using ih (w / 128)
  refine ⟨?_, hle 5 v⟩
  rw [writeCount, writeGroups]
  split <;> simp

/-! ## Combinations -/

theorem octets_lawful : octets.Lawful where
  read_write bytes rest h := by
    have hlength : bytes.length ≤ maxLength := by
      simp only [octets] at h
      split at h
      · assumption
      · contradiction
    have hread := readLength_writeCount (bytes ++ rest) hlength
    have hshort : ¬(bytes ++ rest).length < bytes.length := by
      rw [List.length_append]
      omega
    simp only [octets, List.append_assoc, hread, bind, Except.bind, if_neg hshort, pure,
      Except.pure, List.take_left, List.drop_left]
  write_of_read input bytes rest h := by
    simp only [octets, bind_eq_ok] at h ⊢
    obtain ⟨⟨length, tail⟩, hread, h⟩ := h
    obtain ⟨hinput, hlength⟩ := eq_writeCount_of_readLength hread
    dsimp only at h
    split at h
    · contradiction
    · rename_i hlong
      cases h
      have htake : (tail.take length).length = length := by
        rw [List.length_take]
        omega
      rw [htake, if_pos hlength, List.append_assoc, List.take_append_drop]
      exact ⟨hinput, rfl⟩

/-- A pair can be written if both parts can. -/
theorem pair_excess_eq_none
    {f : Format α} {g : Format β} {p : α × β} :
    (pair f g).excess p = none ↔ f.excess p.1 = none ∧ g.excess p.2 = none := by
  show (f.excess p.1 <|> g.excess p.2) = none ↔ _
  cases f.excess p.1 <;> simp

theorem pair_lawful
    {f : Format α} {g : Format β} (hf : f.Lawful) (hg : g.Lawful) :
    (pair f g).Lawful where
  read_write p rest h := by
    obtain ⟨a, b⟩ := p
    have hab : f.excess a = none ∧ g.excess b = none := pair_excess_eq_none.mp h
    have hreadA := hf.read_write a (g.write b ++ rest) hab.1
    have hreadB := hg.read_write b rest hab.2
    simp only [pair, List.append_assoc, hreadA, hreadB, bind, Except.bind, pure, Except.pure]
  write_of_read bytes p rest h := by
    simp only [pair, bind_eq_ok] at h
    obtain ⟨⟨a, middle⟩, hreadA, ⟨b, rest'⟩, hreadB, h⟩ := h
    cases h
    obtain ⟨hbytes, ha⟩ := hf.write_of_read _ _ _ hreadA
    obtain ⟨hmiddle, hb⟩ := hg.write_of_read _ _ _ hreadB
    dsimp only at hmiddle
    refine ⟨?_, pair_excess_eq_none.mpr ⟨ha, hb⟩⟩
    rw [hbytes, hmiddle]
    exact (List.append_assoc _ _ _).symm

theorem via_lawful
    {f : Format α} (hf : f.Lawful) {forth : β → α} {back : α → β}
    (hback : ∀ b, back (forth b) = b) (hforth : ∀ a, forth (back a) = a) :
    (f.via forth back).Lawful where
  read_write b rest h := by
    simp only [via, hf.read_write (forth b) rest h, bind, Except.bind, pure, Except.pure, hback]
  write_of_read bytes b rest h := by
    simp only [via, bind_eq_ok] at h ⊢
    obtain ⟨⟨a, rest'⟩, hread, h⟩ := h
    cases h
    rw [hforth]
    exact hf.write_of_read _ _ _ hread

theorem readItems_flatMap_write
    {f : Format α} (hf : f.Lawful) {items : List α} (rest : Octets)
    (h : ∀ a ∈ items, f.excess a = none) :
    readItems f.read items.length (items.flatMap f.write ++ rest) = .ok (items, rest) := by
  induction items with
  | nil => rfl
  | cons a items ih =>
      have hreadA := hf.read_write a (items.flatMap f.write ++ rest) (h a List.mem_cons_self)
      have htail := ih fun b hb => h b (List.mem_cons_of_mem a hb)
      simp only [List.length_cons, readItems, List.flatMap_cons, List.append_assoc, hreadA, htail,
        bind, Except.bind, pure, Except.pure]

theorem eq_flatMap_write_of_readItems
    {f : Format α} (hf : f.Lawful) {k : Nat} {bytes rest : Octets} {items : List α}
    (h : readItems f.read k bytes = .ok (items, rest)) :
    items.length = k ∧ bytes = items.flatMap f.write ++ rest ∧ ∀ a ∈ items, f.excess a = none := by
  induction k generalizing bytes items with
  | zero =>
      simp only [readItems] at h
      cases h
      simp
  | succ k ih =>
      simp only [readItems, bind_eq_ok] at h
      obtain ⟨⟨a, middle⟩, hreadA, ⟨others, rest'⟩, htail, h⟩ := h
      cases h
      obtain ⟨hbytes, ha⟩ := hf.write_of_read _ _ _ hreadA
      obtain ⟨hlength, hmiddle, hothers⟩ := ih htail
      dsimp only at hmiddle ⊢
      refine ⟨by rw [List.length_cons, hlength], ?_, ?_⟩
      · rw [hbytes, hmiddle, List.flatMap_cons, List.append_assoc]
      · intro b hb
        rcases List.mem_cons.mp hb with rfl | hb
        · exact ha
        · exact hothers b hb

/-- A list can be written if it is not too long and its items can be written. -/
theorem list_excess_eq_none
    {f : Format α} {items : List α} :
    (list f).excess items = none ↔
      items.length ≤ maxLength ∧ ∀ a ∈ items, f.excess a = none := by
  simp only [list]
  split
  · rename_i hle
    simp [hle, List.findSome?_eq_none_iff]
  · rename_i hlong
    simp [hlong]

theorem list_lawful {f : Format α} (hf : f.Lawful) : (list f).Lawful where
  read_write items rest h := by
    obtain ⟨hlength, hitems⟩ := list_excess_eq_none.mp h
    have hread := readLength_writeCount (items.flatMap f.write ++ rest) hlength
    simp only [list, List.append_assoc, hread, bind, Except.bind,
      readItems_flatMap_write hf rest hitems]
  write_of_read bytes items rest h := by
    simp only [list, bind_eq_ok] at h
    obtain ⟨⟨length, tail⟩, hread, h⟩ := h
    obtain ⟨hbytes, hle⟩ := eq_writeCount_of_readLength hread
    obtain ⟨hlength, htail, hitems⟩ := eq_flatMap_write_of_readItems hf h
    dsimp only at hlength htail
    refine ⟨?_, list_excess_eq_none.mpr ⟨by omega, hitems⟩⟩
    simp only [list]
    rw [hbytes, htail, hlength, List.append_assoc]

theorem option_lawful {f : Format α} (hf : f.Lawful) : (option f).Lawful where
  read_write a rest h := by
    cases a with
    | none => rfl
    | some a =>
        have hread := hf.read_write a rest h
        simp only [option, List.cons_append, hread, bind, Except.bind, pure, Except.pure]
  write_of_read bytes a rest h := by
    simp only [option] at h
    split at h
    · contradiction
    · cases h
      exact ⟨rfl, rfl⟩
    · rename_i tail
      rw [bind_eq_ok] at h
      obtain ⟨⟨b, rest'⟩, hread, h⟩ := h
      cases h
      obtain ⟨htail, hb⟩ := hf.write_of_read _ _ _ hread
      refine ⟨?_, hb⟩
      rw [htail]
      rfl
    · contradiction

/-- An enumeration is lawful if it lists every value once. -/
theorem enumeration_lawful
    [BEq α] [LawfulBEq α] {values : List α}
    (hall : ∀ a, a ∈ values) (hnodup : values.Nodup) (hsize : values.length < 4294967296) :
    (enumeration values).Lawful where
  read_write a rest _ := by
    have hlt : values.idxOf a < values.length := List.idxOf_lt_length_iff.mpr (hall a)
    have hread := readCount_writeCount rest (v := values.idxOf a) (by omega)
    have hget : values[values.idxOf a]? = some a := by
      rw [List.getElem?_eq_getElem hlt, List.getElem_idxOf hlt]
    simp only [enumeration, hread, bind, Except.bind, hget, pure, Except.pure]
  write_of_read bytes a rest h := by
    simp only [enumeration, bind_eq_ok] at h ⊢
    obtain ⟨⟨index, tail⟩, hread, h⟩ := h
    dsimp only at h
    split at h
    · rename_i b hget
      cases h
      obtain ⟨hlt, hvalue⟩ := List.getElem?_eq_some_iff.mp hget
      have hindex : values.idxOf a = index := by
        rw [← hvalue]
        exact hnodup.idxOf_getElem index hlt
      rw [hindex]
      exact ⟨(eq_writeCount_of_readCount hread).1, trivial⟩
    · exact absurd h throw_ne_ok

end QuorumChain.Wire.Format
