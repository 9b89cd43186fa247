import QuorumChain.Data.Octets

/-!
# Invertible wire formats

A wire format pairs a writer with a reader.  Every format here is canonical: a value has one
writing, and the reader accepts nothing else.  Numbers have a fixed width and stand in
little-endian order; lengths and variant numbers are written in groups of seven bits, without
superfluous groups; sequences carry their length, and no sequence is longer than `maxLength`.
-/

namespace QuorumChain

/-- Why octets cannot be read, or a value cannot be written. -/
inductive WireError where
  /-- The octets end inside a value. -/
  | endOfInput
  /-- Octets are left over behind the value. -/
  | remainingInput
  /-- A sequence has more items than a length may say. -/
  | tooLong (length : Nat)
  /-- The octet in front of an optional value is neither zero nor one. -/
  | badOptionTag
  /-- A number in groups of seven bits has a superfluous group. -/
  | superfluousGroup
  /-- A number in groups of seven bits does not fit into 32 bits. -/
  | oversizedNumber
  /-- No variant of an enumeration with `count` variants has this number. -/
  | unknownVariant (got count : Nat)
deriving DecidableEq, Repr

/-- The wording of the complaint. -/
def WireError.message : WireError → String
  | .endOfInput => "unexpected end of input"
  | .remainingInput => "remaining input"
  | .tooLong length => "exceeded max sequence length: " ++ toString length
  | .badOptionTag => "expected option type"
  | .superfluousGroup => "ULEB128 encoding was not minimal in size"
  | .oversizedNumber => "ULEB128-encoded integer did not fit in the target size"
  | .unknownVariant got count =>
    "invalid value: integer \x60" ++ toString got ++ "\x60, expected variant index 0 <= i < "
      ++ toString count

namespace Wire

/-- The greatest number of items in a sequence. -/
def maxLength : Nat :=
  2147483647

/-- A reader takes a value off the front of the input and returns what is left. -/
abbrev Reader (α : Type) := Octets → Except WireError (α × Octets)

/-- A way of writing the values of a type and of reading them back. -/
structure Format (α : Type) where
  /-- The octets of a value. -/
  write : α → Octets
  /-- The length of the first sequence inside a value that is too long to be written. -/
  excess : α → Option Nat
  /-- Takes a value off the front of the input. -/
  read : Reader α

namespace Format

variable {α β γ : Type}

/-- The writing of a value, unless a sequence in it is too long. -/
def encode (f : Format α) (a : α) : Except WireError Octets :=
  match f.excess a with
  | some length => .error (.tooLong length)
  | none => .ok (f.write a)

/-- The value that the octets write, all of them. -/
def decode (f : Format α) (bytes : Octets) : Except WireError α := do
  let (a, rest) ← f.read bytes
  if rest.isEmpty then return a else throw .remainingInput

/-- A format is lawful when reading undoes writing, whatever follows, and accepts only what writing
produces. -/
structure Lawful (f : Format α) : Prop where
  /-- What is written is read back. -/
  read_write : ∀ a rest, f.excess a = none → f.read (f.write a ++ rest) = .ok (a, rest)
  /-- What is read is what would be written. -/
  write_of_read : ∀ bytes a rest, f.read bytes = .ok (a, rest) →
    bytes = f.write a ++ rest ∧ f.excess a = none

/-- One value behind another. -/
def pair (f : Format α) (g : Format β) : Format (α × β) where
  write p := f.write p.1 ++ g.write p.2
  excess p := f.excess p.1 <|> g.excess p.2
  read bytes := do
    let (a, bytes) ← f.read bytes
    let (b, bytes) ← g.read bytes
    return ((a, b), bytes)

/-- The format of a type whose values correspond to those of another. -/
def via (f : Format α) (forth : β → α) (back : α → β) : Format β where
  write b := f.write (forth b)
  excess b := f.excess (forth b)
  read bytes := do
    let (a, bytes) ← f.read bytes
    return (back a, bytes)

/-- A number of `k` octets, and the type that holds it. -/
def word (k : Nat) (toNat : α → Nat) (ofNat : Nat → α) : Format α where
  write a := Octets.ofNatLE k (toNat a)
  excess _ := none
  read bytes :=
    if bytes.length < k then .error .endOfInput
    else .ok (ofNat (Octets.toNatLE (bytes.take k)), bytes.drop k)

/-- A 32-bit number. -/
def u32 : Format UInt32 :=
  word 4 UInt32.toNat UInt32.ofNat

/-- A 64-bit number. -/
def u64 : Format UInt64 :=
  word 8 UInt64.toNat UInt64.ofNat

/-- A string of known length, written without it. -/
def fixed (n : Nat) : Format (Fixed n) where
  write a := a.octets
  excess _ := none
  read bytes :=
    match Fixed.ofList? (bytes.take n) with
    | some a => .ok (a, bytes.drop n)
    | none => .error .endOfInput

/-- The groups of seven bits of a number, lowest group first; `k` bounds their number. -/
def writeGroups : Nat → Nat → Octets
  | 0, _ => []
  | k + 1, v =>
    if v < 128 then [UInt8.ofNat v] else UInt8.ofNat (v % 128 + 128) :: writeGroups k (v / 128)

/-- Read at most `k` groups of seven bits; only the first group may be a last group of zero. -/
def readGroups : Nat → Bool → Reader Nat
  | 0, _, _ => .error .oversizedNumber
  | _ + 1, _, [] => .error .endOfInput
  | k + 1, first, b :: rest =>
    if b.toNat < 128 then
      if b = 0 ∧ first = false then .error .superfluousGroup else .ok (b.toNat, rest)
    else do
      let (high, rest) ← readGroups k false rest
      return (b.toNat - 128 + 128 * high, rest)

/-- A number below 2³² in groups of seven bits. -/
def readCount : Reader Nat := fun bytes => do
  let (v, rest) ← readGroups 5 true bytes
  if v < 4294967296 then return (v, rest) else throw .oversizedNumber

/-- The writing of a number below 2³² in groups of seven bits. -/
def writeCount (v : Nat) : Octets :=
  writeGroups 5 v

/-- The length in front of a sequence. -/
def readLength : Reader Nat := fun bytes => do
  let (v, rest) ← readCount bytes
  if v ≤ maxLength then return (v, rest) else throw (.tooLong v)

/-- A string of octets behind its length. -/
def octets : Format Octets where
  write bytes := writeCount bytes.length ++ bytes
  excess bytes := if bytes.length ≤ maxLength then none else some bytes.length
  read input := do
    let (length, rest) ← readLength input
    if rest.length < length then throw .endOfInput
    return (rest.take length, rest.drop length)

/-- Read a known number of items. -/
def readItems (read : Reader α) : Nat → Reader (List α)
  | 0, bytes => .ok ([], bytes)
  | k + 1, bytes => do
    let (a, bytes) ← read bytes
    let (rest, bytes) ← readItems read k bytes
    return (a :: rest, bytes)

/-- A list of items behind its length. -/
def list (f : Format α) : Format (List α) where
  write items := writeCount items.length ++ items.flatMap f.write
  excess items :=
    if items.length ≤ maxLength then items.findSome? f.excess else some items.length
  read bytes := do
    let (length, bytes) ← readLength bytes
    readItems f.read length bytes

/-- A value that may be missing, behind an octet that says whether it is there. -/
def option (f : Format α) : Format (Option α) where
  write
    | none => [0]
    | some a => 1 :: f.write a
  excess
    | none => none
    | some a => f.excess a
  read
    | [] => .error .endOfInput
    | 0 :: rest => .ok (none, rest)
    | 1 :: rest => do
      let (a, rest) ← f.read rest
      return (some a, rest)
    | _ => .error .badOptionTag

/-- One of finitely many values without content, written as its place in the list. -/
def enumeration [BEq α] (values : List α) : Format α where
  write a := writeCount (values.idxOf a)
  excess _ := none
  read bytes := do
    let (index, rest) ← readCount bytes
    match values[index]? with
    | some a => return (a, rest)
    | none => throw (.unknownVariant index values.length)

end Format

end Wire

end QuorumChain
