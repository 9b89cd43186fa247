import QuorumChain.Data.Identifier
import QuorumChain.Wire.Format

/-!
# Blocks

A block is a header and a list of transactions.  The header names its parent by digest, commits to
the state and to the transactions, and has one field of free octets, the extra-data, that consensus
fills in.
-/

namespace QuorumChain

/-- A function from octet strings to digests. -/
abbrev HashFunction := Octets → Digest

/-- The header of a block. -/
structure Header where
  /-- The digest of the block below. -/
  parent : Digest
  /-- The distance from the first block. -/
  number : UInt64
  /-- Milliseconds since the epoch. -/
  timestamp : UInt64
  /-- The subject of the vote, or the zero address. -/
  coinbase : Address
  /-- The direction of the vote. -/
  nonce : UInt64
  /-- The digest of the state behind the block. -/
  stateRoot : Digest
  /-- The digest of the transactions. -/
  bodyRoot : Digest
  /-- The part that consensus fills in. -/
  extra : Octets
deriving DecidableEq

/-- The transactions of a block. -/
structure Body where
  /-- The transactions in order, each a string of octets. -/
  transactions : List Octets
deriving DecidableEq

/-- A header with its transactions. -/
structure Block where
  header : Header
  body : Body
deriving DecidableEq

open Wire

/-- The header of zeros, with nothing in its extra-data. -/
def Header.blank : Header :=
  ⟨.zero, 0, 0, .zero, 0, .zero, .zero, []⟩

/-- The body without transactions. -/
def Body.empty : Body :=
  ⟨[]⟩

instance : Inhabited Header := ⟨.blank⟩

instance : Inhabited Body := ⟨.empty⟩

instance : Inhabited Block := ⟨⟨.blank, .empty⟩⟩

/-- A header is written as its fields in order. -/
def Header.format : Format Header :=
  (Format.pair (.fixed 32) <| .pair .u64 <| .pair .u64 <| .pair (.fixed 20) <| .pair .u64 <|
    .pair (.fixed 32) <| .pair (.fixed 32) .octets).via
    (fun h => (h.parent, h.number, h.timestamp, h.coinbase, h.nonce, h.stateRoot, h.bodyRoot,
      h.extra))
    (fun (parent, number, timestamp, coinbase, nonce, stateRoot, bodyRoot, extra) =>
      ⟨parent, number, timestamp, coinbase, nonce, stateRoot, bodyRoot, extra⟩)

/-- A body is written as the list of its transactions. -/
def Body.format : Format Body :=
  (Format.list .octets).via (·.transactions) (⟨·⟩)

/-- A block is written as its header and its body. -/
def Block.format : Format Block :=
  (Format.pair Header.format Body.format).via (fun b => (b.header, b.body))
    (fun (header, body) => ⟨header, body⟩)

/-- The digest of the writing of a value. -/
def HashFunction.ofValue {α : Type} (H : HashFunction) (f : Format α) (a : α) :
    Except WireError Digest :=
  (f.encode a).map H

/-- The digest of a header with other octets in place of its extra-data. -/
def Header.digestWith (H : HashFunction) (h : Header) (extra : Octets) : Except WireError Digest :=
  H.ofValue Header.format { h with extra }

/-- The digest of a list of transactions. -/
def Body.root (H : HashFunction) (b : Body) : Except WireError Digest :=
  H.ofValue Body.format b

end QuorumChain
