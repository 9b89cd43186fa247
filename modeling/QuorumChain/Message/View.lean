import QuorumChain.Wire.Format

/-!
# Views

A view is a height together with a round of that height.  Views are ordered by height first.
-/

namespace QuorumChain

/-- A round of a height. -/
structure View where
  height : UInt64
  round : UInt32
deriving DecidableEq

namespace View

instance : Inhabited View := ⟨⟨0, 0⟩⟩

/-- Heights decide; rounds decide between views of one height. -/
instance : Ord View :=
  ⟨compareLex (compareOn View.height) (compareOn View.round)⟩

/-- The text of a view. -/
def text (v : View) : String :=
  toString v.height ++ "/" ++ toString v.round

/-- The form of a view inside a quoted value. -/
def shown (v : View) : String :=
  "Round(" ++ v.text ++ ")"

/-- The greatest round number. -/
def lastRound : UInt32 := 4294967295

/-- The round number behind another; the last one is its own successor. -/
def successor (round : UInt32) : UInt32 :=
  if round = lastRound then lastRound else round + 1

/-- The next view of the same height. -/
def next (v : View) : View :=
  { v with round := successor v.round }

/-- A view is written as its height and its round. -/
def format : Wire.Format View :=
  (Wire.Format.pair .u64 .u32).via (fun v => (v.height, v.round))
    (fun (height, round) => ⟨height, round⟩)

end View

end QuorumChain
