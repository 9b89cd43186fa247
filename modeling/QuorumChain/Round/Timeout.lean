import QuorumChain.Message.View

/-!
# Round timeouts

Round `r` of a height lasts `r + 1` times as long as round zero.  Durations are counted in
nanoseconds and stop growing at the longest one.
-/

namespace QuorumChain

/-- A length of time. -/
structure Duration where
  /-- The length in nanoseconds. -/
  nanoseconds : Nat
deriving DecidableEq, Repr

namespace Duration

/-- The longest duration: 2⁶⁴ seconds less one nanosecond. -/
def longest : Duration :=
  ⟨18446744073709551616 * 1000000000 - 1⟩

/-- A number of milliseconds. -/
def ofMilliseconds (ms : Nat) : Duration :=
  ⟨ms * 1000000⟩

/-- The full seconds. -/
def seconds (d : Duration) : Nat :=
  d.nanoseconds / 1000000000

/-- The nanoseconds beyond the full seconds. -/
def subsecond (d : Duration) : Nat :=
  d.nanoseconds % 1000000000

/-- The full milliseconds. -/
def milliseconds (d : Duration) : Nat :=
  d.nanoseconds / 1000000

/-- A multiple of a duration, or the longest duration. -/
def scale (d : Duration) (k : Nat) : Duration :=
  ⟨min (d.nanoseconds * k) longest.nanoseconds⟩

end Duration

/-- The timeout of a round; `base` is that of round zero. -/
def roundTimeout (base : Duration) (round : UInt32) : Duration :=
  base.scale (View.successor round).toNat

end QuorumChain
