import QuorumChain.Data.Octets

/-!
# The twisted Edwards curve over the field of 2²⁵⁵ − 19 elements

Points are kept in extended coordinates `(x : y : z : t)` with `x y = z t`, for which one addition
formula serves every pair of points.  A point is written as its `y` in 32 octets, with the parity
of `x` in the top bit.
-/

namespace QuorumChain.Edwards25519

/-- The number of field elements. -/
def p : Nat :=
  57896044618658097711785492504343953926634992332820282019728792003956564819949

/-- The order of the base point. -/
def order : Nat :=
  7237005577332262213973186563042994240857116359379907606001950938285454250989

/-- The coefficient of the curve, −121665/121666. -/
def d : Nat :=
  37095705934669439343138083508754565189542113879843219016388785533085940283555

/-- A square root of −1. -/
def rootOfMinusOne : Nat :=
  19681161376707505956807079304988542015446066515923890162744021073123829784752

/-- Sum of field elements. -/
@[inline] def fadd (a b : Nat) : Nat := (a + b) % p

/-- Difference of field elements. -/
@[inline] def fsub (a b : Nat) : Nat := (a + p - b) % p

/-- Product of field elements. -/
@[inline] def fmul (a b : Nat) : Nat := (a * b) % p

/-- Power of a field element; `bits` bounds the length of the exponent. -/
def fpow : Nat → Nat → Nat → Nat
  | 0, _, _ => 1
  | bits + 1, a, e =>
    let h := fpow bits a (e / 2)
    let s := fmul h h
    if e % 2 = 1 then fmul s a else s

/-- Inverse of a field element; that of zero is zero. -/
def finv (a : Nat) : Nat :=
  fpow 255 a (p - 2)

/-- A point in extended coordinates. -/
structure Point where
  x : Nat
  y : Nat
  z : Nat
  t : Nat

/-- The neutral element. -/
def Point.neutral : Point :=
  ⟨0, 1, 1, 0⟩

instance : Inhabited Point :=
  ⟨.neutral⟩

/-- The sum of two points.  Only products are reduced; sums and differences in between stay below
`4 * p`, and `p` is added so that no difference is negative. -/
def Point.add (a b : Point) : Point :=
  let e1 := fmul (a.y + p - a.x) (b.y + p - b.x)
  let e2 := fmul (a.y + a.x) (b.y + b.x)
  let c := fmul (fmul a.t (2 * d)) b.t
  let dd := fmul (2 * a.z) b.z
  let e := e2 + p - e1
  let f := dd + p - c
  let g := dd + c
  let h := e2 + e1
  ⟨fmul e f, fmul g h, fmul f g, fmul e h⟩

/-- Twice a point. -/
def Point.double (a : Point) : Point :=
  let xx := fmul a.x a.x
  let yy := fmul a.y a.y
  let zz := fmul a.z a.z
  let h := xx + yy
  let s := a.x + a.y
  let e := h + p - fmul s s
  let g := xx + p - yy
  let f := 2 * zz + g
  ⟨fmul e f, fmul g h, fmul f g, fmul e h⟩

/-- The negative of a point. -/
def Point.neg (a : Point) : Point :=
  ⟨fsub 0 a.x, a.y, a.z, fsub 0 a.t⟩

/-- A multiple of a point; `bits` bounds the length of the factor. -/
def Point.mul : Nat → Nat → Point → Point
  | 0, _, _ => .neutral
  | bits + 1, k, a =>
    let s := (Point.mul bits (k / 2) a).double
    if k % 2 = 1 then s.add a else s

/-- Whether two points are equal: their affine coordinates are. -/
def Point.same (a b : Point) : Bool :=
  fmul a.x b.z == fmul b.x a.z && fmul a.y b.z == fmul b.y a.z

/-- Whether a point's order divides eight. -/
def Point.isSmallOrder (a : Point) : Bool :=
  a.double.double.double.same .neutral

/-- The value of the top bit of 32 octets. -/
def signBit : Nat :=
  Nat.pow 2 255

/-- The writing of a point in 32 octets. -/
def Point.encode (a : Point) : Octets :=
  let zi := finv a.z
  let x := fmul a.x zi
  let y := fmul a.y zi
  Octets.ofNatLE 32 (y + (x % 2) * signBit)

/-- The square root of `u / v` that is even, if there is one. -/
def rootOfRatio? (u v : Nat) : Option Nat :=
  let v3 := fmul (fmul v v) v
  let v7 := fmul (fmul v3 v3) v
  let r := fmul (fmul u v3) (fpow 252 (fmul u v7) ((p - 5) / 8))
  let check := fmul v (fmul r r)
  let r? :=
    if check = u % p then some r
    else if check = fsub 0 u then some (fmul r rootOfMinusOne)
    else none
  r?.map fun r => if r % 2 = 1 then fsub 0 r else r

/-- The point that 32 octets write.  A `y` beyond the field is reduced, and the sign bit of a point
with `x = 0` is ignored. -/
def Point.decode? (bytes : Octets) : Option Point :=
  let v := Octets.toNatLE bytes
  let y := (v % signBit) % p
  let yy := fmul y y
  match rootOfRatio? (fsub yy 1) (fadd (fmul d yy) 1) with
  | none => none
  | some x =>
    let x := if v / signBit % 2 = 1 then fsub 0 x else x
    some ⟨x, y, 1, fmul x y⟩

/-- The base point. -/
def base : Point :=
  let x := 15112221349535400772501151409588531511454012693041857206046113283949847762202
  let y := 46316835694926478169428394003475163141307993866256225615783033603165251855960
  ⟨x, y, 1, fmul x y⟩

/-- `n` points, each twice the one before. -/
def doublings : Nat → Point → List Point
  | 0, _ => []
  | n + 1, a => a :: doublings n a.double

/-- The multiples of the base point by powers of two. -/
def basePowers : List Point :=
  doublings 256 base

/-- The sum of the listed points whose bit is set in `k`. -/
def sumOfBits : List Point → Nat → Point → Point
  | [], _, acc => acc
  | a :: rest, k, acc =>
    if k = 0 then acc else sumOfBits rest (k / 2) (if k % 2 = 1 then acc.add a else acc)

/-- A multiple of the base point. -/
def mulBase (k : Nat) : Point :=
  sumOfBits basePowers k .neutral

end QuorumChain.Edwards25519
