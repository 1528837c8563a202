/-!
# Shortest decimals

The decimal with the fewest digits that is read back as a given number. A finite number is
`mantissa * 2 ^ exponent`, and the reals that are rounded to it form an interval, whose ends belong to
it exactly if the mantissa is even. The digits are found by trying ever finer decimal grids: on each
grid the two neighbours of the number are the only candidates. All arithmetic is exact.
-/

namespace StateSearch.Decimal

/-- A finite number that is not negative, `mantissa * 2 ^ exponent`. -/
structure Binary where
  mantissa : Nat
  exponent : Int
  /-- Whether the next smaller number is only half as far away as the next larger one. -/
  narrow : Bool
  deriving DecidableEq, Repr

/-- The number with these bits, apart from its sign. Infinities and values that are no number are not
numbers of this kind. -/
def Binary.ofBits (bits : UInt64) : Binary :=
  let field := ((bits >>> 52) &&& 0x7FF).toNat
  let fraction := (bits &&& 0xFFFFFFFFFFFFF).toNat
  if field = 0 then ⟨fraction, -1074, false⟩
  else ⟨0x10000000000000 + fraction, field - 1075, fraction == 0 && 1 < field⟩

/-- The number `digits * 10 ^ exponent`. -/
structure Numeral where
  digits : Nat
  exponent : Int
  deriving DecidableEq, Repr

/-- Compare `a * 10 ^ i` with `b * 2 ^ j`. -/
def compareScaled (a : Nat) (i : Int) (b : Nat) (j : Int) : Ordering :=
  compare (a * Nat.pow 10 i.toNat * Nat.pow 2 (-j).toNat)
    (b * Nat.pow 2 j.toNat * Nat.pow 10 (-i).toNat)

/-- Whether a decimal lies in the interval of the reals that are rounded to the number. -/
def Binary.readsBack (x : Binary) (d : Numeral) : Bool :=
  let low := compareScaled d.digits d.exponent (4 * x.mantissa - if x.narrow then 1 else 2)
    (x.exponent - 2)
  let high := compareScaled d.digits d.exponent (4 * x.mantissa + 2) (x.exponent - 2)
  let closed := x.mantissa % 2 == 0
  (low == .gt || closed && low == .eq) && (high == .lt || closed && high == .eq)

/-- The number divided by `10 ^ exponent`, cut off below the point. -/
def Binary.divided (x : Binary) (exponent : Int) : Nat :=
  x.mantissa * Nat.pow 2 x.exponent.toNat * Nat.pow 10 (-exponent).toNat /
    (Nat.pow 2 (-x.exponent).toNat * Nat.pow 10 exponent.toNat)

/-- Among the two neighbours of the number on the grid of the multiples of `10 ^ exponent`, the one
that is read back. If both are, it is the nearer one, and the larger one if they are equally near. -/
def Binary.onGrid? (x : Binary) (exponent : Int) : Option Numeral :=
  let below : Numeral := ⟨x.divided exponent, exponent⟩
  let above : Numeral := ⟨below.digits + 1, exponent⟩
  match x.readsBack below, x.readsBack above with
  | true, true =>
    if compareScaled (below.digits + above.digits) exponent x.mantissa (x.exponent + 1) == .gt then
      some below
    else some above
  | true, false => some below
  | false, true => some above
  | false, false => none

/-- The first grid with a neighbour that is read back, from `10 ^ exponent` on. If there is none
among the next `count` grids, the last one is used as it is. -/
def Binary.search (x : Binary) (exponent : Int) : Nat → Numeral
  | 0 => ⟨x.divided exponent, exponent⟩
  | count + 1 => (x.onGrid? exponent).getD (x.search (exponent - 1) count)

/-- The least `k` of the next `count` integers with the number below `10 ^ k`. -/
def Binary.scaleFrom (x : Binary) (k : Int) : Nat → Int
  | 0 => k
  | count + 1 =>
    if compareScaled 1 k x.mantissa x.exponent == .gt then k else x.scaleFrom (k + 1) count

/-- The least power of ten above a number that is not zero. No finite number lies outside the range
that is looked at. -/
def Binary.scale (x : Binary) : Int :=
  let guess := (x.mantissa.log2 + x.exponent) * 30103 / 100000
  x.scaleFrom (guess - 1) 4

/-- The decimal with the fewest digits that is read back as the number. -/
def Binary.shortest (x : Binary) : Numeral :=
  if x.mantissa = 0 then ⟨0, 0⟩ else x.search (x.scale - 1) 17

/-- A decimal written without an exponent: zeros are put in where digits are missing, and there is
neither a point nor anything behind it if nothing but zeros would follow. -/
def Numeral.positional (d : Numeral) : String :=
  let digits := (Nat.toDigits 10 d.digits)
  let fraction := (-d.exponent).toNat
  let whole := digits ++ List.replicate d.exponent.toNat '0'
  let padded := List.replicate (fraction + 1 - whole.length) '0' ++ whole
  let split := padded.length - fraction
  let tail := (((padded.drop split).reverse).dropWhile (· == '0')).reverse
  String.ofList (padded.take split ++ if tail.isEmpty then [] else '.' :: tail)

/-- A number with the fewest digits that identify it, never with an exponent. -/
def text (x : Float) : String :=
  if x.isNaN then "NaN"
  else
    let sign := if x.toBits >>> 63 = 1 then "-" else ""
    if x.isInf then sign ++ "inf"
    else sign ++ (Binary.ofBits x.toBits).shortest.positional

end StateSearch.Decimal
