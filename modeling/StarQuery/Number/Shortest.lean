import StarQuery.Number.Scaled

/-!
# The shortest decimal that reads back

The reals that round to a double form an interval around it. The shortest decimal of the double is the decimal of fewest
digits in that interval, and of several such the one nearest to the double. `Decimal` is such a decimal, and `Layout` says
how one is written.
-/

namespace StarQuery

/-- The number `digits · 10 ^ exponent`. -/
structure Decimal where
  digits : Nat
  exponent : Int
  deriving DecidableEq, Repr

namespace Decimal

/-- The interval of reals that round to a double, and the double itself, as multiples of `1 / denominator`. -/
structure Interval where
  low : Nat
  value : Nat
  high : Nat
  denominator : Nat
  /-- Whether the ends belong to the interval: they do when the coefficient is even, since a tie goes to even. -/
  closed : Bool
  deriving DecidableEq, Repr

/-- The interval of the double `coefficient · 2 ^ exponent`. The neighbour below is nearer than the one above when the
coefficient is the least of its binade. -/
def interval (coefficient : Nat) (exponent : Int) : Interval :=
  let up := Nat.pow 2 (exponent - 2).toNat
  let nearer := coefficient == 0x10000000000000 && decide (-1074 < exponent)
  { low := (4 * coefficient - if nearer then 1 else 2) * up
    value := 4 * coefficient * up
    high := (4 * coefficient + 2) * up
    denominator := Nat.pow 2 (2 - exponent).toNat
    closed := coefficient % 2 == 0 }

/-- The multiple of `10 ^ k` in the interval that is nearest to the value, none if no multiple is in it. Only the two
multiples around the value need a look; of two at the same distance the even one is taken. -/
def Interval.onGrid? (i : Interval) (k : Int) : Option Decimal :=
  let scale := Nat.pow 10 (-k).toNat
  let unit := Nat.pow 10 k.toNat * i.denominator
  let below := i.value * scale / unit
  let inside (c : Nat) : Bool :=
    if i.closed then decide (i.low * scale ≤ c * unit) && decide (c * unit ≤ i.high * scale)
    else decide (i.low * scale < c * unit) && decide (c * unit < i.high * scale)
  let toBelow := i.value * scale - below * unit
  let toAbove := (below + 1) * unit - i.value * scale
  match inside below, inside (below + 1) with
  | false, false => none
  | true, false => some ⟨below, k⟩
  | false, true => some ⟨below + 1, k⟩
  | true, true =>
    if toBelow < toAbove || (toBelow == toAbove && below % 2 == 0) then some ⟨below, k⟩ else some ⟨below + 1, k⟩

/-- The shortest decimal of `coefficient · 2 ^ exponent`: the coarsest decimal grid that meets the interval gives it. The
search starts above the value and seventeen digits always suffice. -/
def shortest (coefficient : Nat) (exponent : Int) : Decimal :=
  if coefficient = 0 then ⟨0, 0⟩
  else
    let i := interval coefficient exponent
    let start := ((coefficient.log2 + 1 : Nat) + exponent) * 30103 / 100000 + 2
    ((List.range 24).findSome? fun (n : Nat) => i.onGrid? (start - n)).getD ⟨0, 0⟩

/-- How a decimal is written. -/
structure Layout where
  /-- The least decimal exponent of the first digit that is written in plain notation. -/
  plainFrom : Int
  /-- The first decimal exponent of the first digit that is written with an exponent again. -/
  plainBelow : Int
  /-- What stands before a positive exponent. -/
  plusSign : String
  deriving DecidableEq, Repr

/-- The text of a decimal. Plain notation always has a fraction; an exponent follows the first digit and its fraction. -/
def text (layout : Layout) (d : Decimal) : String :=
  let digits := Nat.toDigits 10 d.digits
  let count := digits.length
  let zeros (n : Int) := List.replicate n.toNat '0'
  let point := (count : Int) + d.exponent
  let first := point - 1
  if layout.plainFrom ≤ first && first < layout.plainBelow then
    let whole := if 0 < point then digits.take point.toNat ++ zeros d.exponent else ['0']
    let fraction := zeros (-point) ++ digits.drop point.toNat
    String.ofList (whole ++ '.' :: if fraction.isEmpty then ['0'] else fraction)
  else
    let fraction := if count ≤ 1 then [] else '.' :: digits.drop 1
    let sign := if first < 0 then "-" else layout.plusSign
    String.ofList (digits.take 1 ++ fraction) ++ "e" ++ sign ++ toString first.natAbs

end Decimal

end StarQuery
