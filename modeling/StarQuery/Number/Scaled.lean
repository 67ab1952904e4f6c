/-!
# Doubles as scaled integers

A finite double is an integer times a power of two. Everything that asks for the exact value of a double (is it whole, what
is its integer part, what remains after dividing by another) is answered on that form, in exact integer arithmetic.
-/

namespace StarQuery

/-- A finite number as an integer times a power of two: `± coefficient · 2 ^ exponent`. -/
structure Scaled where
  negative : Bool
  coefficient : Nat
  exponent : Int
  deriving DecidableEq, Repr

namespace Scaled

/-- The exact value of a double, none for an infinity and for what is no number. Of the bits, the lowest 52 are the fraction
and the next 11 the biased exponent; a biased exponent of zero has no leading one. -/
def ofFloat? (x : Float) : Option Scaled :=
  let bits := x.toBits.toNat
  let fraction := bits % 0x10000000000000
  let biased : Nat := bits / 0x10000000000000 % 0x800
  let negative := bits / 0x8000000000000000 == 1
  if biased = 2047 then none
  else if biased = 0 then some ⟨negative, fraction, -1074⟩
  else some ⟨negative, 0x10000000000000 + fraction, Int.ofNat biased - 1075⟩

/-- The integer part of the magnitude. -/
def wholePart (s : Scaled) : Nat :=
  if 0 ≤ s.exponent then s.coefficient * Nat.pow 2 s.exponent.toNat
  else s.coefficient / Nat.pow 2 (-s.exponent).toNat

/-- Whether the number has no fraction. -/
def isWhole (s : Scaled) : Bool :=
  decide (0 ≤ s.exponent) || s.coefficient % Nat.pow 2 (-s.exponent).toNat == 0

/-- The number without its fraction: rounded toward zero. -/
def truncate (s : Scaled) : Int :=
  if s.negative then -(s.wholePart : Int) else s.wholePart

/-- The greatest integer that is not above the number. -/
def floor (s : Scaled) : Int :=
  if s.negative && !s.isWhole then s.truncate - 1 else s.truncate

/-- The double nearest to the number. A negative power of two is written as a power of ten: `2 ^ -n = 5 ^ n · 10 ^ -n`. -/
def toFloat (s : Scaled) : Float :=
  let magnitude :=
    if 0 ≤ s.exponent then Float.ofNat (s.coefficient * Nat.pow 2 s.exponent.toNat)
    else Float.ofScientific (s.coefficient * Nat.pow 5 (-s.exponent).toNat) true (-s.exponent).toNat
  if s.negative then -magnitude else magnitude

/-- What remains of the magnitude of `a` after taking away that of `b` as often as it goes, with the sign of `a`. -/
def remainder (a b : Scaled) : Scaled :=
  let e := if a.exponent ≤ b.exponent then a.exponent else b.exponent
  let scale (s : Scaled) := s.coefficient * Nat.pow 2 (s.exponent - e).toNat
  ⟨a.negative, scale a % scale b, e⟩

end Scaled

/-- Whether a double is a finite number. -/
def isFinite (x : Float) : Bool := (Scaled.ofFloat? x).isSome

/-- The integer a double is equal to, none if it has a fraction or is not finite. Negative zero is zero. -/
def wholeOf? (x : Float) : Option Int :=
  (Scaled.ofFloat? x).bind fun s => if s.isWhole then some s.truncate else none

/-- The greatest whole double that is not above `x`; what is not finite stays as it is. -/
def floorOf (x : Float) : Float :=
  match Scaled.ofFloat? x with
  | none => x
  | some s => if s.isWhole then x else Float.ofInt s.floor

/-- The remainder of dividing `x` by `y` toward zero, which is exact. Dividing by zero, or an infinity by anything, leaves no
number; dividing by an infinity leaves `x`. -/
def remainderOf (x y : Float) : Float :=
  let noNumber : Float := 0.0 / 0.0
  match Scaled.ofFloat? x, Scaled.ofFloat? y with
  | none, _ => noNumber
  | some _, none => if y.isNaN then noNumber else x
  | some a, some b => if b.coefficient = 0 then noNumber else (a.remainder b).toFloat

end StarQuery
