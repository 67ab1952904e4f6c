import StarQuery.Json.Key
import StarQuery.Text.Blank

/-!
# Arithmetic, order and truth of JSON values

Integers of 64 bits are added, subtracted and multiplied exactly as long as the result has 64 bits; everything else goes
through doubles, to which a string is read and a truth value counted. A result that is whole becomes an integer again, and
one that is not finite is undefined.
-/

namespace StarQuery

/-- Whether an integer has a 64-bit two's complement form. -/
def fitsInt64 (n : Int) : Bool := -0x8000000000000000 ≤ n && n < 0x8000000000000000

/-- Equality of numbers as parts of values: of the same form and equal. -/
def Number.same : Number → Number → Bool
  | .int m, .int n => m == n
  | .float x, .float y => x == y
  | _, _ => false

/-- The double nearest to a number. -/
def Number.toFloat : Number → Float
  | .int n => Float.ofInt n
  | .float x => x

namespace Json

/-- The integer of a value that is an integer of 64 bits with sign. -/
def toInt64? : Json → Option Int
  | .num (.int n) => if fitsInt64 n then some n else none
  | _ => none

/-- The double a value stands for: a number, a numeral between blanks, or a truth value as one or zero. -/
def toFloat? : Json → Option Float
  | .num n => some n.toFloat
  | .str s => Numeral.read? (trimBlank s.toList)
  | .bool b => some (if b then 1.0 else 0.0)
  | _ => none

/-- The value of a double: an integer if it is whole and below `9 · 10 ^ 15`, undefined if it is not finite. -/
def ofFloat? (x : Float) : Option Json :=
  match wholeOf? x with
  | some n => some (if n.natAbs < 9000000000000000 then ofInt n else .num (.float x))
  | none => if isFinite x then some (.num (.float x)) else none

/-- An operation on two values: exact on 64-bit integers while the result is one, else on doubles. -/
def combine (onInt : Int → Int → Int) (onFloat : Float → Float → Float) (a b : Json) : Option Json :=
  let throughFloat : Option Json := do ofFloat? (onFloat (← a.toFloat?) (← b.toFloat?))
  match a.toInt64?, b.toInt64? with
  | some m, some n => if fitsInt64 (onInt m n) then some (ofInt (onInt m n)) else throughFloat
  | _, _ => throughFloat

/-- The sum of two values. -/
def add (a b : Json) : Option Json := combine (· + ·) (· + ·) a b

/-- The difference of two values. -/
def sub (a b : Json) : Option Json := combine (· - ·) (· - ·) a b

/-- The product of two values. -/
def mul (a b : Json) : Option Json := combine (· * ·) (· * ·) a b

/-- How two doubles compare; one that is no number compares with nothing. -/
def orderOfFloats? (x y : Float) : Option Ordering :=
  if x < y then some .lt else if x == y then some .eq else if y < x then some .gt else none

/-- How two values compare: strings by their characters, all else by the doubles they stand for. -/
def order? : Json → Json → Option Ordering
  | .str s, .str t => some (if s < t then .lt else if s = t then .eq else .gt)
  | a, b => do orderOfFloats? (← a.toFloat?) (← b.toFloat?)

mutual
/-- Equality of values as data: numbers of the same form, arrays item by item, objects whatever the order of their fields. -/
def same : Json → Json → Bool
  | .null, .null => true
  | .bool a, .bool b => a == b
  | .num m, .num n => m.same n
  | .str s, .str t => s == t
  | .arr xs, .arr ys => sameItems xs ys
  | .obj fs, .obj gs => fs.length == gs.length && sameFields fs gs
  | _, _ => false
/-- Whether two lists of items are equal as data, one by one. -/
def sameItems : List Json → List Json → Bool
  | [], [] => true
  | x :: xs, y :: ys => same x y && sameItems xs ys
  | _, _ => false
/-- Whether every field of the first list has an equal one of its name in the second. -/
def sameFields : List (String × Json) → Fields → Bool
  | [], _ => true
  | (name, v) :: rest, gs =>
    (match gs.get? name with
      | some w => same v w
      | none => false) && sameFields rest gs
end

/-- Equality as the comparison operators see it: numbers by value, whatever their form, all else as data. -/
def alike : Json → Json → Bool
  | .num m, .num n => order? (.num m) (.num n) == some .eq
  | a, b => same a b

/-- Whether a possibly undefined value counts as a satisfied condition: all do but undefined, null and false. -/
def truthy : Option Json → Bool
  | none | some .null | some (.bool false) => false
  | _ => true

end Json

end StarQuery
