/-!
# Reading numerals

A numeral is an optional sign and then either digits with at most one point among, before or after them and an optional
exponent, or one of the words for infinity and for no number, in any case. Its value is the double nearest to what it
says. An index is read from digits with an optional plus sign. The readers stand for those of a standard library, which are
not modelled themselves.
-/

namespace StarQuery

namespace Numeral

/-- The value of a list of decimal digits. -/
def natOf (digits : List Char) : Nat :=
  digits.foldl (fun n c => 10 * n + (c.toNat - '0'.toNat)) 0

/-- A text without its leading sign, and whether that sign was a minus. -/
def sign : List Char → Bool × List Char
  | '-' :: rest => (true, rest)
  | '+' :: rest => (false, rest)
  | cs => (false, cs)

/-- The exponent that a text after the digits of a numeral gives: none of it is zero, a mark needs digits after it. -/
def exponent? : List Char → Option Int
  | [] => some 0
  | c :: rest =>
    let (negative, digits) := sign rest
    if (c == 'e' || c == 'E') && !digits.isEmpty && digits.all Char.isDigit then
      some (if negative then -(natOf digits : Int) else natOf digits)
    else none

/-- The double nearest to `digits · 10 ^ exponent`. Where the number has more than 400 digits before its point, or 400 zeros
after it, no power of ten is computed: it is too large or too small for a double. -/
def scaled (digits : Nat) (exponent : Int) : Float :=
  let size := ((Nat.toDigits 10 digits).length : Int) + exponent
  if digits = 0 || size < -400 then 0.0
  else if 400 < size then 1.0 / 0.0
  else Float.ofScientific digits (decide (exponent < 0)) exponent.natAbs

/-- The value of a numeral without sign. -/
def magnitude? (cs : List Char) : Option Float :=
  let whole := cs.takeWhile Char.isDigit
  let afterWhole := cs.dropWhile Char.isDigit
  let (fraction, tail) := match afterWhole with
    | '.' :: rest => (rest.takeWhile Char.isDigit, rest.dropWhile Char.isDigit)
    | rest => ([], rest)
  let word := String.ofList (cs.map Char.toLower)
  if word == "inf" || word == "infinity" then some (1.0 / 0.0)
  else if word == "nan" then some (0.0 / 0.0)
  else if whole.isEmpty && fraction.isEmpty then none
  else (exponent? tail).map fun e => scaled (natOf (whole ++ fraction)) (e - fraction.length)

/-- The value of a numeral, none if the text is no numeral. -/
def read? (cs : List Char) : Option Float :=
  let (negative, rest) := sign cs
  (magnitude? rest).map fun x => if negative then -x else x

/-- The greatest index there is: `2 ^ 64 - 1`. -/
def maxIndex : Nat := 0xFFFFFFFFFFFFFFFF

/-- The index a text names: digits, a plus sign allowed before them, of a value up to the greatest index. -/
def readIndex? (cs : List Char) : Option Nat :=
  let digits := match cs with
    | '+' :: rest => rest
    | _ => cs
  let n := natOf digits
  if !digits.isEmpty && digits.all Char.isDigit && n ≤ maxIndex then some n else none

end Numeral

end StarQuery
