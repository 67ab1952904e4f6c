import StarQuery.Json.Basic
import StarQuery.Number.Shortest

/-!
# The text of a JSON value

Compact JSON: no blanks, fields in order. A string escapes the quote, the backslash and the control characters and nothing
else. An integer is written in decimal. A double is written with the fewest digits that read back, in plain notation from
`1e-5` up to `1e16` and with a signed exponent beyond. The texts are those of a JSON library, which is not modelled itself:
what is stated here is what it writes.
-/

namespace StarQuery

/-- Doubles are written in plain notation when their first digit stands for `10 ^ -5` up to `10 ^ 15`; a positive exponent has
a plus sign. -/
def Json.layout : Decimal.Layout := ⟨-5, 16, "+"⟩

namespace Number

/-- The text of a double. It stands for the printer of doubles of a JSON library, whose digits are found there by another
algorithm than in `Decimal.shortest`. One that is not finite has no JSON text; a word for it stands in. -/
def floatText (x : Float) : String :=
  match Scaled.ofFloat? x with
  | none => if x.isNaN then "NaN" else if x < 0 then "-Infinity" else "Infinity"
  | some s =>
    let magnitude := if s.coefficient = 0 then "0.0" else (Decimal.shortest s.coefficient s.exponent).text Json.layout
    if s.negative then "-" ++ magnitude else magnitude

/-- The text of a number, as a JSON library writes it. -/
def text : Number → String
  | .int n => toString n
  | .float x => floatText x

end Number

namespace Json

/-- A hexadecimal digit, in lower case. -/
def hexDigit (n : Nat) : Char := Nat.digitChar (n % 16)

/-- A character as it stands in a string: the quote, the backslash and the control characters are escaped. -/
def escape (c : Char) : List Char :=
  match c with
  | '"' => ['\\', '"']
  | '\\' => ['\\', '\\']
  | '\x08' => ['\\', 'b']
  | '\x0c' => ['\\', 'f']
  | '\n' => ['\\', 'n']
  | '\r' => ['\\', 'r']
  | '\t' => ['\\', 't']
  | c => if c.toNat < 0x20 then ['\\', 'u', '0', '0', hexDigit (c.toNat / 16), hexDigit c.toNat] else [c]

/-- A string between quotes. -/
def quoted (s : String) : List Char := '"' :: (s.toList.flatMap escape ++ ['"'])

mutual
/-- The characters of a value. -/
def chars : Json → List Char
  | .null => "null".toList
  | .bool b => (if b then "true" else "false").toList
  | .num n => n.text.toList
  | .str s => quoted s
  | .arr items => '[' :: (itemChars items ++ [']'])
  | .obj fields => '\x7b' :: (fieldChars fields ++ ['\x7d'])
/-- The characters of the items of an array, commas between them. -/
def itemChars : List Json → List Char
  | [] => []
  | [v] => chars v
  | v :: rest => chars v ++ ',' :: itemChars rest
/-- The characters of the fields of an object, commas between them. -/
def fieldChars : List (String × Json) → List Char
  | [] => []
  | [(k, v)] => quoted k ++ ':' :: chars v
  | (k, v) :: rest => quoted k ++ ':' :: (chars v ++ ',' :: fieldChars rest)
end

/-- The compact text of a value. -/
def text (v : Json) : String := String.ofList v.chars

/-- A value as it is shown in a listing: a string bare, any other value as its text. -/
def plain : Json → String
  | .str s => s
  | v => v.text

end Json

end StarQuery
