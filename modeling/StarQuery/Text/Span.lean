/-!
# Spans of a listing

A span is a range of byte offsets into a text. Diagnostics point at the first place where the text of a subterm occurs.
-/

namespace StarQuery

/-- A range of byte offsets, the end excluded. -/
structure Span where
  start : Nat
  stop : Nat
  deriving DecidableEq, Repr

namespace Span

/-- The byte offset of the first occurrence of `needle` in a text that stands at `offset`. -/
def find? (needle : List Char) : List Char → Nat → Option Nat
  | [], offset => if needle.isEmpty then some offset else none
  | c :: rest, offset =>
    if needle.isPrefixOf (c :: rest) then some offset else find? needle rest (offset + c.utf8Size)

/-- The span of the first occurrence of `needle` in a listing. The empty text occurs nowhere. -/
def locate? (listing needle : String) : Option Span :=
  if needle.isEmpty then none
  else (find? needle.toList listing.toList 0).map fun start => ⟨start, start + needle.utf8ByteSize⟩

/-- The span of the first occurrence, or of the whole listing if there is none. -/
def locate (listing needle : String) : Span := (locate? listing needle).getD ⟨0, listing.utf8ByteSize⟩

end Span

end StarQuery
