import StarQuery.Diagnostic.Basic

/-!
# Reports

A diagnostic drawn under the listing it is about: the message, the place, the line with the span underlined and an arrow to
the message, and below it the help and the last note. The listing is one line of ASCII, where bytes are columns. A span that
goes past the listing has no place in it, and only the message is shown.
-/

namespace StarQuery

namespace Diagnostic

/-- A character repeated. -/
def times (n : Nat) (c : Char) : String := String.ofList (List.replicate n c)

/-- The underline of a span, with a corner where the arrow leaves it; a bar for an empty span. -/
def underline (s : Span) : String :=
  if s.start = s.stop then times s.start ' ' ++ "│ "
  else
    let corner := (s.start + s.stop) / 2
    times s.start ' ' ++ times (corner - s.start) '─' ++ "┬" ++ times (s.stop - corner - 1) '─' ++ "  "

/-- The arrow from the underline of a span to the message. -/
def arrow (s : Span) (message : String) : String :=
  let corner := (s.start + s.stop) / 2
  times corner ' ' ++ "╰" ++ times (s.stop - corner + 1) '─' ++ " " ++ message

/-- The lines of the report on a diagnostic. -/
def report (d : Diagnostic) (filename listing : String) : List String :=
  let title := d.severity.name ++ ": " ++ d.message
  if listing.isEmpty || listing.utf8ByteSize < d.span.stop then [title]
  else
    let below (label : String) : Option String → List String
      | none => []
      | some text => ["   │ ", "   │ " ++ label ++ ": " ++ text]
    [title, "   ╭─[" ++ filename ++ ":1:" ++ toString (d.span.start + 1) ++ "]", "   │", " 1 │ " ++ listing,
        "   │ " ++ underline d.span, "   │ " ++ arrow d.span d.message] ++
      below "Help" d.help ++ below "Note" d.notes.getLast? ++ ["───╯"]

end Diagnostic

end StarQuery
