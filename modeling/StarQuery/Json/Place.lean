import StarQuery.Json.Basic

/-!
# Changing a value in place

A path of names leads through objects to a place. Objects that are missing on the way are made; a value on the way that is
no object blocks it, and then nothing is changed.
-/

namespace StarQuery

namespace Json

/-- Changes what stands at a path, undefined if nothing does. The objects on the way are made even if nothing is put there. -/
def alterAt : List String → (Option Json → Option Json) → Option Json → Option Json
  | [], f, state => f state
  | name :: path, f, state =>
    match state.getD empty with
    | .obj fields => some (.obj (Fields.alter fields name (alterAt path f)))
    | other => some other

/-- Puts a value at a path. -/
def setAt : List String → Json → Json → Json
  | [], value, _ => value
  | name :: path, value, .obj fields =>
    .obj (Fields.alter fields name fun old => some (setAt path value (old.getD empty)))
  | _ :: _, _, state => state

end Json

end StarQuery
