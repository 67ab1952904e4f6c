import StarQuery.Json.Key

/-!
# Trees of keys

The different key tuples that a projection has collected, as a tree: the keys of the first components in the order in which
they were first seen, and below each the tree of what follows it. Keys with the same text are the same key, the first of them
stays.
-/

namespace StarQuery

/-- A list of keys, each with the tree of the keys that follow it. -/
inductive KeyTree where
  | nil
  | cons (key : Json) (below rest : KeyTree)
  deriving Inhabited

namespace KeyTree

/-- The tree of one tuple. -/
def chain : List Json → KeyTree
  | [] => .nil
  | key :: keys => .cons key (chain keys) .nil

/-- Adds a tuple to a tree. -/
def insert : KeyTree → List Json → KeyTree
  | .nil, keys => chain keys
  | tree, [] => tree
  | .cons key below rest, k :: ks =>
    if key.keyText = k.keyText then .cons key (insert below ks) rest else .cons key below (insert rest (k :: ks))

/-- The first components in order, each with the tree of what follows it. -/
def entries : KeyTree → List (Json × KeyTree)
  | .nil => []
  | .cons key below rest => (key, below) :: entries rest

end KeyTree

end StarQuery
