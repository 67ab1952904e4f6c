import StarQuery.Catalogue

/-!
# Ordering generators

To bind a set of variables, their generators are put into an order in which each has what its source needs. This goes in
rounds: all generators whose needs are met are taken, in the order of the catalogue, until no more can be taken. The first
generator of a variable binds it, a later one tests it. What is left over cannot be ordered.
-/

namespace StarQuery

/-- A generator in its place. -/
structure Level where
  generator : Generator
  /-- The variables bound where its source is evaluated. -/
  seen : VarSet
  deriving Inhabited

namespace Level

/-- Whether the generator binds its variable; otherwise it tests the value the variable has. -/
def fresh (l : Level) : Bool := !decide (l.generator.var ∈ l.seen)

end Level

/-- An order of generators. -/
structure Plan where
  /-- The generators from the outermost to the innermost. -/
  levels : List Level
  /-- The generators that cannot be ordered. -/
  unsolved : List Generator
  /-- The variables bound inside all of them. -/
  bound : VarSet
  deriving Inhabited

namespace Plan

/-- Puts generators one after the other where `seen` is bound, and says what is bound after them. -/
def place (seen : VarSet) : List Generator → List Level × VarSet
  | [] => ([], seen)
  | g :: rest =>
    let (levels, bound) := place (seen.insert g.var) rest
    (⟨g, seen⟩ :: levels, bound)

/-- At most `n` rounds over the generators that are pending where `seen` is bound. -/
def rounds : Nat → List Generator → VarSet → Plan
  | 0, pending, seen => ⟨[], pending, seen⟩
  | n + 1, pending, seen =>
    let (available, rest) := pending.partition fun g => decide (g.needs ⊆ seen)
    if available.isEmpty then ⟨[], pending, seen⟩
    else
      let (levels, bound) := place seen available
      let plan := rounds n rest bound
      { plan with levels := levels ++ plan.levels }

/-- The order of those generators that generate a variable of `vars`, where `scope` is bound. Every round takes at least one,
so that there are no more rounds than generators. -/
def ofGenerators (generators : List Generator) (scope vars : VarSet) : Plan :=
  let pending := generators.filter fun g => decide (g.var ∈ vars)
  rounds pending.length pending scope

end Plan

namespace Generator

/-- A set of variables with the needs of their generators, taken one after the other. -/
def addNeeds (s : VarSet) (generators : List Generator) : VarSet :=
  generators.foldl (fun s g => if g.var ∈ s then s ∪ g.needs else s) s

/-- The needs added `n` times over. -/
def addNeedsTimes (generators : List Generator) : Nat → VarSet → VarSet
  | 0, s => s
  | n + 1, s => addNeedsTimes generators n (addNeeds s generators)

/-- A set of variables with everything that their generators need, at any distance. Each time over adds the needs of some
generator for good, so that as many times as there are generators will do. -/
def closure (generators : List Generator) (s : VarSet) : VarSet := addNeedsTimes generators generators.length s

end Generator

end StarQuery
