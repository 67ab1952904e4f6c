import StarQuery.Plan

/-!
# The levels of a plan

A plan puts generators into levels and leaves the others over; nothing else is in it. What is bound inside all levels is what
was bound before and what the levels bind: the levels form a chain, in which each sees what those before it bind
(`chained_ofGenerators`). Only what generators generate and need matters to their order (`ofGenerators_map`).
-/

namespace StarQuery

namespace Plan

/-- Placing generators makes a level of each, in their order. -/
theorem generators_place (seen : VarSet) (gs : List Generator) : (place seen gs).1.map Level.generator = gs := by
  induction gs generalizing seen with
  | nil => rfl
  | cons g rest ih => rw [place, List.map_cons, ih]

/-- Placing generators binds their variables. -/
theorem mem_bound_place {seen : VarSet} {gs : List Generator} {v : Var} :
    v ∈ (place seen gs).2 ↔ v ∈ seen ∨ ∃ g ∈ gs, g.var = v := by
  induction gs generalizing seen with
  | nil => simp [place]
  | cons g rest ih =>
    rw [place, ih, VarSet.mem_insert]
    constructor
    · rintro ((rfl | hv) | ⟨h, hh, rfl⟩)
      · exact .inr ⟨g, List.mem_cons_self, rfl⟩
      · exact .inl hv
      · exact .inr ⟨h, List.mem_cons_of_mem _ hh, rfl⟩
    · rintro (hv | ⟨h, hh, rfl⟩)
      · exact .inl (.inr hv)
      · rcases List.mem_cons.1 hh with rfl | hh
        · exact .inl (.inl rfl)
        · exact .inr ⟨h, hh, rfl⟩

/-- The levels of rounds are levels of pending generators. -/
theorem mem_levels_rounds {n : Nat} {pending : List Generator} {seen : VarSet} {l : Level}
    (h : l ∈ (rounds n pending seen).levels) : l.generator ∈ pending := by
  induction n generalizing pending seen with
  | zero => exact absurd h List.not_mem_nil
  | succ n ih =>
    rw [rounds] at h
    simp only at h
    split at h
    · exact absurd h List.not_mem_nil
    · rcases List.mem_append.1 h with h | h
      · have hg := List.mem_map_of_mem (f := Level.generator) h
        rw [generators_place, List.partition_eq_filter_filter] at hg
        exact (List.mem_filter.1 hg).1
      · have hg := ih h
        rw [List.partition_eq_filter_filter] at hg
        exact (List.mem_filter.1 hg).1

/-- The levels of a plan are levels of generators of its variables. -/
theorem mem_levels_ofGenerators {generators : List Generator} {scope vars : VarSet} {l : Level}
    (h : l ∈ (ofGenerators generators scope vars).levels) : l.generator ∈ generators ∧ l.generator.var ∈ vars := by
  have hg := List.mem_filter.1 (mem_levels_rounds h)
  exact ⟨hg.1, of_decide_eq_true hg.2⟩

/-! ## Chains of levels -/

/-- Levels that lead from where `seen` is bound to where `bound` is: each sees what those before it bind. -/
def Chained : VarSet → List Level → VarSet → Prop
  | seen, [], bound => seen = bound
  | seen, l :: rest, bound => l.seen = seen ∧ Chained (seen.insert l.generator.var) rest bound

/-- One chain of levels after another. -/
theorem Chained.append {seen between bound : VarSet} {xs ys : List Level} (hx : Chained seen xs between)
    (hy : Chained between ys bound) : Chained seen (xs ++ ys) bound := by
  induction xs generalizing seen with
  | nil =>
    have hseen : seen = between := hx
    rw [hseen]
    exact hy
  | cons l xs ih => exact ⟨hx.1, ih hx.2⟩

/-- The levels of placed generators are a chain. -/
theorem chained_place (seen : VarSet) (gs : List Generator) : Chained seen (place seen gs).1 (place seen gs).2 := by
  induction gs generalizing seen with
  | nil => rfl
  | cons g gs ih => exact ⟨rfl, ih (seen.insert g.var)⟩

/-- The levels of rounds are a chain, round after round. -/
theorem chained_rounds (n : Nat) (pending : List Generator) (seen : VarSet) :
    Chained seen (rounds n pending seen).levels (rounds n pending seen).bound := by
  induction n generalizing pending seen with
  | zero => rfl
  | succ n ih =>
    rw [rounds]
    simp only
    split
    · rfl
    · exact (chained_place seen _).append (ih _ _)

/-- The levels of a plan lead from the variables around to all that the plan binds. -/
theorem chained_ofGenerators (generators : List Generator) (scope vars : VarSet) :
    Chained scope (ofGenerators generators scope vars).levels (ofGenerators generators scope vars).bound :=
  chained_rounds _ _ scope

end Plan

/-! ## Plans of other generators -/

/-- A level with its generator changed. -/
def Level.map (f : Generator → Generator) (l : Level) : Level := ⟨f l.generator, l.seen⟩

/-- A plan with its generators changed. -/
def Plan.map (f : Generator → Generator) (p : Plan) : Plan := ⟨p.levels.map (Level.map f), p.unsolved.map f, p.bound⟩

section
variable {f : Generator → Generator} (hvar : ∀ g, (f g).var = g.var)
include hvar

/-- Placing depends on what generators generate. -/
theorem Plan.place_map (seen : VarSet) (gs : List Generator) :
    place seen (gs.map f) = ((place seen gs).1.map (Level.map f), (place seen gs).2) := by
  induction gs generalizing seen with
  | nil => rfl
  | cons g gs ih =>
    rw [List.map_cons, place, place, hvar, ih]
    rfl

variable (hneeds : ∀ g, (f g).needs = g.needs)
include hneeds

/-- Rounds depend on what generators generate and need. -/
theorem Plan.rounds_map (n : Nat) (pending : List Generator) (seen : VarSet) :
    rounds n (pending.map f) seen = (rounds n pending seen).map f := by
  induction n generalizing pending seen with
  | zero => rfl
  | succ n ih =>
    have hfilter : ∀ p : VarSet → Bool,
        (pending.map f).filter (fun g => p g.needs) = (pending.filter fun g => p g.needs).map f := by
      intro p
      rw [List.filter_map]
      congr 2
      funext g
      simp [hneeds]
    have havailable := hfilter fun needs => decide (needs ⊆ seen)
    have hrest := hfilter fun needs => !decide (needs ⊆ seen)
    rw [rounds, rounds]
    simp only [List.partition_eq_filter_filter, Function.comp_def, havailable, hrest, List.isEmpty_map, place_map hvar, ih]
    split
    · rfl
    · simp only [map, List.map_append]

/-- The order of generators depends on what they generate and need. -/
theorem Plan.ofGenerators_map (gs : List Generator) (scope vars : VarSet) :
    ofGenerators (gs.map f) scope vars = (ofGenerators gs scope vars).map f := by
  have hfilter : (gs.map f).filter (fun g => decide (g.var ∈ vars)) = (gs.filter fun g => decide (g.var ∈ vars)).map f := by
    rw [List.filter_map]
    congr 2
    funext g
    simp [hvar]
  rw [ofGenerators, ofGenerators]
  simp only [hfilter, List.length_map]
  exact rounds_map hvar hneeds _ _ _

/-- The closure depends on what generators generate and need. -/
theorem Generator.closure_map (gs : List Generator) (vars : VarSet) : closure (gs.map f) vars = closure gs vars := by
  have hadd : ∀ seen, addNeeds seen (gs.map f) = addNeeds seen gs := by
    intro seen
    rw [addNeeds, addNeeds, List.foldl_map]
    simp only [hvar, hneeds]
  unfold closure
  rw [List.length_map]
  induction gs.length generalizing vars with
  | zero => rfl
  | succ n ih => rw [addNeedsTimes, addNeedsTimes, hadd, ih]

end

end StarQuery
