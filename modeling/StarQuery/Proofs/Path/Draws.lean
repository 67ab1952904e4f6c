import StarQuery.Proofs.Direct.Draws
import StarQuery.Proofs.Path.Node

/-!
# What star paths draw

The stars of a path are the generators of its variables (`StarPath.generators`); they form a chain, as each star needs those before
it. The bindings that are drawn from them lead to the values of the path, in the order of nested iteration
(`StarPath.map_value_draws`), and those drawn from the stars of a path that goes on from another to what is reached from there
(`StarPath.map_value_drawsFrom`).
-/

namespace StarQuery

namespace StarPath

section
variable (N : Naming)

/-- The lookup of a star after a path, in a finished tree. -/
def starFilter (p : StarPath) : Node := (p.get .star).node N .taking

/-- The generator of the variable of a star after a path. -/
def generator (p : StarPath) : Generator := ⟨p.starVar N, p.node N .taking, (p.starFilter N).text N.table⟩

/-- The generators of the stars of a path. -/
def generators (p : StarPath) : List Generator := p.stops.map (generator N)

/-- The generators of the stars among segments at the end of a path. -/
def generatorsFrom (p : StarPath) (segments : List Segment) : List Generator := (p.stopsFrom segments).map (generator N)

end

variable {N : Naming}

/-- A star needs the stars before it. -/
theorem needs_generator (p : StarPath) : (p.generator N).needs = p.stars N := by
  rw [Generator.needs, generator, info_node]
  rfl

/-- The variables of the stars are those that their generators generate. -/
theorem mem_stars_iff {p : StarPath} {v : Var} : v ∈ p.stars N ↔ ∃ g ∈ p.generators N, g.var = v := by
  simp [mem_stars, generators, generator]

/-- All generators of a path generate variables of its stars. -/
theorem filter_generators (p : StarPath) :
    (p.generators N).filter (fun g => decide (g.var ∈ p.stars N)) = p.generators N :=
  List.filter_eq_self.2 fun g hg => decide_eq_true (mem_stars_iff.2 ⟨g, hg, rfl⟩)

/-- The generators of a longer path are those of the path and those of its further segments. -/
theorem generators_append (p : StarPath) (segments : List Segment) :
    (p.append segments).generators N = p.generators N ++ p.generatorsFrom N segments := by
  rw [generators, stops_append, List.map_append, generators, generatorsFrom]

/-- The generators of segments at the end of a path are generators of the longer path. -/
theorem mem_generators_append {p : StarPath} {segments : List Segment} {g : Generator} (h : g ∈ p.generatorsFrom N segments) :
    g ∈ (p.append segments).generators N := by
  rw [generators_append]
  exact List.mem_append_right _ h

/-- The input has no generators of its own. -/
theorem generators_eq (segments : List Segment) :
    (StarPath.input.append segments).generators N = StarPath.input.generatorsFrom N segments := generators_append _ _

/-- The lookups of variables in the node of a path are those of its stars. -/
theorem filters_node (p : StarPath) : (p.node N .taking).filters = p.stops.map (starFilter N) := by
  induction p with
  | input => rfl
  | get base key ih =>
    rw [Node.filters_eq]
    cases key with
    | name n => simp [node, Node.children, Node.filterVar?, Node.asVar?, ih, stops, Node.filters_eq]
    | star => simp [node, Node.children, Node.filterVar?, Node.asVar?, ih, stops, Node.filters_eq, starFilter]

/-- The lookup of a star, taken apart, is its generator. -/
theorem ofFilter?_starFilter (p : StarPath) : Generator.ofFilter? N.table (p.starFilter N) = some (p.generator N) := rfl

/-! ## Chains -/

/-- What a longer path has named is named for the path that it goes on from. -/
theorem Named.of_append {p : StarPath} {segments : List Segment} (h : Named N (p.append segments)) : Named N p := by
  intro q hq
  refine h q ?_
  rw [stops_append]
  exact List.mem_append_left _ hq

/-- The stars of segments at the end of a path need those of the path, and those before them. -/
theorem Named.chainFrom {p : StarPath} {segments : List Segment} (h : Named N (p.append segments)) :
    Generator.Chain (p.stars N) (p.generatorsFrom N segments) := by
  induction segments generalizing p with
  | nil => trivial
  | cons s segments ih =>
    cases s with
    | name n =>
      have hchain := @ih (p.get (.name n)) h
      rwa [stars_name] at hchain
    | star =>
      have hnamed : Named N (p.get .star) := @Named.of_append N (p.get .star) segments h
      refine ⟨?_, hnamed.fresh, ?_, ?_⟩
      · rw [needs_generator]
        exact fun v hv => hv
      · intro g hg
        obtain ⟨q, hq, rfl⟩ := List.mem_map.1 hg
        rw [needs_generator, mem_stars]
        exact ⟨p, stops_subset_of_mem_stopsFrom hq (List.mem_append_right _ List.mem_cons_self), rfl⟩
      · have hseen : (p.stars N).insert (p.starVar N) = (p.get .star).stars N := by
          refine VarSet.ext fun v => ?_
          rw [stars_star, VarSet.mem_insert, VarSet.mem_union, VarSet.mem_single, or_comm]
        exact hseen ▸ ih h

/-- The stars of a path form a chain. -/
theorem Named.chain {p : StarPath} (h : Named N p) : Generator.Chain ∅ (p.generators N) := by
  obtain ⟨segments, rfl⟩ := p.exists_append
  rw [generators_eq]
  exact h.chainFrom

/-- Where all stars of a path are placed, their variables are bound and no others. -/
theorem bound_place_generators (p : StarPath) : (Plan.place ∅ (p.generators N)).2 = p.stars N := by
  refine VarSet.ext fun v => ?_
  rw [Plan.mem_bound_place, mem_stars_iff]
  simp

/-! ## Values -/

section
variable {given : Given} {aggregate : Direct.Valuation} {sets : VarSet → VarInfo}

/-- The value of a path does not depend on variables other than those of its stars. -/
theorem ignores_node {p : StarPath} {v : Var} (h : ¬ v ∈ p.stars N) :
    Direct.Ignores (Direct.valueWith given aggregate) v (p.node N sets) := by
  intro b x
  induction p with
  | input => rfl
  | get base key ih =>
    cases key with
    | name n => rw [node, Direct.valueWith, Direct.valueWith, ih h, Direct.valueWith, Direct.valueWith]
    | star =>
      rw [stars_star, VarSet.mem_union, VarSet.mem_single, not_or] at h
      rw [node, Direct.valueWith, Direct.valueWith, ih h.1, Direct.valueWith, Direct.valueWith,
        Binding.set_of_ne (Ne.symm h.2)]

/-- A name at the end of a path leads to the part under it. -/
theorem value_name (p : StarPath) (n : PlainName) (b : Binding) :
    Direct.valueWith given aggregate b ((p.get (.name n)).node N sets) =
      (Direct.valueWith given aggregate b (p.node N sets)).bind fun c => c.get? (.str n.text) := rfl

variable (htable : given.table = N.table)

include htable

/-- A star at the end of a path leads to the part under the key that its variable has. -/
theorem Named.value_star {p : StarPath} (h : Named N (p.get .star)) (b : Binding) :
    Direct.valueWith given aggregate b ((p.get .star).node N sets) =
      (Direct.valueWith given aggregate b (p.node N sets)).bind fun c => (b (p.starVar N)).bind fun k => c.get? k := by
  have hdeep : given.table.isDeep (p.starVar N) = false := htable ▸ h.star.isDeep_eq_false (by decide)
  simp [node, Direct.valueWith, Node.asVar?, hdeep]

/-- A star has the keys of what stands before it to offer. -/
theorem Named.offers_eq {p : StarPath} (h : Named N (p.get .star)) (b : Binding) :
    Direct.offers given (Direct.valueWith given aggregate) (p.generator N) b =
      ((Direct.valueWith given aggregate b (p.node N .taking)).map Json.keys).getD [] := by
  have hdeep : given.table.isDeep (p.generator N).var = false := htable ▸ h.star.isDeep_eq_false (by decide)
  have hsource : (p.generator N).source = p.node N .taking := rfl
  rw [Direct.offers, hsource, hdeep]
  cases Direct.valueWith given aggregate b (p.node N .taking) <;> rfl

/-- The bindings that are drawn from the stars of segments at the end of a path lead to what the segments reach from the value of
the path. -/
theorem Named.map_value_drawsFrom {p : StarPath} {segments : List Segment} (h : Named N (p.append segments)) (b : Binding) :
    (Direct.draws given (Direct.valueWith given aggregate) (p.generatorsFrom N segments) b).map
        (Direct.valueWith given aggregate · ((p.append segments).node N .taking)) =
      reach segments (Direct.valueWith given aggregate b (p.node N .taking)) := by
  induction segments generalizing p b with
  | nil => rfl
  | cons s segments ih =>
    cases s with
    | name n =>
      rw [reach, Segment.step, List.flatMap_singleton, ← value_name]
      exact ih h b
    | star =>
      have hnamed : Named N (p.get .star) := @Named.of_append N (p.get .star) segments h
      have hstep : ∀ x, Direct.valueWith given aggregate (b.set (p.starVar N) x) ((p.get .star).node N .taking) =
          (Direct.valueWith given aggregate b (p.node N .taking)).bind fun c => c.get? x := by
        intro x
        rw [hnamed.value_star htable, ignores_node hnamed.fresh b x, Binding.set_self]
        rfl
      have hrest : ∀ x, (Direct.draws given (Direct.valueWith given aggregate) ((p.get .star).generatorsFrom N segments)
            (b.set (p.starVar N) x)).map (Direct.valueWith given aggregate · ((p.append (.star :: segments)).node N .taking)) =
          reach segments ((Direct.valueWith given aggregate b (p.node N .taking)).bind fun c => c.get? x) := by
        intro x
        rw [← hstep]
        exact ih h _
      change ((Direct.offers given (Direct.valueWith given aggregate) (p.generator N) b).flatMap fun x =>
        Direct.draws given (Direct.valueWith given aggregate) ((p.get .star).generatorsFrom N segments)
          (b.set (p.starVar N) x)).map _ = _
      rw [List.map_flatMap, hnamed.offers_eq htable, reach]
      simp only [hrest]
      cases Direct.valueWith given aggregate b (p.node N .taking) with
      | none => rfl
      | some c => rw [Segment.step, List.flatMap_map]; rfl

/-- The bindings that are drawn from the stars of a path lead to its values. -/
theorem Named.map_value_draws {p : StarPath} (h : Named N p) (b : Binding) :
    (Direct.draws given (Direct.valueWith given aggregate) (p.generators N) b).map
        (Direct.valueWith given aggregate · (p.node N .taking)) = p.values given.input := by
  obtain ⟨segments, rfl⟩ := p.exists_append
  rw [generators_eq, h.map_value_drawsFrom htable, values_append, values, List.flatMap_singleton]
  rfl

end

end StarPath

end StarQuery
