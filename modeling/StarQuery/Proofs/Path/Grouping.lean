import StarQuery.Proofs.Direct.Keys
import StarQuery.Proofs.Path.Reduction

/-!
# Groupings of reductions over star paths

A grouping of a reduction by a star path is an update of the empty object by a variable, the key, which is drawn from the set of the
one value that the path has for each binding of its stars. So the keys are the different key texts of the values of the path, in the
order in which they are first seen (`StarPath.KeyNamed.nestBindings_key`), and the result has a field for each of them where the
reduction is defined (`Compiles.run_grouping`). What the reduction is for a key depends on whether its own stars are correlated with
those of the key.
-/

namespace StarQuery

/-- A grouping resolves to the grouping of what its key and its value resolve to. -/
theorem Term.ofQuery_group {k v : Query} {key value : Term} (hk : ofQuery k = .ok key) (hv : ofQuery v = .ok value) :
    ofQuery (.group k v) = .ok (.group key value) := by
  have hargs : ofQueries [k, v] = .ok [key, value] := by
    rw [ofQueries, hk, ofQueries, hv, ofQueries]
    rfl
  rw [Query.group, ofQuery, hargs]
  rfl

/-- The different key texts of values, in the order in which they are first seen. -/
def keyTexts (values : List (Option Json)) : List String := (values.filterMap fun u => u.map Json.keyText).eraseDups

namespace StarPath

section
variable (N : Naming)

/-- The variable of the key of a grouping by a path. -/
def keyVar (p : StarPath) : Var := (N.nameAfter 'K' (Node.keySet {} (p.node N fun _ => {})).fingerprint).1

/-- The set that the key of a grouping by a path is drawn from, in a finished tree. -/
def keySource (p : StarPath) : Node := .keySet (.taking (p.stars N)) (p.node N .taking)

/-- The lookup of the key of a grouping by a path, in a finished tree. -/
def keyFilter (p : StarPath) : Node :=
  .get (.taking (p.stars N ∪ .single (p.keyVar N))) (p.keySource N) (Node.keyVar (p.keyVar N))

/-- The generator of the key of a grouping by a path. -/
def keyGenerator (p : StarPath) : Generator := ⟨p.keyVar N, p.keySource N, (p.keyFilter N).text N.table⟩

/-- The stars of a path are named after what they range over, and the key of a grouping by the path after its set. -/
structure KeyNamed (p : StarPath) : Prop where
  path : Named N p
  key : N.NamedAfter 'K' (Node.keySet {} (p.node N fun _ => {})).fingerprint (p.keyVar N)

/-- The grouping by a path of the reduction over another, in a finished tree, if the reduction takes some variables from
around it. -/
def grouping (i : VarInfo) (r : Reducer) (key value : StarPath) (free : VarSet) : Node :=
  .update i (.const {} Json.empty) (Node.keyVar (key.keyVar N)) (value.reduction N r free) (some (key.keyFilter N))

end

variable {N : Naming}

/-- The key of a grouping needs the stars of its path. -/
theorem needs_keyGenerator (p : StarPath) : (p.keyGenerator N).needs = p.stars N := rfl

/-- The key of a grouping is no star. -/
theorem KeyNamed.not_mem_stars {p q : StarPath} (h : KeyNamed N p) (hq : Named N q) : ¬ p.keyVar N ∈ q.stars N := by
  intro hmem
  obtain ⟨b, hb, heq⟩ := mem_stars.1 hmem
  have hstar := hq b hb
  rw [heq] at hstar
  exact absurd (h.key.inj hstar).1 (by decide)

/-! ## The tree of a grouping -/

/-- The passes from the root down give the filter of a key the stars of its path and the key. -/
theorem annotated_keyFilter (d : Dependencies) (p : StarPath) (outB outF : VarSet) (path : List Grouping) :
    Node.annotated d (Node.measuredFilter (p.node N .spanning) (p.keyVar N)) outB outF path = p.keyFilter N := by
  rw [Node.annotated_filter, annotated_node]
  simp [info_node, keyFilter, keySource, Node.measuredFilter, Node.measuredVar,
    Node.settleExtent, Node.extent, Node.jointExtent, Node.setInfo, VarInfo.taking, VarInfo.spanning]

/-- The lookups of variables in the filter of a key are the stars of its path, and the filter. -/
theorem filters_keyFilter (p : StarPath) : (p.keyFilter N).filters = p.stops.map (starFilter N) ++ [p.keyFilter N] := by
  have hsource : (p.keySource N).filters = p.stops.map (starFilter N) := by
    rw [Node.filters_eq]
    simp [keySource, Node.children, Node.filterVar?, filters_node]
  have hvar : (Node.keyVar (p.keyVar N)).filters = [] := rfl
  have hchildren : (p.keyFilter N).children = [p.keySource N, Node.keyVar (p.keyVar N)] := rfl
  have hfilter : (p.keyFilter N).filterVar? = some (p.keyVar N) := rfl
  rw [Node.filters_eq, hchildren, hfilter]
  simp [hsource, hvar]

/-- The lookups of variables in a grouping are those of the stars of both paths, and of the key. -/
theorem filters_grouping (i : VarInfo) (r : Reducer) (key value : StarPath) (free : VarSet) :
    (grouping N i r key value free).filters =
      value.stops.map (starFilter N) ++ (key.stops.map (starFilter N) ++ [key.keyFilter N]) := by
  have hbase : (Node.const {} Json.empty).filters = [] := rfl
  have hvar : (Node.keyVar (key.keyVar N)).filters = [] := rfl
  rw [Node.filters_eq]
  simp [grouping, Node.children, Node.filterVar?, hbase, hvar, filters_reduction, filters_keyFilter]

/-- The lookups of the stars of the value, of some stars of the key that are not among them, and of the key are all different. -/
theorem KeyNamed.nodup_filters {key value : StarPath} (hkey : KeyNamed N key) (hvalue : Named N value) {others : List StarPath}
    (hsubset : others ⊆ key.stops) (hnodup : (others.map (starVar N)).Nodup) (hothers : ∀ p ∈ others, ¬ p ∈ value.stops) :
    ((value.stops ++ others).map (starFilter N) ++ [key.keyFilter N]).Nodup := by
  refine List.Nodup.of_map Node.filterVar? ?_
  have hvars : ((value.stops ++ others).map (starFilter N) ++ [key.keyFilter N]).map Node.filterVar? =
      ((value.stops ++ others).map (starVar N) ++ [key.keyVar N]).map some := by
    simp only [List.map_append, List.map_map]
    rfl
  rw [hvars]
  refine List.Nodup.map (Option.some_injective _) (List.nodup_append.2 ⟨?_, List.nodup_singleton _, ?_⟩)
  · rw [List.map_append]
    refine List.nodup_append.2 ⟨hvalue.nodup_vars, hnodup, ?_⟩
    intro v hv w hw heq
    obtain ⟨p, hp, rfl⟩ := List.mem_map.1 hv
    obtain ⟨p', hp', rfl⟩ := List.mem_map.1 hw
    rw [starVar_inj (hvalue p hp) (hkey.path p' (hsubset hp')) heq] at hp
    exact hothers p' hp' hp
  · intro v hv w hw heq
    rw [List.mem_singleton.1 hw] at heq
    obtain ⟨p, hp, rfl⟩ := List.mem_map.1 hv
    rcases List.mem_append.1 hp with hp | hp
    · exact hkey.not_mem_stars hvalue (mem_stars.2 ⟨p, hp, heq⟩)
    · exact hkey.not_mem_stars hkey.path (mem_stars.2 ⟨p, hsubset hp, heq⟩)

end StarPath

namespace Derivation

variable {q : Query} {D : Derivation q} {r : Reducer} {key value : StarPath}
  (hterm : D.term = .group key.term (.reduce r value.term))

include hterm

/-- The root of a grouping is an update of the empty object by the key, with the reduction for its value. -/
theorem root_grouping :
    D.root = (Node.update {} (.const {} Json.empty) (Node.measuredVar (key.keyVar D.naming))
        (Node.reduce {} r .eager (value.node D.naming .spanning)).settleExtent
        (some (Node.measuredFilter (key.node D.naming .spanning) (key.keyVar D.naming)))).settleExtent ∧
      key.KeyNamed D.naming ∧ value.Named D.naming := by
  have hreads := D.reads
  rw [hterm] at hreads
  generalize hnode : D.node = n at hreads
  cases hreads with
  | group hupdate =>
    cases hupdate with
    | named _ hkey => exact absurd (key.names_term) hkey.names_ne_nil
    | @keyed _ _ _ b k x v hbase hkey hvalue _ hv =>
      cases hbase
      cases hvalue with
      | reduce harg =>
        obtain ⟨rfl, hkeys⟩ := StarPath.of_reads hkey
        obtain ⟨rfl, hvalues⟩ := StarPath.of_reads harg
        have hvar : key.keyVar D.naming = v := hv.nameAfter_eq
        have hgathers : (Term.reduce r value.term).gathers = true := rfl
        refine ⟨?_, ⟨hkeys, hvar.symm ▸ hv⟩, hvalues⟩
        rw [root, hnode, hvar, Node.gathered, if_pos hgathers]
        simp only [Node.withExtents, Node.optionWithExtents, StarPath.withExtents_node]
        rfl

/-- The filter that generates the key of a grouping is in its tree. -/
theorem filter_mem_root_grouping :
    Node.measuredFilter (key.node D.naming .spanning) (key.keyVar D.naming) ∈ D.root.postorder := by
  rw [(root_grouping hterm).1]
  exact Node.mem_postorder_of_mem_children Node.filter_mem_children (Node.self_mem_postorder _)

/-- The tree of a grouping is the grouping. The reduction in it takes the key from around it if it is correlated with it. -/
theorem tree_grouping (output : Output) :
    ∃ i : VarInfo, i.free = ∅ ∧ i.bound = .single (key.keyVar D.naming) ∧
      D.tree output = StarPath.grouping D.naming i r key value (Node.needed D.dependencies (value.stars D.naming)
        (value.stars D.naming) (.single (key.keyVar D.naming))
        [⟨.single (key.keyVar D.naming), D.dependencies.ofSet (.single (key.keyVar D.naming))⟩]) := by
  obtain ⟨hroot, hkey, hvalue⟩ := root_grouping hterm
  have hindex : output.indexOf D.root = ∅ := by
    rw [hroot]
    cases output <;> rfl
  have hout : ∀ v ∈ value.stars D.naming, ¬ v ∈ ∅ ∪ VarSet.single (key.keyVar D.naming) := by
    intro v hv hin
    rw [VarSet.empty_union, VarSet.mem_single] at hin
    exact hkey.not_mem_stars hvalue (hin ▸ hv)
  rw [D.tree_of_indexOf hindex, hroot, Node.annotated_keyed, StarPath.annotated_keyFilter,
    StarPath.annotated_reduction D.dependencies r hout, List.nil_append, VarSet.empty_union]
  refine ⟨_, ?_, ?_, rfl⟩
  · refine VarSet.ext fun v => ?_
    simp [Node.needed]
  · refine VarSet.ext fun v => ?_
    simp

/-- The generators of a grouping are the stars of the value, those stars of the key that are not among them, and the key. -/
theorem generators_grouping {shared others : List StarPath} (hstops : key.stops = shared ++ others) (hshared : shared ⊆ value.stops)
    (hothers : ∀ p ∈ others, ¬ p ∈ value.stops) (options : Options) :
    (D.setting options).generators =
      (value.stops ++ others).map (StarPath.generator D.naming) ++ [key.keyGenerator D.naming] := by
  obtain ⟨-, hkey, hvalue⟩ := root_grouping hterm
  obtain ⟨i, -, -, htree⟩ := tree_grouping hterm options.output
  have hfilters : (D.tree options.output).filters =
      value.stops.map (StarPath.starFilter D.naming) ++
        (shared.map (StarPath.starFilter D.naming) ++
          (others.map (StarPath.starFilter D.naming) ++ [key.keyFilter D.naming])) := by
    rw [htree, StarPath.filters_grouping, hstops, List.map_append, List.append_assoc]
  have hnodup : (value.stops.map (StarPath.starFilter D.naming) ++
      (others.map (StarPath.starFilter D.naming) ++ [key.keyFilter D.naming])).Nodup := by
    rw [← List.append_assoc, ← List.map_append]
    refine hkey.nodup_filters hvalue (fun p hp => ?_) ?_ hothers
    · rw [hstops]
      exact List.mem_append_right _ hp
    · have hvars := hkey.path.nodup_vars
      rw [hstops, List.map_append] at hvars
      exact hvars.of_append_right
  rw [setting, Catalogue.generators, Catalogue.ofNode, ← Node.filters, hfilters,
    Node.distinct_append hnodup (List.map_subset _ hshared), ← List.append_assoc, ← List.map_append, List.filterMap_append,
    StarPath.filterMap_starFilters]
  rfl

end Derivation

namespace StarPath

variable {N : Naming}

/-! ## The keys of a grouping -/

/-- The stars of a path and the key of a grouping by the path form a chain. -/
theorem KeyNamed.chain {p : StarPath} (h : KeyNamed N p) : Generator.Chain ∅ (p.generators N ++ [p.keyGenerator N]) := by
  refine h.path.chain.append ⟨?_, ?_, fun g hg => absurd hg List.not_mem_nil, trivial⟩ ?_
  · rw [needs_keyGenerator, bound_place_generators]
    exact fun v hv => hv
  · rw [bound_place_generators]
    exact h.not_mem_stars h.path
  · intro g hg k hk
    rw [List.mem_singleton.1 hk, needs_keyGenerator]
    exact mem_stars_iff.2 ⟨g, hg, rfl⟩

/-- Where the stars of a path and the key are placed, they are bound and no others. -/
theorem bound_place_key (p : StarPath) :
    (Plan.place ∅ (p.generators N ++ [p.keyGenerator N])).2 = .single (p.keyVar N) ∪ p.stars N := by
  refine VarSet.ext fun v => ?_
  rw [Plan.mem_bound_place, VarSet.mem_union, VarSet.mem_single, mem_stars_iff]
  simp [or_comm, eq_comm, keyGenerator, or_and_right, exists_or]

/-- The generators of the stars of a path and of the key bind the variables of the stars and the key. -/
theorem var_mem_of_mem_key {p : StarPath} {g : Generator} (h : g ∈ p.generators N ++ [p.keyGenerator N]) :
    g.var ∈ VarSet.single (p.keyVar N) ∪ p.stars N := by
  rw [← bound_place_key]
  exact Plan.mem_bound_place.2 (.inr ⟨g, h, rfl⟩)

/-- The key needs the stars of its path, if these and the key have all generators of their variables. -/
theorem KeyNamed.closure_key {p : StarPath} (h : KeyNamed N p) {generators : List Generator}
    (hfilter : generators.filter (fun g => decide (g.var ∈ VarSet.single (p.keyVar N) ∪ p.stars N)) =
      p.generators N ++ [p.keyGenerator N]) :
    Generator.closure generators (.single (p.keyVar N)) = .single (p.keyVar N) ∪ p.stars N := by
  have hlast : p.keyGenerator N ∈ p.generators N ++ [p.keyGenerator N] := List.mem_append_right _ List.mem_cons_self
  rw [← hfilter] at hlast
  have hclosed : Generator.Closed generators (.single (p.keyVar N) ∪ p.stars N) := by
    rw [← h.chain.closure_eq (.of_eq hfilter) (bound_place_key p)]
    exact Generator.closed_closure _ _
  exact Generator.closure_single (List.mem_filter.1 hlast).1 hclosed

section
variable {given : Given} (htable : given.table = N.table) {aggregate : Direct.Valuation}

include htable

/-- There is one key to draw from the value of the path, if this is defined. -/
theorem KeyNamed.offers_eq {p : StarPath} (h : KeyNamed N p) (b : Binding) :
    Direct.offers given (Direct.valueWith given aggregate) (p.keyGenerator N) b =
      ((Direct.valueWith given aggregate b (p.node N .taking)).map fun x => Json.str x.keyText).toList := by
  have hdeep : given.table.isDeep (p.keyVar N) = false := htable ▸ h.key.isDeep_eq_false (by decide)
  change Stmt.choices (given.table.isDeep (p.keyVar N)) (Json.singleton (Direct.valueWith given aggregate b (p.node N .taking))) = _
  rw [hdeep]
  cases Direct.valueWith given aggregate b (p.node N .taking) <;> rfl

/-- The bindings of a nest for the key bind it to the key texts of the values of the path. -/
theorem KeyNamed.map_key_draws {p : StarPath} (h : KeyNamed N p) (b : Binding) :
    (Direct.draws given (Direct.valueWith given aggregate) (p.generators N ++ [p.keyGenerator N]) b).map
        (fun c => c (p.keyVar N)) =
      ((p.values given.input).filterMap fun u => u.map Json.keyText).map fun t => some (Json.str t) := by
  have hlast : ∀ c, (Direct.draws given (Direct.valueWith given aggregate) [p.keyGenerator N] c).map (fun c => c (p.keyVar N)) =
      (((Direct.valueWith given aggregate c (p.node N .taking)).map Json.keyText).toList).map fun t => some (Json.str t) := by
    intro c
    rw [Direct.draws, h.offers_eq htable]
    cases Direct.valueWith given aggregate c (p.node N .taking) with
    | none => rfl
    | some x => exact congrArg (fun y => [y]) (Binding.set_self c _ _)
  rw [Direct.draws_append, List.map_flatMap, List.filterMap_eq_flatMap_toList, ← h.path.map_value_draws htable b,
    List.flatMap_map, List.map_flatMap]
  exact List.flatMap_congr fun c _ => hlast c

/-- The nest for the key of a grouping runs over the different key texts of the values of the path. -/
theorem KeyNamed.nestBindings_key {p : StarPath} (h : KeyNamed N p) {generators : List Generator}
    (hfilter : generators.filter (fun g => decide (g.var ∈ VarSet.single (p.keyVar N) ∪ p.stars N)) =
      p.generators N ++ [p.keyGenerator N]) :
    Direct.nestBindings given (Direct.valueWith given aggregate) generators (.single (p.keyVar N)) =
      (keyTexts (p.values given.input)).map fun t => Binding.empty.set (p.keyVar N) (.str t) := by
  have hclosure := h.closure_key hfilter
  have hplan : Direct.planBindings given (Direct.valueWith given aggregate) generators (.single (p.keyVar N)) =
      Direct.draws given (Direct.valueWith given aggregate) (p.generators N ++ [p.keyGenerator N]) Binding.empty := by
    obtain ⟨hnodup, hseen⟩ := h.chain.fresh
    rw [Direct.planBindings, hclosure, Plan.levels_ofGenerators_chain (.of_eq hfilter) h.chain,
      Direct.enumerate_place _ _ hnodup hseen]
  rw [Direct.nestBindings, if_neg (VarSet.single_ne_empty _), hplan]
  split
  · -- a path without stars has one value, so there is one key at most
    rename_i hself
    have hnone : p.generators N = [] := List.eq_nil_iff_forall_not_mem.2 fun g hg => by
      have hin : g.var ∈ VarSet.single (p.keyVar N) := by
        rw [← hself, hclosure]
        exact VarSet.mem_union.2 (.inr (mem_stars_iff.2 ⟨g, hg, rfl⟩))
      exact h.not_mem_stars h.path (VarSet.mem_single.1 hin ▸ mem_stars_iff.2 ⟨g, hg, rfl⟩)
    have hvalues : (Direct.draws given (Direct.valueWith given aggregate) (p.generators N) Binding.empty).map
        (Direct.valueWith given aggregate · (p.node N .taking)) = _ := h.path.map_value_draws htable _
    rw [hnone, Direct.draws, List.map_singleton] at hvalues
    rw [hnone, ← hvalues, List.nil_append, Direct.draws, h.offers_eq htable]
    cases Direct.valueWith given aggregate Binding.empty (p.node N .taking) <;> rfl
  · exact Direct.bindings_tuples (h.map_key_draws htable _) _

end

end StarPath

/-! ## The program of a grouping -/

/-- A grouping of a reduction by a path has a derivation. -/
theorem exists_derivation_grouping (key value : StarPath) (r : Reducer) (keyImplicit valueImplicit : Bool) :
    ∃ D : Derivation (.group (key.query keyImplicit) (.op r.name [value.query valueImplicit])),
      D.term = .group key.term (.reduce r value.term) := by
  refine exists_derivation (Term.ofQuery_group (key.ofQuery_query keyImplicit)
    (Term.ofQuery_reduce (value.ofQuery_query valueImplicit) r)) ?_
  rw [Term.starsKeyed, Term.starsKeyed, key.starsKeyed_term, value.starsKeyed_term]
  rfl

section
variable {q : Query} {D : Derivation q} {r : Reducer} {key value : StarPath}
  (hterm : D.term = .group key.term (.reduce r value.term))

include hterm

/-- A grouping by star paths names no variable. -/
theorem Derivation.names_grouping : D.term.names = [] := by
  rw [hterm, Term.names, Term.names, key.names_term, value.names_term]
  rfl

/-- The sources of the generators of a grouping are paths, or the set of the key, so that it has a program. -/
theorem Derivation.exists_compiles_grouping (options : Options) :
    ∃ c, compile q options = .ok c ∧ Compiles q options c D := by
  refine D.exists_compiles_of_sources fun g hg => ?_
  obtain ⟨i, -, -, htree⟩ := tree_grouping hterm options.output
  obtain ⟨filter, hmem, hfilter⟩ := List.mem_filterMap.1 hg
  rw [Catalogue.ofNode, Node.mem_distinct, ← Node.filters, htree, StarPath.filters_grouping, ← List.append_assoc,
    ← List.map_append, List.mem_append] at hmem
  rcases hmem with hmem | hmem
  · obtain ⟨p, -, rfl⟩ := List.mem_map.1 hmem
    cases hfilter
    exact StarPath.readsOf_node p _
  · rw [List.mem_singleton.1 hmem] at hfilter
    cases hfilter
    exact StarPath.readsOf_node key _

/-- The program of a grouping gives an object with a field for each different key text of the values of the key path, where the
reduction is defined. -/
theorem Compiles.run_grouping {options : Options} {c : Compiled} (hD : Compiles q options c D) {i : VarInfo} (hfree : i.free = ∅)
    (hbound : i.bound = .single (key.keyVar D.naming)) {free : VarSet}
    (htree : D.tree options.output = StarPath.grouping D.naming i r key value free)
    (hfilter : (D.setting options).generators.filter
      (fun g => decide (g.var ∈ VarSet.single (key.keyVar D.naming) ∪ key.stars D.naming)) =
        key.generators D.naming ++ [key.keyGenerator D.naming]) (input : Json) (functions : Functions) :
    ∃ aggregate, c.program.run input functions = some (.obj ((keyTexts (key.values input)).filterMap fun t =>
      (Direct.aggregateWith ⟨input, functions, D.naming.table⟩ (Direct.valueWith ⟨input, functions, D.naming.table⟩ aggregate)
        (D.setting options).generators (Binding.empty.set (key.keyVar D.naming) (.str t))
        (value.reduction D.naming r free)).map fun x => (t, x))) := by
  obtain ⟨-, hkey, -⟩ := Derivation.root_grouping hterm
  have hdeep : D.naming.table.isDeep (key.keyVar D.naming) = false := hkey.key.isDeep_eq_false (by decide)
  refine ⟨Direct.aggregate ⟨input, functions, D.naming.table⟩ (D.setting options).generators c.program.slots, ?_⟩
  rw [hD.run_eq (hD.diagnostics_eq_nil (Derivation.names_grouping hterm)) input functions (Nat.le_add_right _ 2), htree]
  exact @Direct.aggregateWith_keyed ⟨input, functions, D.naming.table⟩ _ _ _ _ hdeep (nodup_eraseDups _)
    (hkey.nestBindings_key rfl hfilter) i hfree hbound _ _ _ _

end

end StarQuery
