import StarQuery.Proofs.Path.Grouping

/-!
# Groupings of what depends on the key

Where the path of a grouped reduction shares a star with the path of the key, the reduction takes the key from around it
(`Derivation.needed_eq_single`). If the path of the value goes on from the last star of the key, every row, that is every value up
to that star, has one key at most, which is drawn aside of what the value goes on to (`StarPath.KeyNamed.nestBindings_aside`). So the
reduction for a key folds what is reached from the rows that have the key.
-/

namespace StarQuery

/-- The key text that names lead to from a row, if they lead to a value. -/
def rowKey (names : List PlainName) (row : Option Json) : Option String := (lookups names row).map Json.keyText

/-- What is not kept contributes nothing. -/
theorem flatMap_filter {α β : Type} (xs : List α) (keep : α → Bool) (f : α → List β) :
    (xs.filter keep).flatMap f = xs.flatMap fun x => if keep x = true then f x else [] := by
  induction xs with
  | nil => rfl
  | cons x xs ih =>
    rw [List.filter_cons, List.flatMap_cons, ← ih]
    split <;> rfl

/-- Bindings agree on one variable if their values have the same key text. -/
theorem Binding.agrees_single {b c : Binding} {v : Var} {x y : Json} (hb : b v = some x) (hc : c v = some y) :
    b.agrees c (.single v) = (x.keyText == y.keyText) := by
  change ([v].all fun v => _) = _
  rw [List.all_cons, List.all_nil, Bool.and_true, hb, hc]

namespace StarPath

variable {N : Naming}

/-! ## Names at the end of a path -/

/-- Names have no stars among them. -/
theorem stopsFrom_names (p : StarPath) (names : List PlainName) : p.stopsFrom (names.map .name) = [] := by
  induction names generalizing p with
  | nil => rfl
  | cons n names ih => exact ih (p.get (.name n))

/-- Names at the end of a path add no stars. -/
theorem stops_append_names (p : StarPath) (names : List PlainName) : (p.append (names.map .name)).stops = p.stops := by
  rw [stops_append, stopsFrom_names, List.append_nil]

/-- Names at the end of a path lead on from its value. -/
theorem value_append_names {given : Given} {aggregate : Direct.Valuation} {sets : VarSet → VarInfo} (p : StarPath)
    (names : List PlainName) (b : Binding) :
    Direct.valueWith given aggregate b ((p.append (names.map .name)).node N sets) =
      lookups names (Direct.valueWith given aggregate b (p.node N sets)) := by
  induction names generalizing p with
  | nil => rfl
  | cons n names ih => exact ih (p.get (.name n))

/-- The key texts of a path that ends in names are the different keys of the rows before the names. -/
theorem keyTexts_values_append_names (p : StarPath) (names : List PlainName) (input : Json) :
    keyTexts ((p.append (names.map .name)).values input) = ((p.values input).filterMap (rowKey names)).eraseDups := by
  have hvalues : (p.append (names.map .name)).values input = (p.values input).map (lookups names) := by
    have hreach : reach (names.map .name) = fun u => [lookups names u] := funext (reach_names names)
    rw [values_append, hreach, List.map_eq_flatMap]
  rw [keyTexts, hvalues, List.filterMap_map]
  rfl

end StarPath

/-! ## What the reduction takes from around it -/

namespace Derivation

variable {q : Query} {D : Derivation q} {r : Reducer} {key value : StarPath}
  (hterm : D.term = .group key.term (.reduce r value.term))

include hterm

/-- The key depends on the stars of its path. -/
theorem starVar_mem_of_keyVar {p : StarPath} (hp : p ∈ key.stops) :
    p.starVar D.naming ∈ D.dependencies.of (key.keyVar D.naming) := by
  obtain ⟨-, hkey, -⟩ := root_grouping hterm
  have hmem := filter_mem_root_grouping hterm
  have hdims : (Node.keySet {} (key.node D.naming .spanning)).settleExtent.info.dims = key.stars D.naming := by
    simp [Node.settleExtent, Node.extent, Node.jointExtent, Node.setInfo, StarPath.info_node, VarInfo.spanning]
  have hstar : p.starVar D.naming ∈ (Node.keySet {} (key.node D.naming .spanning)).settleExtent.info.dims := by
    rw [hdims]
    exact StarPath.mem_stars.2 ⟨p, hp, rfl⟩
  refine Dependencies.mem_of_direct ?_ (Node.dims_subset_directDependences hkey.key.lt_length hmem _ hstar)
  rw [Node.length_directDependences]
  exact (hkey.path p hp).lt_length

/-- A reduction that shares a star with the key takes the key from around it. -/
theorem needed_eq_single {p : StarPath} (hkey : p ∈ key.stops) (hvalue : p ∈ value.stops) :
    Node.needed D.dependencies (value.stars D.naming) (value.stars D.naming) (.single (key.keyVar D.naming))
      [⟨.single (key.keyVar D.naming), D.dependencies.ofSet (.single (key.keyVar D.naming))⟩] = .single (key.keyVar D.naming) := by
  have hoverlaps : (D.dependencies.ofSet (.single (key.keyVar D.naming))).overlaps
      (D.dependencies.ofSet (value.stars D.naming)) = true := by
    refine VarSet.overlaps_iff.2 ⟨p.starVar D.naming, ?_, ?_⟩
    · exact VarSet.mem_unions_map.2 ⟨_, List.mem_singleton_self _, starVar_mem_of_keyVar hterm hkey⟩
    · exact VarSet.mem_unions_map.2
        ⟨_, VarSet.mem_toList.2 (StarPath.mem_stars.2 ⟨p, hvalue, rfl⟩), Dependencies.mem_of_self _⟩
  refine VarSet.ext fun v => ?_
  rw [Node.needed, Node.correlated, List.filter_singleton, hoverlaps, VarSet.mem_inter]
  refine ⟨And.right, fun hv => ⟨?_, hv⟩⟩
  exact VarSet.mem_union.2 (.inr (by simpa using hv))

/-- The generators of a grouping whose value goes on from the last star of the key: the stars of the key, those that the value goes
on to, and the key. -/
theorem generators_correlated {rows : StarPath} {segments : List Segment} (hkey : key.stops = rows.stops)
    (hvalue : value = rows.append segments) (options : Options) :
    (D.setting options).generators =
      rows.generators D.naming ++ (rows.generatorsFrom D.naming segments ++ [key.keyGenerator D.naming]) := by
  have hshared : key.stops ⊆ value.stops := by
    rw [hkey, hvalue, StarPath.stops_append]
    exact List.subset_append_left _ _
  have hothers : ∀ p ∈ ([] : List StarPath), ¬ p ∈ value.stops := fun p hp => absurd hp List.not_mem_nil
  rw [generators_grouping hterm (List.append_nil _).symm hshared hothers, List.append_nil, hvalue, ← StarPath.generators,
    StarPath.generators_append, List.append_assoc]

end Derivation

namespace StarPath

variable {N : Naming} {rows key : StarPath} {segments : List Segment} (hstops : key.stops = rows.stops) (hkey : KeyNamed N key)
  (hvalue : Named N (rows.append segments))

/-- No star of another path has the variable of the key. -/
theorem KeyNamed.var_ne {p : StarPath} (hkey : KeyNamed N key) (hp : Named N p) {g : Generator} (hg : g ∈ p.generators N) :
    g.var ≠ key.keyVar N := fun heq => hkey.not_mem_stars hp (mem_stars_iff.2 ⟨g, hg, heq⟩)

include hstops hkey hvalue

/-- The stars of the key and the key have all generators of their variables. -/
theorem KeyNamed.filter_key :
    (rows.generators N ++ (rows.generatorsFrom N segments ++ [key.keyGenerator N])).filter
        (fun g => decide (g.var ∈ VarSet.single (key.keyVar N) ∪ key.stars N)) =
      key.generators N ++ [key.keyGenerator N] := by
  have hgenerators : key.generators N = rows.generators N := by rw [generators, hstops, generators]
  have hon : ∀ g ∈ rows.generatorsFrom N segments, ¬ g.var ∈ VarSet.single (key.keyVar N) ∪ key.stars N := by
    intro g hg hin
    rcases VarSet.mem_union.1 hin with hin | hin
    · exact hkey.var_ne hvalue (mem_generators_append hg) (VarSet.mem_single.1 hin)
    · exact hvalue.chainFrom.fresh.2 g hg (stars_eq_of_stops hstops ▸ hin)
  have hkeys : ∀ g ∈ key.generators N ++ [key.keyGenerator N],
      decide (g.var ∈ VarSet.single (key.keyVar N) ∪ key.stars N) = true := fun g hg => decide_eq_true (var_mem_of_mem_key hg)
  have hnone : (rows.generatorsFrom N segments).filter
      (fun g => decide (g.var ∈ VarSet.single (key.keyVar N) ∪ key.stars N)) = [] :=
    List.filter_eq_nil_iff.2 fun g hg => by simpa using hon g hg
  rw [← hgenerators, List.filter_append, List.filter_append, hnone, List.nil_append, ← List.filter_append,
    List.filter_eq_self.2 hkeys]

omit hkey in
/-- All generators are of the key and the stars of the value, which need no other variables. -/
theorem KeyNamed.closure_aside :
    (rows.generators N ++ (rows.generatorsFrom N segments ++ [key.keyGenerator N])).filter
        (fun g => decide (g.var ∈ VarSet.single (key.keyVar N) ∪ (rows.append segments).stars N)) =
      rows.generators N ++ (rows.generatorsFrom N segments ++ [key.keyGenerator N]) ∧
    Generator.closure (rows.generators N ++ (rows.generatorsFrom N segments ++ [key.keyGenerator N]))
        (VarSet.single (key.keyVar N) ∪ (rows.append segments).stars N) =
      VarSet.single (key.keyVar N) ∪ (rows.append segments).stars N := by
  have hmem : ∀ g ∈ rows.generators N ++ (rows.generatorsFrom N segments ++ [key.keyGenerator N]),
      g ∈ (rows.append segments).generators N ∨ g = key.keyGenerator N := by
    intro g hg
    rwa [← List.append_assoc, ← generators_append, List.mem_append, List.mem_singleton] at hg
  constructor
  · refine List.filter_eq_self.2 fun g hg => decide_eq_true (VarSet.mem_union.2 ?_)
    rcases hmem g hg with hg | rfl
    · exact .inr (mem_stars_iff.2 ⟨g, hg, rfl⟩)
    · exact .inl (VarSet.mem_single.2 rfl)
  · refine Generator.closure_eq_self fun g hg _ v hv => VarSet.mem_union.2 (.inr ?_)
    rcases hmem g hg with hg | rfl
    · rw [← bound_place_generators]
      exact hvalue.chain.needs_subset hg v hv
    · obtain ⟨p, hp, rfl⟩ := mem_stars.1 (show v ∈ key.stars N from hv)
      rw [hstops] at hp
      refine mem_stars.2 ⟨p, ?_, rfl⟩
      rw [stops_append]
      exact List.mem_append_left _ hp

/-- A plan for the key and the stars of the value takes the key right after the first star that the value goes on to. -/
theorem KeyNamed.levels_aside :
    (Plan.ofGenerators (rows.generators N ++ (rows.generatorsFrom N segments ++ [key.keyGenerator N])) ∅
        (VarSet.single (key.keyVar N) ∪ (rows.append segments).stars N)).levels =
      (Plan.place ∅ (rows.generators N ++ ((rows.generatorsFrom N segments).take 1 ++
        key.keyGenerator N :: (rows.generatorsFrom N segments).drop 1))).1 := by
  have hkeyNeeds : (key.keyGenerator N).needs = rows.stars N := stars_eq_of_stops hstops
  refine Plan.levels_ofGenerators_aside (closure_aside hstops hvalue).1 hvalue.of_append.chain ?_ (fun g hg h hh => ?_) ?_
    fun g hg => ?_
  · rw [bound_place_generators]
    exact hvalue.chainFrom
  · have hg : g.var ∈ rows.stars N := mem_stars_iff.2 ⟨g, hg, rfl⟩
    rcases List.mem_append.1 hh with hh | hh
    · obtain ⟨p, hp, rfl⟩ := List.mem_map.1 hh
      obtain ⟨b, hb, heq⟩ := mem_stars.1 hg
      rw [needs_generator]
      exact mem_stars.2 ⟨b, stops_subset_of_mem_stopsFrom hp hb, heq⟩
    · rwa [List.mem_singleton.1 hh, hkeyNeeds]
  · rw [bound_place_generators, hkeyNeeds]
    exact fun v hv => hv
  · exact hkey.var_ne hvalue (mem_generators_append hg)

section
variable {given : Given} (htable : given.table = N.table) {aggregate : Direct.Valuation}

include htable

/-- The nest for the key and the stars of the value has, for each binding of a row whose key is defined, the bindings that the value
goes on to, with the key. -/
theorem KeyNamed.nestBindings_aside :
    Direct.nestBindings given (Direct.valueWith given aggregate)
        (rows.generators N ++ (rows.generatorsFrom N segments ++ [key.keyGenerator N]))
        (VarSet.single (key.keyVar N) ∪ (rows.append segments).stars N) =
      (Direct.draws given (Direct.valueWith given aggregate) (rows.generators N) Binding.empty).flatMap fun c =>
        (Direct.valueWith given aggregate c (key.node N .taking)).toList.flatMap fun x =>
          (Direct.draws given (Direct.valueWith given aggregate) (rows.generatorsFrom N segments) c).map
            (·.set (key.keyVar N) (.str x.keyText)) := by
  have hnodup := Generator.nodup_vars_aside (k := key.keyGenerator N) (generators_append rows segments ▸ hvalue.chain.fresh.1)
    fun g hg => hkey.var_ne hvalue (generators_append rows segments ▸ hg)
  have hne : VarSet.single (key.keyVar N) ∪ (rows.append segments).stars N ≠ ∅ := fun hempty =>
    VarSet.not_mem_empty _ (hempty ▸ VarSet.mem_union.2 (.inl (VarSet.mem_single.2 rfl)))
  have hstar : ∀ g ∈ rows.generatorsFrom N segments,
      Direct.Ignores (Direct.valueWith given aggregate) (key.keyVar N) g.source := by
    intro g hg
    obtain ⟨p, hp, rfl⟩ := List.mem_map.1 hg
    refine ignores_node fun hin => hkey.not_mem_stars hvalue ?_
    rw [← bound_place_generators]
    refine hvalue.chain.needs_subset (mem_generators_append hg) _ ?_
    rwa [needs_generator]
  have hsource : ∀ g ∈ rows.generatorsFrom N segments,
      Direct.Ignores (Direct.valueWith given aggregate) g.var (key.keySource N) := by
    intro g hg b x
    have hnew : ¬ g.var ∈ key.stars N := stars_eq_of_stops hstops ▸ hvalue.chainFrom.fresh.2 g hg
    exact congrArg (fun u => some (Json.singleton u)) (ignores_node hnew b x)
  have hone : ∀ c, (Direct.offers given (Direct.valueWith given aggregate) (key.keyGenerator N) c).length ≤ 1 := by
    intro c
    rw [hkey.offers_eq htable]
    exact Option.length_toList_le
  -- the plan has the key among the stars that the value goes on to, but these and the key ignore each other
  rw [Direct.nestBindings_closed hne (closure_aside hstops hvalue).2 (levels_aside hstops hkey hvalue) hnodup,
    Direct.draws_append]
  refine List.flatMap_congr fun c _ => ?_
  rw [Direct.draws_aside (fun g hg => hkey.var_ne hvalue (mem_generators_append hg)) hstar hsource (hone c), hkey.offers_eq htable]
  cases Direct.valueWith given aggregate c (key.node N .taking) <;> rfl

/-- The reduction for a key folds what is reached from the rows for whose bindings the key has its text. -/
theorem KeyNamed.aggregateWith_aside {r : Reducer} {t : String} (ht : t ∈ keyTexts (key.values given.input)) :
    Direct.aggregateWith given (Direct.valueWith given aggregate)
        (rows.generators N ++ (rows.generatorsFrom N segments ++ [key.keyGenerator N]))
        (Binding.empty.set (key.keyVar N) (.str t)) ((rows.append segments).reduction N r (.single (key.keyVar N))) =
      r.fold ((Direct.draws given (Direct.valueWith given aggregate) (rows.generators N) Binding.empty).flatMap fun c =>
        if (Direct.valueWith given aggregate c (key.node N .taking)).map Json.keyText = some t then
          reach segments (Direct.valueWith given aggregate c (rows.node N .taking))
        else []) := by
  have hagrees : ∀ (c : Binding) (s : String), (c.set (key.keyVar N) (.str s)).agrees
      (Binding.empty.set (key.keyVar N) (.str t)) (.single (key.keyVar N)) = (s == t) := fun c s =>
    Binding.agrees_single (Binding.set_self _ _ _) (Binding.set_self _ _ _)
  have hstart : ∃ c ∈ Direct.nestBindings given (Direct.valueWith given aggregate)
      (rows.generators N ++ (rows.generatorsFrom N segments ++ [key.keyGenerator N])) (.single (key.keyVar N)),
      c.agrees (Binding.empty.set (key.keyVar N) (.str t)) (.single (key.keyVar N)) = true := by
    rw [hkey.nestBindings_key htable (filter_key hstops hkey hvalue)]
    exact ⟨_, List.mem_map_of_mem ht, (hagrees _ t).trans (beq_self_eq_true t)⟩
  rw [reduction, Direct.aggregateWith_reduce hstart, nestBindings_aside hstops hkey hvalue htable, List.filter_flatMap,
    List.map_flatMap]
  refine congrArg r.fold (List.flatMap_congr fun c _ => ?_)
  cases Direct.valueWith given aggregate c (key.node N .taking) with
  | none => rfl
  | some x =>
    have hvalueOf : ∀ b : Binding, Direct.valueWith given aggregate (b.set (key.keyVar N) (.str x.keyText))
        ((rows.append segments).node N .taking) = Direct.valueWith given aggregate b ((rows.append segments).node N .taking) :=
      fun b => ignores_node (hkey.not_mem_stars hvalue) b _
    have hfilter : (fun b : Binding => b.agrees (Binding.empty.set (key.keyVar N) (.str t)) (.single (key.keyVar N))) ∘
        (fun b : Binding => b.set (key.keyVar N) (.str x.keyText)) = fun _ => x.keyText == t := funext fun b => hagrees b _
    rw [Option.toList_some, List.flatMap_singleton, ← hvalue.map_value_drawsFrom htable c, List.filter_map, hfilter,
      List.map_map, Option.map_some]
    by_cases heq : x.keyText = t
    · rw [if_pos (congrArg some heq), List.filter_eq_self.2 fun _ _ => beq_iff_eq.2 heq]
      exact List.map_congr_left fun b _ => hvalueOf b
    · rw [if_neg fun h => heq (Option.some.inj h), List.filter_eq_nil_iff.2 fun _ _ => by simpa using heq, List.map_nil]

omit hstops hkey in
/-- The reduction for a key folds what is reached from the rows that have the key, where the key goes on from a row by names. -/
theorem KeyNamed.aggregateWith_rows {names : List PlainName} (hkey : KeyNamed N (rows.append (names.map .name))) {r : Reducer}
    {t : String} (ht : t ∈ keyTexts ((rows.append (names.map .name)).values given.input)) :
    Direct.aggregateWith given (Direct.valueWith given aggregate)
        (rows.generators N ++ (rows.generatorsFrom N segments ++ [(rows.append (names.map .name)).keyGenerator N]))
        (Binding.empty.set ((rows.append (names.map .name)).keyVar N) (.str t))
        ((rows.append segments).reduction N r (.single ((rows.append (names.map .name)).keyVar N))) =
      r.fold (((rows.values given.input).filter (rowKey names · = some t)).flatMap (reach segments)) := by
  have hrows : (Direct.draws given (Direct.valueWith given aggregate) (rows.generators N) Binding.empty).map
      (Direct.valueWith given aggregate · (rows.node N .taking)) = rows.values given.input :=
    hvalue.of_append.map_value_draws htable _
  rw [hkey.aggregateWith_aside (rows.stops_append_names names) hvalue htable ht, ← hrows, flatMap_filter, List.flatMap_map]
  simp only [value_append_names, decide_eq_true_eq]
  rfl

end

end StarPath

/-- The group-by law. If the path of a key and that of a reduction go on from the same rows, the values of a path that ends in a star,
and the key goes on by names only, the grouping compiles, and on every input it gives an object. Its keys are the different key
texts that the rows have, in the order in which they are first seen, for which the reduction is defined; the value of a key is the
fold of the reducer over what is reached from the rows that have the key, in the order of nested iteration. -/
theorem groups_fold_their_rows {rows : StarPath} (h : rows.endsInStar = true) (names : List PlainName) (segments : List Segment)
    (r : Reducer) (keyImplicit valueImplicit : Bool) (options : Options) :
    ∃ c, compile (.group ((rows.append (names.map .name)).query keyImplicit)
        (.op r.name [(rows.append segments).query valueImplicit])) options = .ok c ∧
      ∀ input functions, c.program.run input functions =
        some (.obj (((rows.values input).filterMap (rowKey names)).eraseDups.filterMap fun k =>
          (r.fold (((rows.values input).filter (rowKey names · = some k)).flatMap (reach segments))).map fun x => (k, x))) := by
  obtain ⟨base, rfl⟩ := StarPath.exists_base_of_endsInStar h
  obtain ⟨D, hterm⟩ := exists_derivation_grouping ((base.get .star).append (names.map .name)) ((base.get .star).append segments) r
    keyImplicit valueImplicit
  obtain ⟨c, hc, hD⟩ := Derivation.exists_compiles_grouping hterm options
  obtain ⟨-, hkey, hvalue⟩ := Derivation.root_grouping hterm
  have hstops := (base.get .star).stops_append_names names
  have hgenerators := Derivation.generators_correlated hterm hstops rfl options
  have hlast : base ∈ (base.get .star).stops := List.mem_append_right _ List.mem_cons_self
  have hshared : base ∈ ((base.get .star).append segments).stops := by
    rw [StarPath.stops_append]
    exact List.mem_append_left _ hlast
  obtain ⟨i, hfree, hbound, htree⟩ := Derivation.tree_grouping hterm options.output
  rw [Derivation.needed_eq_single hterm (hstops ▸ hlast) hshared] at htree
  refine ⟨c, hc, fun input functions => ?_⟩
  obtain ⟨aggregate, hrun⟩ := hD.run_grouping hterm hfree hbound htree
    (hgenerators ▸ StarPath.KeyNamed.filter_key hstops hkey hvalue) input functions
  rw [hrun, hgenerators, ← StarPath.keyTexts_values_append_names]
  refine congrArg (fun fields => some (Json.obj fields)) (List.filterMap_congr fun t ht => ?_)
  rw [hkey.aggregateWith_rows hvalue rfl ht]

/-- The sales of an input. -/
def saleRows : StarPath := .append .input [.name ⟨"sales", by decide⟩, .star]

/-- The totals of the prices of all items that are sold, by region. -/
theorem groups_fold_their_rows_sales :
    saleRows.endsInStar = true ∧
      ∃ c, compile (.group ((saleRows.append [.name ⟨"region", by decide⟩]).query true)
          (.op "sum" [(saleRows.append [.name ⟨"items", by decide⟩, .star, .name ⟨"price", by decide⟩]).query true])) {} = .ok c ∧
        ∀ functions, c.program.run
          (.obj [("sales", .arr
            [.obj [("region", .str "north"), ("items", .arr [.obj [("price", .ofInt 3)], .obj [("price", .ofInt 4)]])],
              .obj [("items", .arr [.obj [("price", .ofInt 9)]])],
              .obj [("region", .str "south"), ("items", .arr [.obj [("price", .ofInt 5)]])],
              .obj [("region", .str "north"), ("items", .arr [.obj [("price", .ofInt 1)]])]])]) functions =
          some (.obj [("north", .ofInt 8), ("south", .ofInt 5)]) := by
  obtain ⟨c, hc, hrun⟩ := @groups_fold_their_rows saleRows rfl [⟨"region", by decide⟩]
    [.name ⟨"items", by decide⟩, .star, .name ⟨"price", by decide⟩] ⟨.sum, false⟩ true true {}
  exact ⟨rfl, c, hc, fun functions => (hrun _ functions).trans rfl⟩

end StarQuery
