import StarQuery.Proofs.Path.Literal
import StarQuery.Proofs.Path.Variable

/-!
# Arrays of records

An array of one object literal whose entries follow different named variables has a record for each choice of a key for every
variable. The array loops over all variables; each entry takes from around it its own variable, and the entries before it what
they take (`Derivation.literal_product`). As no variable depends on another, the bindings are drawn from the generators in the
order of the entries, and make up the product of the keys (`Direct.map_draws_product`).
-/

namespace StarQuery

/-- All ways to take one of each of some lists. What is taken of the first list changes last. -/
def product : List (List Json) → List (List Json)
  | [] => [[]]
  | xs :: rest => xs.flatMap fun x => (product rest).map (x :: ·)

/-- The bindings that are drawn from steady generators give their variables all choices of keys. -/
theorem Direct.map_draws_product {given : Given} {aggregate : Valuation} {gs : List Generator}
    (hsteady : ∀ g ∈ gs, Steady given g) (hnodup : (gs.map Generator.var).Nodup) (b : Binding) :
    (draws given (valueWith given aggregate) gs b).map (fun c => gs.map fun g => c g.var) =
      (product (gs.map (keysOf given))).map (List.map some) := by
  induction gs generalizing b with
  | nil => rfl
  | cons g gs ih =>
    rw [List.forall_mem_cons] at hsteady
    rw [List.map_cons, List.nodup_cons] at hnodup
    have hother : ∀ h ∈ gs, h.var ≠ g.var := fun h hh heq => hnodup.1 (heq ▸ List.mem_map_of_mem hh)
    rw [draws, hsteady.1.offers_eq, List.map_cons, product, List.map_flatMap, List.map_flatMap]
    refine List.flatMap_congr fun x _ => ?_
    have hfirst : ∀ c ∈ draws given (valueWith given aggregate) gs (b.set g.var x),
        (g :: gs).map (fun h => c h.var) = some x :: gs.map fun h => c h.var := by
      intro c hc
      rw [List.map_cons, eq_of_mem_draws hc hother, Binding.set_self]
    have hrest := congrArg (List.map (some x :: ·)) (ih hsteady.2 hnodup.2 (b.set g.var x))
    rw [List.map_map, List.map_map] at hrest
    rw [List.map_congr_left hfirst, List.map_map]
    exact hrest

/-- An entry of a record: a constant key, and a path that follows a named variable. -/
structure RecordEntry where
  key : Json
  path : VarPath
  implicit : Bool

namespace RecordEntry

/-- The value of an entry as a query. -/
def query (e : RecordEntry) : Query := e.path.query e.implicit

/-- The keys that the variable of an entry ranges over. -/
def keys (input : Json) (e : RecordEntry) : List Json := ((lookups e.path.before (some input)).map Json.keys).getD []

/-- What the path of an entry leads to if its variable stands for a key. -/
def valueAt (input : Json) (e : RecordEntry) (k : Json) : Option Json :=
  lookups e.path.after ((lookups e.path.before (some input)).bind fun c => c.get? k)

section
variable (N : Naming)

/-- The variable of an entry. -/
def var (e : RecordEntry) : Var := e.path.name.var N

/-- The value of an entry as the bottom-up pass leaves it. -/
def measured (e : RecordEntry) : Node := (Node.reduce {} ⟨.single, false⟩ .reluctant (e.path.node N .spanning)).settleExtent

/-- The sets of the value of an entry in a finished tree. -/
def sets (e : RecordEntry) : VarInfo := { vars := .single (e.var N), dims := .single (e.var N), free := .single (e.var N) }

/-- The value of an entry in a finished tree. -/
def node (e : RecordEntry) : Node := .reduce (e.sets N) ⟨.single, false⟩ .reluctant (e.path.node N .taking)

end

variable {N : Naming}

/-- What the value of an entry reads as. -/
theorem of_reads {e : RecordEntry} {n : Node} (h : Node.Reads N e.path.term n) :
    (Node.gathered e.path.term n).withExtents = e.measured N ∧ e.path.name.Known N := by
  obtain ⟨rfl, hknown⟩ := VarPath.of_reads h
  have hgathers : e.path.term.gathers = false := Term.gathers_lookups rfl e.path.after
  refine ⟨?_, hknown⟩
  rw [Node.gathered, hgathers, if_neg Bool.false_ne_true, Node.withExtents, VarPath.withExtents_node]
  rfl

/-- The value of an entry ranges over its variable, if it can. -/
theorem dims_measured (e : RecordEntry) : (e.measured N).info.dims = .single (e.var N) := by
  have hdims : (e.measured N).info.dims = (e.path.node N .spanning).info.dims := rfl
  rw [hdims, VarPath.info_node]
  rfl

/-- The variable of an entry is looked up once. -/
theorem filters_node (e : RecordEntry) : (e.node N).filters = [e.path.filter N .taking] := by
  rw [Node.filters_eq]
  simp [node, Node.children, Node.filterVar?, VarPath.filters_node]

/-- The passes from the root down let the value of an entry take its variable from around it, where this is provided. -/
theorem annotated_measured (d : Dependencies) (e : RecordEntry) {out : VarSet} (hout : e.var N ∈ out) (path : List Grouping) :
    Node.annotated d (e.measured N) out out path = e.node N := by
  have hbound : VarSet.single (e.var N) \ out = ∅ := by
    refine VarSet.ext fun v => ⟨fun hv => ?_, fun hv => absurd hv (VarSet.not_mem_empty v)⟩
    rw [VarSet.mem_sdiff, VarSet.mem_single] at hv
    exact absurd (hv.1 ▸ hout) hv.2
  have hnone : d.ofSet ∅ = ∅ := rfl
  have hcorrelated : Node.correlated d ∅ path = ∅ := by
    have hoverlaps : ∀ g ∈ path, ¬ g.reach.overlaps ∅ = true := by
      intro g _ hg
      obtain ⟨v, -, hv⟩ := VarSet.overlaps_iff.1 hg
      exact VarSet.not_mem_empty v hv
    rw [Node.correlated, hnone, List.filter_eq_nil_iff.2 hoverlaps]
    rfl
  have hneeded : Node.needed d ∅ (.single (e.var N)) out path = .single (e.var N) := by
    refine VarSet.ext fun v => ?_
    rw [Node.needed, hnone, hcorrelated, VarSet.empty_union, VarSet.union_empty, VarSet.mem_inter, and_iff_left_iff_imp,
      VarSet.mem_single]
    rintro rfl
    exact hout
  have hdims : (e.path.node N .spanning).info.dims = .single (e.var N) := by
    rw [VarPath.info_node]
    rfl
  have hfree : (VarInfo.taking (.single (e.path.name.var N))).free = .single (e.var N) := rfl
  rw [measured, Node.annotated_reduce, VarPath.annotated_node, hdims, hbound, VarPath.info_node, hfree, hneeded,
    Node.reducedExtent, VarPath.info_node]
  rfl

/-- The generator of an entry is steady, as names alone lead to what it draws from. -/
theorem steady_generator {given : Given} (htable : given.table = N.table) {e : RecordEntry} (hknown : e.path.name.Known N)
    (hshallow : NameTable.isDeepName e.path.name.text = false) : Direct.Steady given (e.path.generator N) where
  needs := e.path.needs_generator
  shallow := by
    rw [htable]
    exact hknown.isDeep.trans hshallow
  source aggregate aggregate' b c := (e.path.value_source b).trans (e.path.value_source c).symm

/-- The generator of an entry offers the keys of the entry. -/
theorem keysOf_generator (given : Given) (e : RecordEntry) :
    Direct.keysOf given (e.path.generator N) = e.keys given.input := by
  have hsource : (e.path.generator N).source = e.path.source .taking := rfl
  rw [Direct.keysOf, hsource, VarPath.value_source, keys]

end RecordEntry

/-! ## The tree of an array of records -/

/-- The variables of some entries. -/
def RecordEntry.vars (N : Naming) (entries : List RecordEntry) : VarSet := .ofList (entries.map (var N))

/-- The variables of entries, one for each. -/
theorem RecordEntry.mem_vars {N : Naming} {entries : List RecordEntry} {v : Var} :
    v ∈ vars N entries ↔ ∃ e ∈ entries, e.var N = v := by
  rw [vars, VarSet.mem_ofList, List.mem_map]

namespace Derivation

variable {q : Query} {D : Derivation q} {entries : List RecordEntry}
  (hterm : D.term = .reduce ⟨.array, false⟩ (Term.literal RecordEntry.key (fun e => e.path.term) entries))

include hterm

/-- The root of an array of records collects the literal of what the entries are after the bottom-up pass. -/
theorem root_product :
    D.root = (Node.reduce {} ⟨.array, false⟩ .eager
        (Node.measuredLiteral D.naming RecordEntry.key (RecordEntry.measured D.naming) entries)).settleExtent ∧
      ∀ e ∈ entries, D.naming.LiteralNamed e.key ∧ e.path.name.Known D.naming := by
  have hreads := D.reads
  rw [hterm] at hreads
  generalize hnode : D.node = n at hreads
  cases hreads with
  | reduce harg =>
    obtain ⟨hroot, hentries⟩ := Node.of_reads_literal harg fun e _ x hx => (RecordEntry.of_reads hx).1
    refine ⟨?_, fun e he => ?_⟩
    · rw [root, hnode, Node.withExtents, hroot]
    · obtain ⟨hkey, x, hx⟩ := hentries e he
      exact ⟨hkey, (RecordEntry.of_reads hx).2⟩

/-- The key of an entry is not the variable of an entry. -/
theorem literalVar_not_mem_vars {e : RecordEntry} (he : e ∈ entries) :
    ¬ D.naming.literalVar e.key ∈ RecordEntry.vars D.naming entries := by
  obtain ⟨-, hnamed⟩ := root_product hterm
  intro hmem
  obtain ⟨e', he', heq⟩ := RecordEntry.mem_vars.1 hmem
  have hknown : D.naming.table.lookup? e'.path.name.text = some (e'.var D.naming) := (hnamed e' he').2
  rw [heq] at hknown
  exact (hnamed e he).1.not_isVariable (by decide) hknown (Term.isVariable_of_isNamed e'.path.name.named)

/-- The literal ranges over the variables of its entries. -/
theorem dims_product :
    (Node.measuredLiteral D.naming RecordEntry.key (RecordEntry.measured D.naming) entries).info.dims =
      RecordEntry.vars D.naming entries := by
  refine VarSet.ext fun v => ?_
  rw [Node.mem_dims_measuredLiteral, RecordEntry.mem_vars]
  refine exists_congr fun e => and_congr_right fun he => ?_
  rw [RecordEntry.dims_measured, VarSet.mem_single, eq_comm, and_iff_left_iff_imp]
  -- an entry ranges over its variable only, which its key does not take away
  rintro rfl heq
  exact literalVar_not_mem_vars hterm he (RecordEntry.mem_vars.2 ⟨e, he, heq⟩)

/-- No variable of an array of records depends on another. -/
theorem independent_product : D.root.Independent := by
  obtain ⟨hroot, -⟩ := root_product hterm
  have hfilters : D.root.filters =
      (Node.measuredLiteral D.naming RecordEntry.key (RecordEntry.measured D.naming) entries).filters := by
    rw [hroot, Node.filters_eq]
    simp [Node.settleExtent, Node.setInfo, Node.children, Node.filterVar?]
  intro n hn base hbase
  rw [hfilters, Node.filters_measuredLiteral] at hn
  obtain ⟨e, -, hn⟩ := List.mem_flatMap.1 hn
  rcases List.mem_append.1 hn with hn | hn
  · have hentry : (e.measured D.naming).filters = (e.path.node D.naming .spanning).filters := by
      rw [Node.filters_eq]
      simp [RecordEntry.measured, Node.settleExtent, Node.setInfo, Node.children, Node.filterVar?]
    rw [hentry] at hn
    exact e.path.independent_node n hn base hbase
  · rw [List.mem_singleton.1 hn] at hbase
    cases hbase
    rfl

/-- As no generator needs another, every nest can be ordered. -/
theorem solvable_product (options : Options) : D.Solvable options := by
  obtain ⟨hroot, -⟩ := root_product hterm
  refine D.solvable_of_drawn options ?_ ((independent_product hterm).dependent D.naming.table)
  rw [hroot]
  exact .reduce (.literal fun e _ => .reduce e.path.drawn_node)

/-- The tree of an array of records loops over all variables, for a literal of which the entries take each its own. -/
theorem literal_product (output : Output) :
    ∃ i arg, i.free = ∅ ∧ i.bound = RecordEntry.vars D.naming entries ∧ D.tree output = .reduce i ⟨.array, false⟩ .eager arg ∧
      Node.Literal D.naming RecordEntry.key (RecordEntry.node D.naming) entries arg := by
  obtain ⟨hroot, -⟩ := root_product hterm
  have hindex : output.indexOf D.root = ∅ := by
    rw [hroot]
    cases output <;> rfl
  have hbound : RecordEntry.vars D.naming entries \ ∅ = RecordEntry.vars D.naming entries := by
    refine VarSet.ext fun v => ?_
    simp
  rw [D.tree_of_indexOf hindex, hroot, Node.annotated_reduce, dims_product hterm, VarSet.empty_union, hbound]
  refine ⟨_, _, ?_, rfl, rfl, ?_⟩
  · refine VarSet.ext fun v => ?_
    simp [Node.needed]
  · refine Node.annotated_literal (fun e he => literalVar_not_mem_vars hterm he)
      (fun e _ => (independent_product hterm).of_subset D.naming.table _) (fun e he => ?_) fun e he v hv => ?_
    · exact e.annotated_measured _ (VarSet.mem_union.2 (.inl (RecordEntry.mem_vars.2 ⟨e, he, rfl⟩))) _
    · rw [VarSet.mem_single.1 hv]
      exact RecordEntry.mem_vars.2 ⟨e, he, rfl⟩

/-! ## Its generators -/

/-- The lookups of variables, entry by entry: that of its variable, and that of its key. -/
theorem filters_product (output : Output) : (D.tree output).filters =
    entries.flatMap fun e => [e.path.filter D.naming .taking, Node.literalFilter D.naming e.key] := by
  obtain ⟨i, arg, -, -, htree, hliteral⟩ := literal_product hterm output
  have harg : (D.tree output).filters = arg.filters := by
    rw [htree, Node.filters_eq]
    simp [Node.children, Node.filterVar?]
  rw [harg, hliteral.filters_eq]
  simp [RecordEntry.filters_node]

/-- Each lookup of a variable is that of an entry, or that of its key. -/
theorem mem_filters_product {output : Output} {n : Node} : n ∈ (D.tree output).filters ↔
    ∃ e ∈ entries, e.path.filter D.naming .taking = n ∨ Node.literalFilter D.naming e.key = n := by
  rw [filters_product hterm]
  simp [eq_comm]

/-- The key of every entry has its generator. -/
theorem literalGenerator_mem_product (options : Options) {e : RecordEntry} (he : e ∈ entries) :
    Node.literalGenerator D.naming e.key ∈ (D.setting options).generators := by
  rw [setting, Catalogue.generators, Catalogue.ofNode, ← Node.filters, List.mem_filterMap]
  exact ⟨_, Node.mem_distinct.2 ((mem_filters_product hterm).2 ⟨e, he, .inr rfl⟩), rfl⟩

/-- The sources of the generators are lookups of names or sets of constants, so that an array of records has a program. -/
theorem exists_compiles_product (options : Options) : ∃ c, compile q options = .ok c ∧ Compiles q options c D := by
  have hsources : ∀ g ∈ (D.setting options).generators, Program.readsOf g.source = [] := by
    intro g hg
    obtain ⟨i, base, j, v, hmem, rfl⟩ := Catalogue.mem_generators.1 hg
    obtain ⟨e, -, hn | hn⟩ := (mem_filters_product hterm).1 (List.mem_filter.2 ⟨hmem, rfl⟩)
    · cases hn
      exact e.path.readsOf_source
    · cases hn
      rfl
  exact D.exists_compiles_of_sources hsources

variable (hnodup : (entries.map fun e => e.path.name).Nodup)

include hnodup

/-- Different entries have different variables. -/
theorem nodup_var_product : (entries.map (RecordEntry.var D.naming)).Nodup := by
  obtain ⟨-, hnamed⟩ := root_product hterm
  refine (hnodup.of_map).map_on fun e he e' he' heq => ?_
  exact List.inj_on_of_nodup_map hnodup he he' ((hnamed e he).2.inj (hnamed e' he').2 heq)

/-- No variable of an array of records is looked up in two ways. -/
theorem filters_product_unique (output : Output) : ∀ m ∈ (D.tree output).filters, ∀ n ∈ (D.tree output).filters,
    m.filterVar? = n.filterVar? → m = n := by
  obtain ⟨-, hnamed⟩ := root_product hterm
  intro m hm n hn hvar
  obtain ⟨e, he, rfl | rfl⟩ := (mem_filters_product hterm).1 hm <;>
    obtain ⟨e', he', rfl | rfl⟩ := (mem_filters_product hterm).1 hn
  · rw [List.inj_on_of_nodup_map (nodup_var_product hterm hnodup) he he' (Option.some.inj hvar)]
  · exact absurd (RecordEntry.mem_vars.2 ⟨e, he, Option.some.inj hvar⟩) (literalVar_not_mem_vars hterm he')
  · exact absurd (RecordEntry.mem_vars.2 ⟨e', he', (Option.some.inj hvar).symm⟩) (literalVar_not_mem_vars hterm he)
  · rw [(hnamed e he).1.inj (hnamed e' he').1 (Option.some.inj hvar)]

/-- The variables are generated in the order of the entries. -/
theorem filter_generators_product (options : Options) :
    (D.setting options).generators.filter (fun g => decide (g.var ∈ RecordEntry.vars D.naming entries)) =
      entries.map fun e => e.path.generator D.naming := by
  have hkeep : (D.tree options.output).filters.filter
      (fun n => n.filterVar?.any fun v => decide (v ∈ RecordEntry.vars D.naming entries)) =
        entries.map fun e => e.path.filter D.naming .taking := by
    rw [filters_product hterm, List.filter_flatMap, List.map_eq_flatMap]
    refine List.flatMap_congr fun e he => ?_
    have hvar : (e.path.filter D.naming .taking).filterVar?.any
        (fun v => decide (v ∈ RecordEntry.vars D.naming entries)) = true :=
      decide_eq_true (RecordEntry.mem_vars.2 ⟨e, he, rfl⟩)
    have hkey : ¬ (Node.literalFilter D.naming e.key).filterVar?.any
        (fun v => decide (v ∈ RecordEntry.vars D.naming entries)) = true :=
      fun h => literalVar_not_mem_vars hterm he (of_decide_eq_true h)
    rw [List.filter_cons, if_pos hvar, List.filter_cons, if_neg hkey, List.filter_nil]
  have hdistinct : (entries.map fun e => e.path.filter D.naming .taking).Nodup := by
    refine List.Nodup.of_map Node.filterVar? ?_
    rw [List.map_map]
    have hvars := (nodup_var_product hterm hnodup).map (Option.some_injective Var)
    rw [List.map_map] at hvars
    exact hvars
  rw [setting, Catalogue.filter_generators, hkeep, Node.distinct_of_nodup hdistinct, List.filterMap_map]
  exact List.filterMap_eq_map_iff_forall_eq_some.2 fun e _ => rfl

/-- The variables of the entries have steady generators, if none of them is deep. -/
theorem steadyIn_product (options : Options) (hshallow : ∀ e ∈ entries, NameTable.isDeepName e.path.name.text = false)
    (input : Json) (functions : Functions) :
    Direct.SteadyIn ⟨input, functions, D.naming.table⟩ (D.setting options).generators (RecordEntry.vars D.naming entries) := by
  obtain ⟨-, hnamed⟩ := root_product hterm
  have hmem : ∀ {g : Generator}, g ∈ (D.setting options).generators ∧ g.var ∈ RecordEntry.vars D.naming entries ↔
      ∃ e ∈ entries, e.path.generator D.naming = g := by
    intro g
    rw [← List.mem_map, ← filter_generators_product hterm hnodup options, List.mem_filter, decide_eq_true_eq]
  refine ⟨fun g hg hvar => ?_, fun v hv => ?_, Catalogue.nodup_vars _ (filters_product_unique hterm hnodup options.output)⟩
  · obtain ⟨e, he, rfl⟩ := hmem.1 ⟨hg, hvar⟩
    exact RecordEntry.steady_generator rfl (hnamed e he).2 (hshallow e he)
  · obtain ⟨e, he, rfl⟩ := RecordEntry.mem_vars.1 hv
    exact ⟨_, (hmem.2 ⟨e, he, rfl⟩).1, rfl⟩

end Derivation

/-! ## Its value -/

namespace RecordEntry

variable {N : Naming} {given : Given} {generators : List Generator} {vars : VarSet} {b : Binding}

/-- The value of an entry under a binding that fits. -/
theorem value_node (hsteady : Direct.SteadyIn given generators vars) (hb : Direct.Fits given generators vars b) {e : RecordEntry}
    (hvar : e.var N ∈ vars) (hdeep : given.table.isDeep (e.var N) = false) (depth : Nat) :
    Direct.value given generators (depth + 1) b (e.node N) = (b (e.var N)).bind (e.valueAt given.input) := by
  have hsubset : VarSet.single (e.var N) ⊆ vars := by
    intro v hv
    rwa [VarSet.mem_single.1 hv]
  have hdepends : Direct.DependsOn (Direct.valueWith given (Direct.aggregate given generators depth)) (e.sets N).free
      (e.path.node N .taking) := by
    intro b c hc
    rw [VarPath.value_node, VarPath.value_node]
    exact hc _ (VarSet.mem_single.2 rfl) ▸ rfl
  have hheld : Direct.value given generators (depth + 1) b (e.node N) =
      Direct.value given generators depth b (e.path.node N .taking) :=
    Direct.aggregateWith_held (hsteady.mono hsubset) (hb.mono hsubset) rfl hdepends .reluctant
  obtain ⟨g, hg, hgvar⟩ := hsteady.generated _ hvar
  obtain ⟨k, -, hk⟩ := hb g hg (hgvar.symm ▸ hvar)
  rw [hgvar] at hk
  have hk' : b (e.path.name.var N) = some k := hk
  have hdeep' : given.table.isDeep (e.path.name.var N) = false := hdeep
  rw [hheld, Direct.value, VarPath.value_node, hk', hdeep', hk]
  rfl

end RecordEntry

/-- The record of changed entries is the record of the entries with the change in their keys and values. -/
theorem Json.record_map {α β : Type} (key : β → Json) (value : β → Option Json) (f : α → β) (entries : List α) :
    record key value (entries.map f) = record (fun e => key (f e)) (fun e => value (f e)) entries := by
  rw [record, List.foldl_map, record]

namespace RecordEntry

/-- The record of some entries, if their variables have some values. -/
def recordOf (input : Json) (entries : List RecordEntry) (values : List (Option Json)) : Json :=
  Json.record (fun x => x.1.key) (fun x => x.2.bind (x.1.valueAt input)) (entries.zip values)

/-- The record of some entries, if their variables stand for some keys. -/
def recordAt (input : Json) (entries : List RecordEntry) (keys : List Json) : Json :=
  Json.record (fun x => x.1.key) (fun x => x.1.valueAt input x.2) (entries.zip keys)

/-- The record of entries with a value for the variable of each. -/
theorem recordOf_map (input : Json) (entries : List RecordEntry) (f : RecordEntry → Option Json) :
    recordOf input entries (entries.map f) = Json.record key (fun e => (f e).bind (e.valueAt input)) entries := by
  rw [recordOf, ← List.map_prod_left_eq_zip, Json.record_map]

/-- The record of values that are all there is the record at these keys. -/
theorem recordOf_some (input : Json) (entries : List RecordEntry) (keys : List Json) :
    recordOf input entries (keys.map some) = recordAt input entries keys := by
  rw [recordOf, List.zip_map_right, Json.record_map]
  rfl

/-- The records under the bindings that are drawn are those at the elements of the product of the keys. -/
theorem map_record_draws {N : Naming} {given : Given} {aggregate : Direct.Valuation} {entries : List RecordEntry}
    (hsteady : ∀ e ∈ entries, Direct.Steady given (e.path.generator N)) (hnodup : (entries.map (var N)).Nodup) :
    (Direct.draws given (Direct.valueWith given aggregate) (entries.map fun e => e.path.generator N) Binding.empty).map
        (fun c => Json.record key (fun e => (c (e.var N)).bind (e.valueAt given.input)) entries) =
      (product (entries.map (keys given.input))).map (recordAt given.input entries) := by
  have hvars : ((entries.map fun e => e.path.generator N).map Generator.var).Nodup := by
    rw [List.map_map]
    exact hnodup
  have hrecord : ∀ c : Binding, Json.record key (fun e => (c (e.var N)).bind (e.valueAt given.input)) entries =
      recordOf given.input entries ((entries.map fun e => e.path.generator N).map fun g => c g.var) := by
    intro c
    rw [List.map_map, recordOf_map]
    rfl
  have hkeys : (entries.map fun e => e.path.generator N).map (Direct.keysOf given) = entries.map (keys given.input) := by
    rw [List.map_map]
    exact List.map_congr_left fun e _ => keysOf_generator given e
  calc (Direct.draws given (Direct.valueWith given aggregate) (entries.map fun e => e.path.generator N) Binding.empty).map
          (fun c => Json.record key (fun e => (c (e.var N)).bind (e.valueAt given.input)) entries)
      = ((Direct.draws given (Direct.valueWith given aggregate) (entries.map fun e => e.path.generator N) Binding.empty).map
          fun c => (entries.map fun e => e.path.generator N).map fun g => c g.var).map (recordOf given.input entries) := by
        rw [List.map_map]
        exact List.map_congr_left fun c _ => hrecord c
    _ = ((product (entries.map (keys given.input))).map (List.map some)).map (recordOf given.input entries) := by
        rw [Direct.map_draws_product (List.forall_mem_map.2 hsteady) hvars, hkeys]
    _ = (product (entries.map (keys given.input))).map (recordAt given.input entries) := by
        rw [List.map_map]
        exact List.map_congr_left fun ks _ => recordOf_some given.input entries ks

section
variable {N : Naming} {given : Given} (htable : given.table = N.table) {generators : List Generator} {entries : List RecordEntry}
  (hsteady : Direct.SteadyIn given generators (vars N entries))
  (hfilter : generators.filter (fun g => decide (g.var ∈ vars N entries)) = entries.map fun e => e.path.generator N)
  (hkeys : ∀ e ∈ entries, N.LiteralNamed e.key ∧ Node.literalGenerator N e.key ∈ generators ∧
    ¬ N.literalVar e.key ∈ vars N entries) {arg : Node} (hliteral : Node.Literal N key (node N) entries arg) {depth : Nat}
  (hdepth : entries.length < depth)

include hsteady hfilter

/-- The generators of the entries are steady. -/
theorem steady_of_filter : ∀ e ∈ entries, Direct.Steady given (e.path.generator N) := by
  intro e he
  refine hsteady.steady_of_mem_filter _ ?_
  rw [hfilter]
  exact List.mem_map_of_mem he

include htable hkeys hliteral hdepth

/-- The value of a literal of entries under a binding that fits. -/
theorem value_literal {b : Binding} (hb : Direct.Fits given generators (vars N entries) b) :
    Direct.value given generators depth b arg =
      some (Json.record key (fun e => (b (e.var N)).bind (e.valueAt given.input)) entries) := by
  refine hliteral.value_eq hsteady hb htable (fun e he => ?_) hdepth
  obtain ⟨hnamed, hgenerator, hfresh⟩ := hkeys e he
  have hvar : e.var N ∈ vars N entries := mem_vars.2 ⟨e, he, rfl⟩
  exact {
    named := hnamed
    generator := hgenerator
    fresh := hfresh
    gathers := rfl
    free := fun v hv => VarSet.mem_single.1 hv ▸ hvar
    value := value_node hsteady hb hvar (steady_of_filter hsteady hfilter e he).shallow }

/-- The value of an array of records, if the variables of the entries are drawn from steady generators in the order of the
entries. -/
theorem value_array {i : VarInfo} (hfree : i.free = ∅) (hbound : i.bound = vars N entries) (b : Binding) :
    Direct.value given generators (depth + 1) b (.reduce i ⟨.array, false⟩ .eager arg) =
      some (.arr ((product (entries.map (keys given.input))).map (recordAt given.input entries))) := by
  have hnest : Direct.nestBindings given (Direct.value given generators depth) generators (vars N entries) =
      Direct.draws given (Direct.value given generators depth) (entries.map fun e => e.path.generator N) Binding.empty := by
    rw [← hfilter]
    exact hsteady.nestBindings_eq
  have hnodup : (entries.map (var N)).Nodup := by
    have hvars := hsteady.nodup_filter
    rw [hfilter, List.map_map] at hvars
    exact hvars
  have hrecord : ∀ c ∈ Direct.nestBindings given (Direct.value given generators depth) generators (vars N entries),
      Direct.value given generators depth c arg =
        some (Json.record key (fun e => (c (e.var N)).bind (e.valueAt given.input)) entries) := fun c hc =>
    value_literal htable hsteady hfilter hkeys hliteral hdepth (hsteady.fits_of_mem hc)
  calc Direct.value given generators (depth + 1) b (.reduce i ⟨.array, false⟩ .eager arg)
      = Reducer.fold ⟨.array, false⟩ ((Direct.nestBindings given (Direct.value given generators depth) generators i.bound).map
          (Direct.value given generators depth · arg)) := Direct.aggregateWith_closed hfree _ _ _ b
    _ = Reducer.fold ⟨.array, false⟩ (((Direct.nestBindings given (Direct.value given generators depth) generators
          (vars N entries)).map
            fun c => Json.record key (fun e => (c (e.var N)).bind (e.valueAt given.input)) entries).map some) := by
        rw [hbound, List.map_congr_left hrecord, List.map_map]
        rfl
    _ = some (.arr ((product (entries.map (keys given.input))).map (recordAt given.input entries))) := by
        rw [Reducer.fold_array, List.filterMap_map, Function.id_comp, List.filterMap_some, hnest, Direct.value,
          map_record_draws (steady_of_filter hsteady hfilter) hnodup]

end

end RecordEntry

/-- The program of an array of records gives a record for each element of the product of the keys. -/
theorem Compiles.run_product {q : Query} {options : Options} {c : Compiled} {D : Derivation q} (hD : Compiles q options c D)
    {entries : List RecordEntry}
    (hterm : D.term = .reduce ⟨.array, false⟩ (Term.literal RecordEntry.key (fun e => e.path.term) entries))
    (hnodup : (entries.map fun e => e.path.name).Nodup)
    (hshallow : ∀ e ∈ entries, NameTable.isDeepName e.path.name.text = false) (input : Json) (functions : Functions) :
    c.program.run input functions =
      some (.arr ((product (entries.map (RecordEntry.keys input))).map (RecordEntry.recordAt input entries))) := by
  obtain ⟨-, hnamed⟩ := Derivation.root_product hterm
  obtain ⟨i, arg, hfree, hbound, htree, hliteral⟩ := Derivation.literal_product hterm options.output
  have hdiagnostics := hD.diagnostics_eq_nil_of_solvable (Derivation.solvable_product hterm options)
  have hdepth : c.program.slots ≤ c.program.slots + entries.length + 1 + 1 := by omega
  rw [hD.run_eq hdiagnostics input functions hdepth, htree]
  refine RecordEntry.value_array rfl (Derivation.steadyIn_product hterm hnodup options hshallow input functions)
    (Derivation.filter_generators_product hterm hnodup options) (fun e he => ?_) hliteral (by omega) hfree hbound _
  exact ⟨(hnamed e he).1, Derivation.literalGenerator_mem_product hterm options he, Derivation.literalVar_not_mem_vars hterm he⟩

/-- An array of one record enumerates a product. If the entries of the record follow different variables, none of them deep, then
on every input the result is an array with one record for each choice of a key for every variable, in the order in which the key
of the first variable changes last. A record has, from left to right, what its entries lead to for these keys. -/
theorem record_arrays_enumerate_products (entries : List RecordEntry) (options : Options)
    (hnodup : (entries.map fun e => e.path.name).Nodup)
    (hshallow : ∀ e ∈ entries, NameTable.isDeepName e.path.name.text = false) :
    ∃ c, compile (.array [.object (entries.map fun e => (.const e.key, e.query))]) options = .ok c ∧
      ∀ input functions, c.program.run input functions =
        some (.arr ((product (entries.map (RecordEntry.keys input))).map (RecordEntry.recordAt input entries))) := by
  have hobject : Term.ofQuery (.object (entries.map fun e => (.const e.key, e.query))) =
      .ok (Term.literal RecordEntry.key (fun e => e.path.term) entries) :=
    Term.ofQuery_object fun e _ => e.path.ofQuery_query e.implicit
  have harray : Term.ofQuery (.array [.object (entries.map fun e => (.const e.key, e.query))]) =
      .ok (.reduce ⟨.array, false⟩ (Term.literal RecordEntry.key (fun e => e.path.term) entries)) := by
    rw [Term.ofQuery, Term.ofQueries, hobject, Term.ofQueries]
    rfl
  obtain ⟨D, hterm⟩ := exists_derivation harray (Term.starsKeyed_literal fun e _ => e.path.starsKeyed_term)
  obtain ⟨c, hc, hD⟩ := Derivation.exists_compiles_product hterm options
  exact ⟨c, hc, hD.run_product hterm hnodup hshallow⟩

/-- A colour, and the width of a size. -/
def colourAndWidth : List RecordEntry :=
  [⟨.str "colour", ⟨[⟨"colours", by decide⟩], ⟨"*C", by decide⟩, []⟩, true⟩,
    ⟨.str "width", ⟨[⟨"sizes", by decide⟩], ⟨"*S", by decide⟩, [⟨"width", by decide⟩]⟩, true⟩]

/-- Two colours and two sizes, of which one has no width. -/
def coloursAndSizes : Json :=
  .obj [("colours", .arr [.str "red", .str "blue"]),
    ("sizes", .obj [("small", .obj [("width", Json.ofInt 30)]), ("any", .obj [])])]

/-- Every colour is paired with every size, the size changing first, and a size without width leaves its field out. -/
theorem record_arrays_enumerate_products_colours :
    (colourAndWidth.map fun e => e.path.name).Nodup ∧
      (∀ e ∈ colourAndWidth, NameTable.isDeepName e.path.name.text = false) ∧
      ∃ c, compile (.array [.object (colourAndWidth.map fun e => (.const e.key, e.query))]) {} = .ok c ∧
        c.program.run coloursAndSizes Functions.none =
          some (.arr [.obj [("colour", .str "red"), ("width", Json.ofInt 30)], .obj [("colour", .str "red")],
            .obj [("colour", .str "blue"), ("width", Json.ofInt 30)], .obj [("colour", .str "blue")]]) := by
  have hnodup : (colourAndWidth.map fun e => e.path.name).Nodup := by decide
  have hshallow : ∀ e ∈ colourAndWidth, NameTable.isDeepName e.path.name.text = false := by
    simp only [colourAndWidth, List.forall_mem_cons]
    decide
  obtain ⟨c, hc, hrun⟩ := record_arrays_enumerate_products colourAndWidth {} hnodup hshallow
  refine ⟨hnodup, hshallow, c, hc, ?_⟩
  rw [hrun]
  rfl

end StarQuery
