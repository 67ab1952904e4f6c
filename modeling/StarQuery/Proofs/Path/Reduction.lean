import StarQuery.Proofs.Direct.Refinement
import StarQuery.Proofs.Path.Draws
import StarQuery.Proofs.Program.Acyclic
import StarQuery.Proofs.Program.Silent
import StarQuery.Proofs.Program.Slots
import StarQuery.Proofs.Reducer.ClosedForm

/-!
# Reductions over star paths

A reduction over a star path is one aggregate, which loops over the stars of the path. Its program therefore has one slot and
needs no projection, and what it computes is the fold of the reducer over the values of the path, in the order of nested
iteration.
-/

namespace StarQuery

/-- The name of a reducer names the reducer. -/
theorem Callee.ofName?_name (r : Reducer) : ofName? r.name = some (.reduce r) := by
  obtain ⟨folding, nullable⟩ := r
  cases folding <;> cases nullable <;> decide

/-- Calling a reducer resolves to a reduction of what its argument resolves to. -/
theorem Term.ofQuery_reduce {q : Query} {t : Term} (h : ofQuery q = .ok t) (r : Reducer) :
    ofQuery (.op r.name [q]) = .ok (.reduce r t) := by
  have hargs : ofQueries [q] = .ok [t] := by
    rw [ofQueries, h, ofQueries]
    rfl
  rw [ofQuery, hargs]
  change ofCall r.name [t] = _
  rw [ofCall, Callee.ofName?_name]
  rfl

/-- The array reducer collects the inputs that are defined. -/
theorem Reducer.fold_array (xs : List (Option Json)) : fold ⟨.array, false⟩ xs = some (.arr (xs.filterMap id)) :=
  fold_array_of_inputs (.inl rfl)

/-- A query has a derivation if it is resolved to a term whose stars all stand as keys. -/
theorem exists_derivation {q : Query} {t : Term} (hterm : Term.ofQuery q = .ok t) (hstars : t.starsKeyed false = true) :
    ∃ D : Derivation q, D.term = t := by
  rcases (Node.ofTerm_places t).outcome {} with ⟨-, node, N, hnode⟩ | ⟨hplaced, -⟩
  · exact ⟨⟨t, node, N, hterm, hnode⟩, rfl⟩
  · rw [hstars] at hplaced
    cases hplaced

/-- A query compiles if its tree has a program. -/
theorem Derivation.exists_compiles {q : Query} (D : Derivation q) {options : Options}
    (h : ∃ r, Program.generate (D.setting options) (D.tree options.output) = some r) :
    ∃ c, compile q options = .ok c ∧ Compiles q options c D := by
  obtain ⟨⟨program, diagnostics⟩, hgenerate⟩ := h
  have hcompile := D.compile_eq options
  rw [hgenerate] at hcompile
  exact ⟨_, hcompile, rfl, rfl, rfl, rfl, hgenerate⟩

/-- A query compiles if no source of its generators reads an aggregate. -/
theorem Derivation.exists_compiles_of_sources {q : Query} (D : Derivation q) {options : Options}
    (h : ∀ g ∈ (D.setting options).generators, Program.readsOf g.source = []) :
    ∃ c, compile q options = .ok c ∧ Compiles q options c D :=
  D.exists_compiles (Program.exists_generate_of_sources h _)

/-- Where nothing indexes the result, the tree is the annotated root. -/
theorem Derivation.tree_of_indexOf {q : Query} (D : Derivation q) {output : Output} (h : output.indexOf D.root = ∅) :
    D.tree output = Node.annotated D.dependencies D.root ∅ ∅ [] := by
  rw [tree, h]
  exact if_pos rfl

/-- Where variables index the result, the tree is the annotated root, grouped by them. -/
theorem Derivation.tree_of_indexOf_ne {q : Query} (D : Derivation q) {output : Output} {out : VarSet}
    (h : output.indexOf D.root = out) (hne : out ≠ ∅) :
    D.tree output = (Node.annotated D.dependencies D.root out out []).groupedBy out := by
  rw [tree, h]
  exact if_neg fun hempty => hne (VarSet.isEmpty_iff.1 hempty)

/-- A node takes nothing from around it if nothing is provided there that its loops depend on or that its parts need, and no key of
a grouping around it depends on what the loops depend on. -/
theorem Node.needed_eq_empty_of_disjoint {d : Dependencies} {bound below out : VarSet} {path : List Grouping}
    (hbound : ∀ v ∈ d.ofSet bound, ¬ v ∈ out) (hbelow : ∀ v ∈ below, ¬ v ∈ out)
    (hpath : ∀ g ∈ path, ∀ v ∈ g.reach, ¬ v ∈ d.ofSet bound) : needed d bound below out path = ∅ := by
  have hcorrelated : correlated d bound path = ∅ := by
    have hnone : path.filter (fun g => g.reach.overlaps (d.ofSet bound)) = [] := by
      refine List.filter_eq_nil_iff.2 fun g hg hoverlaps => ?_
      obtain ⟨v, hv, hv'⟩ := VarSet.overlaps_iff.1 hoverlaps
      exact hpath g hg v hv hv'
    rw [correlated, hnone]
    rfl
  refine VarSet.ext fun v => ⟨fun hv => ?_, fun hv => absurd hv (VarSet.not_mem_empty v)⟩
  rw [needed, hcorrelated, VarSet.union_empty, VarSet.mem_inter, VarSet.mem_union] at hv
  exact absurd hv.2 (hv.1.elim (hbound v) (hbelow v))

namespace StarPath

variable {N : Naming}

/-- The node of a path is drawn after the bottom-up pass, as its variables are keys of lookups. -/
theorem drawn_node (p : StarPath) : (p.node N .spanning).Drawn := by
  rw [← withExtents_node]
  induction p with
  | input => exact .joint rfl fun c hc => absurd hc List.not_mem_nil
  | get base key ih =>
    cases key with
    | star => exact .draw ih
    | name n =>
      refine .joint rfl fun c hc => ?_
      rcases Node.mem_children_get.1 hc with rfl | rfl
      · exact ih
      · exact .joint rfl fun c hc => absurd hc List.not_mem_nil

/-- A path reads no aggregate. -/
theorem readsOf_node (p : StarPath) (sets : VarSet → VarInfo) : Program.readsOf (p.node N sets) = [] := by
  induction p with
  | input => rfl
  | get base key ih => cases key <;> rw [node, Program.readsOf, ih] <;> rfl

/-- The reduction over a path in a finished tree, if it takes some variables from around it. -/
def reduction (N : Naming) (r : Reducer) (p : StarPath) (free : VarSet) : Node :=
  .reduce { vars := p.stars N, bound := p.stars N, allBound := p.stars N, free := free } r .eager (p.node N .taking)

/-- The passes from the root down let a reduction loop over all stars of its path, where nothing around provides them. -/
theorem annotated_reduce (d : Dependencies) (r : Reducer) (mode : Mode) {p : StarPath} {outB : VarSet}
    (hout : ∀ v ∈ p.stars N, ¬ v ∈ outB) (outF : VarSet) (path : List Grouping) :
    Node.annotated d (Node.reduce {} r mode (p.node N .spanning)).settleExtent outB outF path =
      .reduce { Node.reducedExtent mode (p.node N .spanning) with
        bound := p.stars N
        allBound := p.stars N
        free := Node.needed d (p.stars N) (p.stars N) outF path } r mode (p.node N .taking) := by
  have hloops : p.stars N \ outB = p.stars N := by
    refine VarSet.ext fun v => ?_
    rw [VarSet.mem_sdiff]
    exact and_iff_left_of_imp (hout v)
  simp [Node.annotated_reduce, annotated_node, info_node, hloops, VarInfo.taking, VarInfo.spanning]

/-- The passes from the root down give the reduction over a path what is needed around its stars. -/
theorem annotated_reduction (d : Dependencies) (r : Reducer) {p : StarPath} {outB : VarSet}
    (hout : ∀ v ∈ p.stars N, ¬ v ∈ outB) (outF : VarSet) (path : List Grouping) :
    Node.annotated d (Node.reduce {} r .eager (p.node N .spanning)).settleExtent outB outF path =
      p.reduction N r (Node.needed d (p.stars N) (p.stars N) outF path) := by
  rw [annotated_reduce d r .eager hout, Node.reducedExtent, info_node]
  rfl

/-- The lookups of variables in a reduction are the stars of its path. -/
theorem filters_reduction (r : Reducer) (p : StarPath) (free : VarSet) :
    (p.reduction N r free).filters = p.stops.map (starFilter N) := by
  rw [Node.filters_eq]
  simp [reduction, Node.children, Node.filterVar?, filters_node]

/-- There is no aggregate in the node of a path. -/
theorem gathers_of_mem_node {p : StarPath} {sets : VarSet → VarInfo} {m : Node} (hm : m ∈ (p.node N sets).postorder) :
    m.gathers = false := by
  induction p with
  | input =>
    rw [List.mem_singleton.1 hm]
    rfl
  | get base key ih =>
    cases key with
    | name n | star =>
      rw [node, Node.postorder] at hm
      simp only [Node.postorder, List.mem_append, List.mem_singleton] at hm
      rcases hm with (hm | rfl) | rfl
      · exact ih hm
      · rfl
      · rfl

/-- What a reduction over a path reads as, after the bottom-up pass. -/
theorem of_reads_reduce {r : Reducer} {p : StarPath} {n : Node} (h : Node.Reads N (.reduce r p.term) n) :
    n.withExtents = (Node.reduce {} r .eager (p.node N .spanning)).settleExtent ∧ Named N p := by
  cases h with
  | reduce harg =>
    obtain ⟨rfl, hnamed⟩ := of_reads harg
    refine ⟨?_, hnamed⟩
    rw [Node.withExtents, withExtents_node]

/-- A reduction over a path that takes nothing from around it folds the values of the path, if no other stars stand for its
variables. -/
theorem Named.aggregateWith_fold {given : Given} (htable : given.table = N.table) {aggregate : Direct.Valuation}
    {generators : List Generator} {p : StarPath} (h : Named N p)
    (hfilter : (generators.filter (fun g => decide (g.var ∈ p.stars N))).Perm (p.generators N)) {i : VarInfo}
    (hfree : i.free = ∅) (hbound : i.bound = p.stars N) (r : Reducer) (mode : Mode) (b : Binding) :
    Direct.aggregateWith given (Direct.valueWith given aggregate) generators b (.reduce i r mode (p.node N .taking)) =
      r.fold (p.values given.input) := by
  have hnest : Direct.nestBindings given (Direct.valueWith given aggregate) generators (p.stars N) =
      Direct.draws given (Direct.valueWith given aggregate) (p.generators N) Binding.empty :=
    Direct.nestBindings_chain hfilter h.chain (bound_place_generators p)
  rw [Direct.aggregateWith_closed hfree, hbound, hnest, h.map_value_draws htable]

/-- The reduction over a path folds the values of the path, if the generators of its variables are its stars. -/
theorem Named.aggregateWith_reduction {given : Given} (htable : given.table = N.table) {aggregate : Direct.Valuation}
    {generators : List Generator} {p : StarPath} (h : Named N p)
    (hfilter : generators.filter (fun g => decide (g.var ∈ p.stars N)) = p.generators N) (r : Reducer) (b : Binding) :
    Direct.aggregateWith given (Direct.valueWith given aggregate) generators b (p.reduction N r ∅) =
      r.fold (p.values given.input) :=
  h.aggregateWith_fold htable (.of_eq hfilter) rfl rfl r .eager b

/-- The lookups of variables in paths, one path after the other, are all different if their variables are. -/
theorem nodup_starFilters {stops : List StarPath} (h : (stops.map (starVar N)).Nodup) : (stops.map (starFilter N)).Nodup := by
  refine List.Nodup.of_map Node.filterVar? ?_
  rw [List.map_map]
  have hvars : stops.map (Node.filterVar? ∘ starFilter N) = (stops.map (starVar N)).map some := by
    rw [List.map_map]
    rfl
  rw [hvars]
  exact h.map (Option.some_injective _)

/-- The generators of the lookups of stars are the generators of the stars. -/
theorem filterMap_starFilters (stops : List StarPath) :
    (stops.map (starFilter N)).filterMap (Generator.ofFilter? N.table) = stops.map (generator N) := by
  rw [List.filterMap_map]
  exact List.filterMap_eq_map_iff_forall_eq_some.2 fun p _ => ofFilter?_starFilter p

/-- The stars of a path have variables of their own. -/
theorem Named.nodup_vars {p : StarPath} (h : Named N p) : (p.stops.map (starVar N)).Nodup := by
  have hnodup := h.chain.fresh.1
  rwa [generators, List.map_map] at hnodup

/-- Where no variable is looked up in two ways, the generators of the variables of a path are its stars, if the tree looks these
up. -/
theorem Named.filter_catalogue {root : Node}
    (hunique : ∀ m ∈ root.filters, ∀ n ∈ root.filters, m.filterVar? = n.filterVar? → m = n) {p : StarPath} (h : Named N p)
    (hp : ∀ q ∈ p.stops, q.starFilter N ∈ root.filters) :
    (((Catalogue.ofNode root).generators N.table).filter (fun g => decide (g.var ∈ p.stars N))).Perm (p.generators N) := by
  have hnodup : (p.generators N).Nodup := List.Nodup.of_map _ h.chain.fresh.1
  refine (List.perm_ext_iff_of_nodup ((Catalogue.nodup_vars _ hunique).of_map.filter _) hnodup).2 fun g => ?_
  rw [List.mem_filter, decide_eq_true_eq, Catalogue.generators, Catalogue.ofNode, ← Node.filters, List.mem_filterMap]
  constructor
  · rintro ⟨⟨n, hn, hg⟩, hvar⟩
    obtain ⟨q, hq, hqvar⟩ := mem_stars.1 hvar
    have hlookup : n.filterVar? = some g.var := by
      obtain ⟨v, hv, hrest⟩ := Option.bind_eq_some_iff.1 hg
      obtain ⟨source, -, hsource⟩ := Option.bind_eq_some_iff.1 hrest
      rw [hv, ← Option.some.inj hsource]
    have heq : n = q.starFilter N :=
      hunique n (Node.mem_distinct.1 hn) _ (hp q hq) (hlookup.trans (congrArg some hqvar.symm))
    rw [heq, ofFilter?_starFilter] at hg
    rw [← Option.some.inj hg]
    exact List.mem_map_of_mem hq
  · intro hg
    obtain ⟨q, hq, rfl⟩ := List.mem_map.1 hg
    exact ⟨⟨_, Node.mem_distinct.2 (hp q hq), ofFilter?_starFilter q⟩, mem_stars.2 ⟨q, hq, rfl⟩⟩

end StarPath

/-- Where no variable is named, the stars of a path that occurs in a query depend on stars of the path only. -/
theorem Derivation.ofSet_stars_subset_of_mem {q : Query} (D : Derivation q) (hnames : D.term.names = []) {p : StarPath}
    (hmem : p.node D.naming .spanning ∈ D.root.postorder) : D.dependencies.ofSet (p.stars D.naming) ⊆ p.stars D.naming := by
  have hvars : (p.node D.naming .spanning).info.vars = p.stars D.naming := by
    rw [StarPath.info_node]
    rfl
  intro v hv
  obtain ⟨u, hu, hv⟩ := VarSet.mem_unions_map.1 hv
  rw [← hvars]
  exact D.dependent hnames _ hmem p.drawn_node u (hvars.symm ▸ hu) v hv

/-! ## The program of a reduction -/

namespace Derivation

variable {q : Query} {D : Derivation q} {options : Options} {r : Reducer} {p : StarPath}

/-- If the filters of the tree are the stars of a path, then so are the generators. -/
theorem generators_of_filters (hnamed : p.Named D.naming)
    (h : (D.tree options.output).filters = p.stops.map (StarPath.starFilter D.naming)) :
    (D.setting options).generators = p.generators D.naming := by
  rw [setting, Catalogue.generators, Catalogue.ofNode, ← Node.filters, h,
    Node.distinct_of_nodup (StarPath.nodup_starFilters hnamed.nodup_vars), StarPath.filterMap_starFilters]
  rfl

/-- A query whose generators are the stars of a path has a program, because no star draws from an aggregate. -/
theorem exists_compiles_of_generators (h : (D.setting options).generators = p.generators D.naming) :
    ∃ c, compile q options = .ok c ∧ Compiles q options c D := by
  refine D.exists_compiles_of_sources fun g hg => ?_
  rw [h] at hg
  obtain ⟨b, -, rfl⟩ := List.mem_map.1 hg
  exact StarPath.readsOf_node b _

variable (hterm : D.term = .reduce r p.term)

include hterm

/-- The root of a reduction over a path is the reduction of the node of the path. -/
theorem root_reduction :
    D.root = (Node.reduce {} r .eager (p.node D.naming .spanning)).settleExtent ∧ p.Named D.naming := by
  have hreads := D.reads
  rw [hterm] at hreads
  exact StarPath.of_reads_reduce hreads

/-- The tree of a reduction is the reduction, which takes nothing from around it. -/
theorem tree_reduction (output : Output) : D.tree output = p.reduction D.naming r ∅ := by
  obtain ⟨hroot, -⟩ := root_reduction hterm
  have hindex : output.indexOf D.root = ∅ := by
    rw [hroot]
    cases output <;> rfl
  have hneeded : Node.needed D.dependencies (p.stars D.naming) (p.stars D.naming) ∅ [] = ∅ := by
    refine VarSet.ext fun v => ?_
    simp [Node.needed]
  rw [D.tree_of_indexOf hindex, hroot,
    StarPath.annotated_reduction D.dependencies r (fun v _ => VarSet.not_mem_empty v), hneeded]

/-- The generators of a reduction are the stars of its path. -/
theorem generators_reduction (options : Options) : (D.setting options).generators = p.generators D.naming := by
  refine generators_of_filters (root_reduction hterm).2 ?_
  rw [tree_reduction hterm, StarPath.filters_reduction]

/-- A reduction needs no other aggregate, so that it has a program. -/
theorem exists_compiles_reduction (options : Options) : ∃ c, compile q options = .ok c ∧ Compiles q options c D :=
  exists_compiles_of_generators (generators_reduction hterm options)

end Derivation

namespace Compiles

variable {q : Query} {options : Options} {c : Compiled} {D : Derivation q} {r : Reducer} {p : StarPath}
  (hD : Compiles q options c D) (hterm : D.term = .reduce r p.term)

include hD hterm

/-- The only aggregate of a reduction is the reduction, and its nests loop over all that they need. -/
theorem slots_reduction : c.program.slots = 1 ∧ c.program.projections = 0 ∧
    Stmt.select Stmt.projection? c.program.body = [] := by
  have htree := Derivation.tree_reduction hterm options.output
  obtain ⟨entries, hbuilt, -, hlen, hnodup, hbody, hexpr, hperm⟩ :=
    Program.generate_numbers (D.universe_tree options) (Node.self_mem_postorder _) hD.generated
  rw [htree] at hexpr
  have hnode : ∀ x ∈ entries, x.node = p.reduction D.naming r ∅ := by
    intro x hx
    obtain ⟨hmem, hgathers, -⟩ := hbuilt.forall_mem hx
    rw [htree] at hmem
    rcases List.mem_append.1 hmem with hmem | hmem
    · rw [StarPath.gathers_of_mem_node hmem] at hgathers
      cases hgathers
    · exact List.mem_singleton.1 hmem
  have hclosure : ∀ x ∈ entries, Stmt.select Stmt.projection? x.block = [] := by
    intro x hx
    obtain ⟨-, -, earlier, hblock⟩ := hbuilt.forall_mem hx
    have hgenerators := Derivation.generators_reduction hterm options
    have hstars : Generator.closure (D.setting options).generators (p.stars D.naming) = p.stars D.naming := by
      refine (Derivation.root_reduction hterm).2.chain.closure_eq ?_ (StarPath.bound_place_generators p)
      rw [hgenerators, StarPath.filter_generators]
    rw [hnode x hx] at hblock
    refine hblock.projections_eq_nil (Generator.closure_eq_self fun g _ hg => absurd hg (VarSet.not_mem_empty _)) ?_
    change Generator.closure _ (∅ ∪ p.stars D.naming) = ∅ ∪ p.stars D.naming
    rw [VarSet.empty_union, hstars]
  have hselect : Stmt.select Stmt.projection? c.program.body = [] := by
    rw [hbody, Stmt.select_flatMap, List.flatMap_eq_nil_iff.2 hclosure]
  refine ⟨?_, ?_, hselect⟩
  · have hsubset : entries.map Program.Entry.node ⊆ [p.reduction D.naming r ∅] := by
      intro n hn
      obtain ⟨x, hx, rfl⟩ := List.mem_map.1 hn
      exact List.mem_singleton.2 (hnode x hx)
    have hle := (hnodup.subperm hsubset).length_le
    rw [List.length_map, hlen] at hle
    refine Nat.le_antisymm hle ?_
    generalize c.program.result = result at hexpr
    cases hexpr with
    | slot _ hentry _ =>
      rw [← hlen]
      exact List.length_pos_of_mem hentry
  · rw [hselect] at hperm
    simpa using hperm.length_eq.symm

/-- The program of a reduction folds the values of the path. -/
theorem run_reduction (input : Json) (functions : Functions) : c.program.run input functions = r.fold (p.values input) := by
  obtain ⟨-, hnamed⟩ := Derivation.root_reduction hterm
  have hnames : D.term.names = [] := by rw [hterm, Term.names, StarPath.names_term]
  have hslots : c.program.slots ≤ 1 := (hD.slots_reduction hterm).1.le
  rw [hD.run_eq (hD.diagnostics_eq_nil hnames) input functions hslots, Derivation.tree_reduction hterm,
    Derivation.generators_reduction hterm]
  exact hnamed.aggregateWith_reduction rfl (StarPath.filter_generators p) r Binding.empty

end Compiles

/-- A reduction over a path has a derivation. -/
theorem exists_derivation_reduction (p : StarPath) (r : Reducer) (implicit : Bool) :
    ∃ D : Derivation (.op r.name [p.query implicit]), D.term = .reduce r p.term :=
  exists_derivation (Term.ofQuery_reduce (p.ofQuery_query implicit) r) (p.starsKeyed_term false)

/-- A reduction over a star path folds the values of the path. Whatever the path, the reducer and the options, the query compiles
without a report to a program with one slot and no projection, which gives on every input the fold of the reducer over the values
that the path leads to by nested iteration. -/
theorem reductions_fold_paths (p : StarPath) (r : Reducer) (implicit : Bool) (options : Options) :
    ∃ c, compile (.op r.name [p.query implicit]) options = .ok c ∧ c.diagnostics = [] ∧ c.program.slots = 1 ∧
      c.program.projections = 0 ∧ Stmt.select Stmt.projection? c.program.body = [] ∧
      ∀ input functions, c.program.run input functions = r.fold (p.values input) := by
  obtain ⟨D, hterm⟩ := exists_derivation_reduction p r implicit
  obtain ⟨c, hc, hD⟩ := Derivation.exists_compiles_reduction hterm options
  obtain ⟨hslots, hprojections, hselect⟩ := hD.slots_reduction hterm
  have hnames : D.term.names = [] := by rw [hterm, Term.names, StarPath.names_term]
  exact ⟨c, hc, hD.diagnostics_eq_nil hnames, hslots, hprojections, hselect, hD.run_reduction hterm⟩

end StarQuery
