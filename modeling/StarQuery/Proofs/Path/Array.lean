import StarQuery.Proofs.Path.Reduction

/-!
# Array literals

An array literal without items is a constant, one with a single item is the reduction that collects the values of the item, and one
with more items joins such reductions. The reductions share one catalogue of generators, and those over paths that begin alike share
generators; still each loops over the stars of its own path and takes nothing from around it (`Derivation.tree_joined`). Joining
takes away the arrays that the reductions have made and no others, so items that are arrays themselves stay as they are.
-/

namespace StarQuery

/-- Arrays are joined to the array of all their items. -/
theorem Pointwise.eval_flatten (functions : Functions) (arrays : List (List Json)) :
    flatten.eval functions (arrays.map fun items => some (.arr items)) = some (.arr arrays.flatten) := by
  have hdefined : (arrays.map fun items => some (Json.arr items)).filterMap id = arrays.map .arr := by
    rw [List.filterMap_map]
    exact congrFun List.filterMap_eq_map arrays
  have hitems : (arrays.map Json.arr).flatMap itemsOf = arrays.flatten := by
    rw [List.flatMap_map]
    exact List.flatMap_id'
  rw [eval, hdefined, hitems]

/-- A node that applies an operator is annotated by annotating its arguments. -/
theorem Node.annotated_pointwise (d : Dependencies) (i : VarInfo) (op : Pointwise) (args : List Node) (outB outF : VarSet)
    (path : List Grouping) : ∃ i', annotated d (.pointwise i op args) outB outF path =
      .pointwise i' op (args.map (annotated d · outB outF path)) := by
  simp [annotated, withBound, withFree, setBound, setFree, setJointFree, setInfo, Function.comp_def]

namespace Term

/-- Terms whose values are collected one by one and joined. -/
def joined (items : List Term) : Term := .pointwise .flatten (items.map gathered)

/-- An array literal resolves to the array of what its items resolve to. -/
theorem ofQuery_array {α : Type} {query : α → Query} {term : α → Term} {items : List α}
    (h : ∀ x ∈ items, ofQuery (query x) = .ok (term x)) :
    ofQuery (.array (items.map query)) = .ok (ofItems (items.map term)) := by
  have hitems : ofQueries (items.map query) = .ok (items.map term) := by
    induction items with
    | nil => rfl
    | cons x items ih =>
      rw [List.forall_mem_cons] at h
      rw [List.map_cons, ofQueries, h.1, ih h.2]
      rfl
  rw [ofQuery, hitems]
  rfl

/-- The stars of terms are keys if those of each are. -/
theorem listStarsKeyed_map {α : Type} {term : α → Term} {items : List α} (h : ∀ x ∈ items, (term x).starsKeyed false = true) :
    listStarsKeyed false (items.map term) = true := by
  induction items with
  | nil => rfl
  | cons x items ih =>
    rw [List.forall_mem_cons] at h
    rw [List.map_cons, listStarsKeyed_false_cons, h.1, ih h.2]
    rfl

end Term

/-! ## Several items -/

namespace Derivation

variable {q : Query} {D : Derivation q} {paths : List StarPath} (hterm : D.term = Term.joined (paths.map StarPath.term))

include hterm

/-- An array literal of star paths names no variable. -/
theorem names_joined : D.term.names = [] := by
  rw [hterm, Term.joined, Term.names, Term.listNames_eq, List.map_map, List.flatMap_map]
  exact List.flatMap_eq_nil_iff.2 fun p _ => p.names_term

/-- The root of several items joins reductions of the nodes of their paths. -/
theorem root_joined :
    D.root = (Node.pointwise {} .flatten (paths.map fun p =>
        (Node.reduce {} ⟨.array, false⟩ .eager (p.node D.naming .spanning)).settleExtent)).settleExtent ∧
      ∀ p ∈ paths, p.Named D.naming := by
  have hitems : ∀ (paths : List StarPath) (ns : List Node), (paths.map fun p => p.term.gathered).length = ns.length →
      (∀ x ∈ (paths.map fun p => p.term.gathered).zip ns, Node.Reads D.naming x.1 x.2) →
      ns.map Node.withExtents = (paths.map fun p =>
        (Node.reduce {} ⟨.array, false⟩ .eager (p.node D.naming .spanning)).settleExtent) ∧ ∀ p ∈ paths, p.Named D.naming := by
    intro paths
    induction paths with
    | nil =>
      intro ns hlen _
      rw [List.length_eq_zero_iff.1 hlen.symm]
      exact ⟨rfl, fun p hp => absurd hp List.not_mem_nil⟩
    | cons p paths ih =>
      intro ns hlen hreads
      cases ns with
      | nil => cases hlen
      | cons n ns =>
        rw [List.map_cons, List.zip_cons_cons, List.forall_mem_cons] at hreads
        obtain ⟨hfirst, hnamed⟩ := StarPath.of_reads_reduce hreads.1
        obtain ⟨hrest, hrestNamed⟩ := ih ns (Nat.succ.inj hlen) hreads.2
        exact ⟨by rw [List.map_cons, List.map_cons, hfirst, hrest], List.forall_mem_cons.2 ⟨hnamed, hrestNamed⟩⟩
  have hreads := D.reads
  rw [hterm, Term.joined, List.map_map] at hreads
  generalize hnode : D.node = n at hreads
  cases hreads with
  | pointwise hlen hargs =>
    obtain ⟨hextents, hnamed⟩ := hitems paths _ hlen hargs
    refine ⟨?_, hnamed⟩
    rw [root, hnode, Node.withExtents, Node.listWithExtents_eq, hextents]

/-- The tree of several items joins reductions that take nothing from around them. -/
theorem tree_joined (output : Output) :
    ∃ i, D.tree output = .pointwise i .flatten (paths.map fun p => p.reduction D.naming ⟨.array, false⟩ ∅) := by
  obtain ⟨hroot, -⟩ := root_joined hterm
  have hindex : output.indexOf D.root = ∅ := by
    have hnone : VarSet.unions (paths.map fun _ => (∅ : VarSet)) = ∅ := VarSet.ext fun v => by simp
    rw [hroot]
    cases output <;>
      simpa [Output.indexOf, Node.settleExtent, Node.setInfo, Node.info, Node.extent, Node.jointExtent, Node.reducedExtent,
        Function.comp_def] using hnone
  have hneeded : ∀ p : StarPath, Node.needed D.dependencies (p.stars D.naming) (p.stars D.naming) ∅ [] = ∅ := by
    intro p
    exact VarSet.ext fun v => by simp [Node.needed]
  rw [D.tree_of_indexOf hindex, hroot]
  obtain ⟨i, hannotated⟩ := Node.annotated_pointwise D.dependencies _ .flatten (paths.map fun p =>
    (Node.reduce {} ⟨.array, false⟩ .eager (p.node D.naming .spanning)).settleExtent) ∅ ∅ []
  refine ⟨i, hannotated.trans ?_⟩
  rw [List.map_map]
  refine congrArg _ (List.map_congr_left fun p _ => ?_)
  exact (StarPath.annotated_reduction D.dependencies ⟨.array, false⟩ (fun v _ => VarSet.not_mem_empty v) ∅ []).trans
    (by rw [hneeded])

/-- The lookups of variables are the stars of the paths. -/
theorem mem_filters_joined (output : Output) {n : Node} :
    n ∈ (D.tree output).filters ↔ ∃ p ∈ paths, ∃ stop ∈ p.stops, stop.starFilter D.naming = n := by
  obtain ⟨i, htree⟩ := tree_joined hterm output
  rw [htree, Node.filters_eq]
  simp [Node.children, Node.filterVar?, StarPath.filters_reduction]

/-- No variable is looked up in two ways. -/
theorem filters_joined_unique (output : Output) : ∀ m ∈ (D.tree output).filters, ∀ n ∈ (D.tree output).filters,
    m.filterVar? = n.filterVar? → m = n := by
  obtain ⟨-, hnamed⟩ := root_joined hterm
  intro m hm n hn hvar
  obtain ⟨p, hp, stop, hstop, rfl⟩ := (mem_filters_joined hterm output).1 hm
  obtain ⟨p', hp', stop', hstop', rfl⟩ := (mem_filters_joined hterm output).1 hn
  rw [StarPath.starVar_inj (hnamed p hp stop hstop) (hnamed p' hp' stop' hstop') (Option.some.inj hvar)]

/-- The stars of a path are all generators of their variables. -/
theorem filter_generators_joined (options : Options) {p : StarPath} (hp : p ∈ paths) :
    ((D.setting options).generators.filter (fun g => decide (g.var ∈ p.stars D.naming))).Perm (p.generators D.naming) :=
  ((root_joined hterm).2 p hp).filter_catalogue (filters_joined_unique hterm options.output) fun stop hstop =>
    (mem_filters_joined hterm options.output).2 ⟨p, hp, stop, hstop, rfl⟩

/-- The sources of the generators are paths, so that several items have a program. -/
theorem exists_compiles_joined (options : Options) : ∃ c, compile q options = .ok c ∧ Compiles q options c D := by
  refine D.exists_compiles_of_sources fun g hg => ?_
  rw [setting, Catalogue.generators, Catalogue.ofNode, ← Node.filters, List.mem_filterMap] at hg
  obtain ⟨n, hn, hg⟩ := hg
  obtain ⟨p, -, stop, -, rfl⟩ := (mem_filters_joined hterm options.output).1 (Node.mem_distinct.1 hn)
  rw [← Option.some.inj hg]
  exact stop.readsOf_node _

end Derivation

/-- The program of several items gives the defined values of all paths, one path after the other. -/
theorem Compiles.run_joined {q : Query} {options : Options} {c : Compiled} {D : Derivation q} (hD : Compiles q options c D)
    {paths : List StarPath} (hterm : D.term = Term.joined (paths.map StarPath.term)) (input : Json) (functions : Functions) :
    c.program.run input functions = some (.arr (paths.flatMap fun p => (p.values input).filterMap id)) := by
  obtain ⟨-, hnamed⟩ := Derivation.root_joined hterm
  obtain ⟨i, htree⟩ := Derivation.tree_joined hterm options.output
  let given : Given := ⟨input, functions, D.naming.table⟩
  let aggregate := Direct.aggregate given (D.setting options).generators (c.program.slots + 1)
  have hvalues : ∀ ps ⊆ paths, Direct.valuesWith given aggregate Binding.empty
      (ps.map fun p => p.reduction D.naming ⟨.array, false⟩ ∅) =
        (ps.map fun p => (p.values input).filterMap id).map fun items => some (.arr items) := by
    intro ps hps
    induction ps with
    | nil => rfl
    | cons p ps ih =>
      have hp : p ∈ paths := hps List.mem_cons_self
      have hvalue : Direct.valueWith given aggregate Binding.empty (p.reduction D.naming ⟨.array, false⟩ ∅) =
          some (.arr ((p.values input).filterMap id)) := by
        rw [← Reducer.fold_array]
        exact (hnamed p hp).aggregateWith_fold rfl (Derivation.filter_generators_joined hterm options hp) rfl rfl
          ⟨.array, false⟩ .eager Binding.empty
      rw [List.map_cons, Direct.valuesWith, hvalue, ih fun x hx => hps (List.mem_cons_of_mem p hx)]
      rfl
  rw [hD.run_eq (hD.diagnostics_eq_nil (Derivation.names_joined hterm)) input functions (Nat.le_succ _), htree]
  change Pointwise.flatten.eval functions (Direct.valuesWith given aggregate Binding.empty _) = _
  rw [hvalues paths (List.Subset.refl _), Pointwise.eval_flatten, List.flatMap_def]

/-! ## No items -/

/-- A constant compiles to a program that gives it. -/
theorem exists_compiles_const {q : Query} {value : Json} (hterm : Term.ofQuery q = .ok (.const value)) (options : Options) :
    ∃ c, compile q options = .ok c ∧ ∀ input functions, c.program.run input functions = some value := by
  obtain ⟨D, hD⟩ := exists_derivation hterm rfl
  have hroot : D.root = .const {} value := by
    have hreads := D.reads
    rw [hD] at hreads
    generalize hnode : D.node = n at hreads
    cases hreads
    rw [Derivation.root, hnode]
    rfl
  have htree : D.tree options.output = .const {} value := by
    have hindex : options.output.indexOf D.root = ∅ := by
      rw [hroot]
      cases options.output <;> rfl
    rw [D.tree_of_indexOf hindex, hroot]
    rfl
  have hgenerators : (D.setting options).generators = [] := by
    rw [Derivation.setting, htree]
    rfl
  have hgenerate : ∃ r, Program.generate (D.setting options) (D.tree options.output) = some r :=
    Program.exists_generate_of_sources (fun g hg => absurd (hgenerators ▸ hg) List.not_mem_nil) _
  obtain ⟨c, hc, hcompiles⟩ := D.exists_compiles hgenerate
  refine ⟨c, hc, fun input functions => ?_⟩
  have hnames : D.term.names = [] := by
    rw [hD]
    rfl
  rw [hcompiles.run_eq (hcompiles.diagnostics_eq_nil hnames) input functions (Nat.le_refl _), htree]
  rfl

/-- An array literal of star paths concatenates what the paths lead to. Whatever the paths, however many, and whatever the options,
the literal compiles, and on every input the result is the array of the values that are defined, path by path and for each path in
the order of nested iteration. A value that is an array is one item. -/
theorem array_literals_concatenate_paths (items : List (StarPath × Bool)) (options : Options) :
    ∃ c, compile (.array (items.map fun x => x.1.query x.2)) options = .ok c ∧
      ∀ input functions, c.program.run input functions =
        some (.arr (items.flatMap fun x => (x.1.values input).filterMap id)) := by
  have hterm : Term.ofQuery (.array (items.map fun x => x.1.query x.2)) = .ok (Term.ofItems (items.map fun x => x.1.term)) :=
    Term.ofQuery_array fun x _ => x.1.ofQuery_query x.2
  have hstars : (Term.ofItems (items.map fun x => x.1.term)).starsKeyed false = true := by
    rw [Term.starsKeyed_ofItems]
    exact Term.listStarsKeyed_map fun x _ => x.1.starsKeyed_term false
  obtain ⟨D, hD⟩ := exists_derivation hterm hstars
  cases items with
  | nil => exact exists_compiles_const hterm options
  | cons x rest =>
    cases rest with
    | nil =>
      obtain ⟨c, hc, hcompiles⟩ := Derivation.exists_compiles_reduction hD options
      refine ⟨c, hc, fun input functions => ?_⟩
      rw [hcompiles.run_reduction hD, Reducer.fold_array, List.flatMap_singleton]
    | cons y rest =>
      have hjoined : D.term = Term.joined (((x :: y :: rest).map Prod.fst).map StarPath.term) := by
        rw [hD, List.map_map]
        rfl
      obtain ⟨c, hc, hcompiles⟩ := Derivation.exists_compiles_joined hjoined options
      refine ⟨c, hc, fun input functions => ?_⟩
      rw [hcompiles.run_joined hjoined, List.flatMap_map]

end StarQuery
