import StarQuery.Proofs.Path.Literal
import StarQuery.Proofs.Path.Reduction

/-!
# Object literals of reductions

The entries of an object literal are reductions over star paths, or star paths alone, of which one value is chosen. Though all
entries share one catalogue of generators, and those with equal keys or with paths that begin alike share generators, no entry takes
a variable from around it (`Derivation.literal_tree`). So each has the value that it has on its own.
-/

namespace StarQuery

/-- An entry of an object literal: a constant key, and a reduction over a star path or the path alone. -/
structure ObjectEntry where
  key : Json
  reducer? : Option Reducer
  path : StarPath
  implicit : Bool

namespace ObjectEntry

/-- The reducer of an entry. A path alone stands for the choice of one of its values. -/
def reducer (e : ObjectEntry) : Reducer := e.reducer?.getD ⟨.single, false⟩

/-- The value of an entry as a query. -/
def query (e : ObjectEntry) : Query :=
  match e.reducer? with
  | some r => .op r.name [e.path.query e.implicit]
  | none => e.path.query e.implicit

/-- The query for the value of an entry on its own. -/
def alone (e : ObjectEntry) : Query := .op e.reducer.name [e.path.query e.implicit]

/-- The value of an entry as a term. -/
def term (e : ObjectEntry) : Term :=
  match e.reducer? with
  | some r => .reduce r e.path.term
  | none => e.path.term

/-- A reduction that is written folds whatever it can, one that is not as little as it must. -/
def mode (e : ObjectEntry) : Mode := if e.reducer?.isSome then .eager else .reluctant

section
variable (N : Naming)

/-- The value of an entry as the bottom-up pass leaves it. -/
def measured (e : ObjectEntry) : Node := (Node.reduce {} e.reducer e.mode (e.path.node N .spanning)).settleExtent

/-- The value of an entry in a finished tree. -/
def node (e : ObjectEntry) : Node :=
  .reduce { Node.reducedExtent e.mode (e.path.node N .spanning) with
    bound := e.path.stars N
    allBound := e.path.stars N } e.reducer e.mode (e.path.node N .taking)

end

variable {N : Naming}

/-- The value of an entry resolves to its term. -/
theorem ofQuery_query (e : ObjectEntry) : Term.ofQuery e.query = .ok e.term := by
  obtain ⟨key, reducer?, path, implicit⟩ := e
  cases reducer? with
  | some r => exact Term.ofQuery_reduce (path.ofQuery_query implicit) r
  | none => exact path.ofQuery_query implicit

/-- The stars of an entry stand as keys. -/
theorem starsKeyed_term (e : ObjectEntry) : e.term.starsKeyed false = true := by
  obtain ⟨key, reducer?, path, implicit⟩ := e
  cases reducer? <;> exact path.starsKeyed_term false

/-- An entry names no variable. -/
theorem names_term (e : ObjectEntry) : e.term.names = [] := by
  obtain ⟨key, reducer?, path, implicit⟩ := e
  cases reducer? <;> exact path.names_term

/-- What the value of an entry reads as. -/
theorem of_reads {e : ObjectEntry} {n : Node} (h : Node.Reads N e.term n) :
    (Node.gathered e.term n).withExtents = e.measured N ∧ e.path.Named N := by
  obtain ⟨key, reducer?, path, implicit⟩ := e
  cases reducer? with
  | some r =>
    cases h with
    | reduce harg =>
      obtain ⟨rfl, hnamed⟩ := StarPath.of_reads harg
      have hgathers : (term ⟨key, some r, path, implicit⟩).gathers = true := rfl
      refine ⟨?_, hnamed⟩
      rw [Node.gathered, hgathers, if_pos rfl, Node.withExtents, StarPath.withExtents_node]
      rfl
  | none =>
    obtain ⟨rfl, hnamed⟩ := StarPath.of_reads h
    have hgathers : (term ⟨key, none, path, implicit⟩).gathers = false := by cases path <;> rfl
    refine ⟨?_, hnamed⟩
    rw [Node.gathered, hgathers, if_neg Bool.false_ne_true, Node.withExtents, StarPath.withExtents_node]
    rfl

/-- The lookups of variables in the value of an entry are the stars of its path. -/
theorem filters_node (e : ObjectEntry) : (e.node N).filters = e.path.stops.map (StarPath.starFilter N) := by
  rw [Node.filters_eq]
  simp [node, Node.children, Node.filterVar?, StarPath.filters_node]

end ObjectEntry

/-! ## The tree of an object literal -/

namespace Derivation

variable {q : Query} {D : Derivation q} {entries : List ObjectEntry}
  (hterm : D.term = Term.literal ObjectEntry.key ObjectEntry.term entries)

include hterm

/-- An object literal of such entries names no variable. -/
theorem names_object : D.term.names = [] := by
  rw [hterm]
  exact Term.names_literal fun e _ => e.names_term

/-- The root of an object literal is the literal of what its entries are after the bottom-up pass. -/
theorem root_object :
    D.root = Node.measuredLiteral D.naming ObjectEntry.key (ObjectEntry.measured D.naming) entries ∧
      ∀ e ∈ entries, D.naming.LiteralNamed e.key ∧ e.path.Named D.naming := by
  have hreads := D.reads
  rw [hterm] at hreads
  obtain ⟨hroot, hentries⟩ := Node.of_reads_literal hreads fun e _ x hx => (ObjectEntry.of_reads hx).1
  refine ⟨hroot, fun e he => ?_⟩
  obtain ⟨hkey, x, hx⟩ := hentries e he
  exact ⟨hkey, (ObjectEntry.of_reads hx).2⟩

/-- The key of an entry is no star of an entry. -/
theorem literalVar_not_mem_stars {e e' : ObjectEntry} (he : e ∈ entries) (he' : e' ∈ entries) :
    ¬ D.naming.literalVar e.key ∈ e'.path.stars D.naming := by
  obtain ⟨-, hnamed⟩ := root_object hterm
  intro hmem
  obtain ⟨p, hp, heq⟩ := StarPath.mem_stars.1 hmem
  have hstar := (hnamed e' he').2 p hp
  rw [heq] at hstar
  exact absurd (Naming.NamedAfter.inj (hnamed e he).1 hstar).1 (by decide)

/-- The key of an entry depends on nothing else. -/
theorem of_literalVar_subset {e : ObjectEntry} (he : e ∈ entries) :
    D.dependencies.of (D.naming.literalVar e.key) ⊆ .single (D.naming.literalVar e.key) := by
  obtain ⟨hroot, -⟩ := root_object hterm
  have hmem : Node.measuredFilter (.const {} e.key) (D.naming.literalVar e.key) ∈ D.root.postorder := by
    rw [hroot]
    exact (Node.mem_postorder_literal he).2
  have hvars : ∀ v, v ∈ (Node.measuredFilter (.const {} e.key) (D.naming.literalVar e.key)).info.vars ↔
      v = D.naming.literalVar e.key := by
    intro v
    rw [Node.mem_vars_measuredFilter]
    exact or_iff_right (VarSet.not_mem_empty v)
  have hdrawn : Node.Drawn (.const {} e.key) := .joint (n := .const {} e.key) rfl fun c hc => absurd hc List.not_mem_nil
  intro v hv
  rw [VarSet.mem_single, ← hvars]
  exact D.dependent (names_object hterm) _ hmem hdrawn.keySet.draw _ ((hvars _).2 rfl) v hv

/-- The passes from the root down let the value of an entry loop over the stars of its path, and take nothing from around it. -/
theorem annotated_entry {e : ObjectEntry} (he : e ∈ entries) :
    Node.annotated D.dependencies (e.measured D.naming) (∅ ∪ .single (D.naming.literalVar e.key))
        (∅ ∪ .single (D.naming.literalVar e.key))
        [⟨.single (D.naming.literalVar e.key), D.dependencies.ofSet (.single (D.naming.literalVar e.key))⟩] =
      e.node D.naming := by
  obtain ⟨hroot, -⟩ := root_object hterm
  have hmem : e.path.node D.naming .spanning ∈ D.root.postorder := by
    rw [hroot]
    refine Node.mem_postorder_trans ?_ (Node.mem_postorder_literal he).1
    exact Node.mem_postorder_of_mem_children List.mem_cons_self (Node.self_mem_postorder _)
  have hstars := D.ofSet_stars_subset_of_mem (names_object hterm) hmem
  have hout : ∀ v ∈ e.path.stars D.naming, ¬ v ∈ ∅ ∪ VarSet.single (D.naming.literalVar e.key) := by
    intro v hv hin
    rw [VarSet.empty_union, VarSet.mem_single] at hin
    exact literalVar_not_mem_stars hterm he he (hin ▸ hv)
  have hkey : ∀ v ∈ D.dependencies.ofSet (.single (D.naming.literalVar e.key)),
      ¬ v ∈ D.dependencies.ofSet (e.path.stars D.naming) := by
    intro v hv hv'
    obtain ⟨u, hu, hv⟩ := VarSet.mem_unions_map.1 hv
    rw [VarSet.mem_toList, VarSet.mem_single] at hu
    subst hu
    exact hout v (hstars v hv') (VarSet.mem_union.2 (.inr (of_literalVar_subset hterm he v hv)))
  rw [ObjectEntry.measured, StarPath.annotated_reduce D.dependencies e.reducer e.mode hout,
    Node.needed_eq_empty_of_disjoint (fun v hv => hout v (hstars v hv)) hout (List.forall_mem_singleton.2 hkey)]
  rfl

/-- The tree of an object literal, of which nothing but what must indexes the result, is the literal. -/
theorem literal_tree : Node.Literal D.naming ObjectEntry.key (ObjectEntry.node D.naming) entries (D.tree .minimal) := by
  obtain ⟨hroot, -⟩ := root_object hterm
  have hindex : Output.minimal.indexOf D.root = ∅ := by
    rw [Output.indexOf, hroot]
    exact Node.mind_measuredLiteral fun _ _ => rfl
  rw [D.tree_of_indexOf hindex, hroot]
  exact Node.annotated_literal (fun _ _ => VarSet.not_mem_empty _) (fun e he => of_literalVar_subset hterm he)
    (fun e he => annotated_entry hterm he) fun _ _ v hv => absurd hv (VarSet.not_mem_empty v)

/-- The lookups of variables are the stars of the entries, and the lookups of their keys. -/
theorem mem_filters_object {n : Node} : n ∈ (D.tree .minimal).filters ↔
    ∃ e ∈ entries, (∃ p ∈ e.path.stops, p.starFilter D.naming = n) ∨ Node.literalFilter D.naming e.key = n := by
  rw [(literal_tree hterm).filters_eq]
  simp [ObjectEntry.filters_node, eq_comm]

/-- No variable of an object literal is looked up in two ways. -/
theorem filters_object_unique : ∀ m ∈ (D.tree .minimal).filters, ∀ n ∈ (D.tree .minimal).filters,
    m.filterVar? = n.filterVar? → m = n := by
  obtain ⟨-, hnamed⟩ := root_object hterm
  intro m hm n hn hvar
  -- stars and keys are named with different tags, so only lookups of one kind can share a variable
  obtain ⟨e, he, ⟨p, hp, rfl⟩ | rfl⟩ := (mem_filters_object hterm).1 hm <;>
    obtain ⟨e', he', ⟨p', hp', rfl⟩ | rfl⟩ := (mem_filters_object hterm).1 hn
  · rw [StarPath.starVar_inj ((hnamed e he).2 p hp) ((hnamed e' he').2 p' hp') (Option.some.inj hvar)]
  · exact absurd (StarPath.mem_stars.2 ⟨p, hp, Option.some.inj hvar⟩) (literalVar_not_mem_stars hterm he' he)
  · exact absurd (StarPath.mem_stars.2 ⟨p', hp', (Option.some.inj hvar).symm⟩) (literalVar_not_mem_stars hterm he he')
  · rw [(hnamed e he).1.inj (hnamed e' he').1 (Option.some.inj hvar)]

variable {options : Options} (hminimal : options.output = .minimal)

include hminimal

/-- The generators are the stars of the entries, and the generators of their keys. -/
theorem mem_generators_object {g : Generator} : g ∈ (D.setting options).generators ↔
    ∃ e ∈ entries, (∃ p ∈ e.path.stops, p.generator D.naming = g) ∨ Node.literalGenerator D.naming e.key = g := by
  rw [setting, Catalogue.generators, Catalogue.ofNode, ← Node.filters, hminimal, List.mem_filterMap]
  constructor
  · rintro ⟨n, hn, hg⟩
    obtain ⟨e, he, ⟨p, hp, rfl⟩ | rfl⟩ := (mem_filters_object hterm).1 (Node.mem_distinct.1 hn)
    · exact ⟨e, he, .inl ⟨p, hp, Option.some.inj hg⟩⟩
    · exact ⟨e, he, .inr (Option.some.inj hg)⟩
  · rintro ⟨e, he, ⟨p, hp, rfl⟩ | rfl⟩
    · exact ⟨_, Node.mem_distinct.2 ((mem_filters_object hterm).2 ⟨e, he, .inl ⟨p, hp, rfl⟩⟩), rfl⟩
    · exact ⟨_, Node.mem_distinct.2 ((mem_filters_object hterm).2 ⟨e, he, .inr rfl⟩), rfl⟩

/-- The generators have variables of their own. -/
theorem nodup_vars_object : ((D.setting options).generators.map Generator.var).Nodup := by
  rw [setting, hminimal]
  exact Catalogue.nodup_vars _ (filters_object_unique hterm)

/-- The stars of an entry are all generators of their variables. -/
theorem filter_generators_object {e : ObjectEntry} (he : e ∈ entries) :
    ((D.setting options).generators.filter (fun g => decide (g.var ∈ e.path.stars D.naming))).Perm
      (e.path.generators D.naming) := by
  obtain ⟨-, hnamed⟩ := root_object hterm
  rw [setting, hminimal]
  exact (hnamed e he).2.filter_catalogue (filters_object_unique hterm) fun p hp =>
    (mem_filters_object hterm).2 ⟨e, he, .inl ⟨p, hp, rfl⟩⟩

/-- The sources of the generators are paths or sets of constants, so that an object literal has a program. -/
theorem exists_compiles_object : ∃ c, compile q options = .ok c ∧ Compiles q options c D := by
  have hsources : ∀ g ∈ (D.setting options).generators, Program.readsOf g.source = [] := by
    intro g hg
    obtain ⟨e, he, ⟨p, hp, rfl⟩ | rfl⟩ := (mem_generators_object hterm hminimal).1 hg
    · exact p.readsOf_node _
    · rfl
  exact D.exists_compiles_of_sources hsources

end Derivation

/-- The program of an object literal gives the record of what the reductions over its paths give. -/
theorem Compiles.run_object {q : Query} {options : Options} {c : Compiled} {D : Derivation q} (hD : Compiles q options c D)
    {entries : List ObjectEntry} (hterm : D.term = Term.literal ObjectEntry.key ObjectEntry.term entries)
    (hminimal : options.output = .minimal) (input : Json) (functions : Functions) :
    c.program.run input functions =
      some (Json.record ObjectEntry.key (fun e => e.reducer.fold (e.path.values input)) entries) := by
  obtain ⟨-, hnamed⟩ := Derivation.root_object hterm
  have hdiagnostics := hD.diagnostics_eq_nil (Derivation.names_object hterm)
  have hdepth : c.program.slots ≤ c.program.slots + entries.length + 1 := by omega
  have hsteady : Direct.SteadyIn ⟨input, functions, D.naming.table⟩ (D.setting options).generators ∅ :=
    ⟨fun _ _ hv => absurd hv (VarSet.not_mem_empty _), fun v hv => absurd hv (VarSet.not_mem_empty v),
      Derivation.nodup_vars_object hterm hminimal⟩
  have hfits : Direct.Fits ⟨input, functions, D.naming.table⟩ (D.setting options).generators ∅ Binding.empty :=
    fun _ _ hv => absurd hv (VarSet.not_mem_empty _)
  rw [hD.run_eq hdiagnostics input functions hdepth, hminimal]
  refine (Derivation.literal_tree hterm).value_eq hsteady hfits rfl (fun e he => ?_) (by omega)
  exact {
    named := (hnamed e he).1
    generator := (Derivation.mem_generators_object hterm hminimal).2 ⟨e, he, .inr rfl⟩
    fresh := VarSet.not_mem_empty _
    gathers := rfl
    free := fun v hv => hv
    value := fun depth => (hnamed e he).2.aggregateWith_fold rfl (Derivation.filter_generators_object hterm hminimal he) rfl rfl
      e.reducer e.mode Binding.empty }

/-- What the value of an entry is on its own. -/
theorem ObjectEntry.exists_compiles_alone (e : ObjectEntry) (options : Options) :
    ∃ c, compile e.alone options = .ok c ∧
      ∀ input functions, c.program.run input functions = e.reducer.fold (e.path.values input) := by
  obtain ⟨D, hterm⟩ := exists_derivation_reduction e.path e.reducer e.implicit
  obtain ⟨c, hc, hD⟩ := Derivation.exists_compiles_reduction hterm options
  exact ⟨c, hc, hD.run_reduction hterm⟩

/-- An object literal joins the values of its entries. If its values are reductions over star paths, or star paths alone, of which
one value is chosen, and nothing but what must indexes the result, then on every input the result is the record, from left to right,
of what the values of the entries are on their own. -/
theorem object_literals_join_entries (entries : List ObjectEntry) (options : Options) (hminimal : options.output = .minimal) :
    ∃ c, compile (.object (entries.map fun e => (.const e.key, e.query))) options = .ok c ∧
      ∃ alone : ObjectEntry → Compiled, (∀ e, compile e.alone options = .ok (alone e)) ∧
        ∀ input functions, c.program.run input functions =
          some (Json.record ObjectEntry.key (fun e => (alone e).program.run input functions) entries) := by
  obtain ⟨D, hterm⟩ := exists_derivation (Term.ofQuery_object fun e (_ : e ∈ entries) => e.ofQuery_query)
    (Term.starsKeyed_literal fun e _ => e.starsKeyed_term)
  obtain ⟨c, hc, hD⟩ := Derivation.exists_compiles_object hterm hminimal
  choose alone hcompile hrun using fun e : ObjectEntry => e.exists_compiles_alone options
  refine ⟨c, hc, alone, hcompile, fun input functions => ?_⟩
  rw [hD.run_object hterm hminimal]
  simp only [hrun]

/-- What all takings are worth. -/
def takingWorths : StarPath := .append .input [.name ⟨"takings", by decide⟩, .star, .name ⟨"worth", by decide⟩]

/-- The total of the takings, their number under a key that is a number, and the worth of one under the text of that key. -/
def takingSummary : List ObjectEntry :=
  [⟨.str "total", some ⟨.sum, false⟩, takingWorths, true⟩, ⟨Json.ofInt 7, some ⟨.count, false⟩, takingWorths, true⟩,
    ⟨.str "7", none, takingWorths, false⟩]

/-- The worth of the last of two takings stands where the number of takings was. -/
theorem object_literals_join_entries_takings :
    Options.output {} = .minimal ∧
      ∃ c, compile (.object (takingSummary.map fun e => (.const e.key, e.query))) {} = .ok c ∧
        c.program.run (.obj [("takings", .arr [.obj [("worth", Json.ofInt 3)], .obj [("worth", Json.ofInt 9)]])]) Functions.none =
          some (.obj [("total", Json.ofInt 12), ("7", Json.ofInt 9)]) := by
  obtain ⟨c, hc, alone, halone, hrun⟩ := object_literals_join_entries takingSummary {} rfl
  have hvalue : ∀ e input functions, (alone e).program.run input functions = e.reducer.fold (e.path.values input) := by
    intro e
    obtain ⟨c, hc, hrun⟩ := e.exists_compiles_alone {}
    rwa [Except.ok.inj ((halone e).symm.trans hc)]
  refine ⟨rfl, c, hc, ?_⟩
  rw [hrun]
  simp only [hvalue]
  rfl

end StarQuery
