import StarQuery.Proofs.Direct.Root
import StarQuery.Proofs.Json.Paths
import StarQuery.Proofs.Path.Variable

/-!
# Deep variables

The result of a path that ends in a deep variable is grouped by the variable, which is bound to all paths of the value before it.
Each path gives the part that it leads to, so the rows of the grouping are the parts of the value, and the result is that value
again.
-/

namespace StarQuery

/-! ## The program of a path through a named variable -/

namespace Derivation

variable {q : Query} {D : Derivation q} {p : VarPath} (hterm : D.term = p.term)

include hterm

/-- The root of a path through a variable is its node, with the variable known. -/
theorem root_varPath : D.root = p.node D.naming .spanning ∧ p.name.Known D.naming := by
  have hreads := D.reads
  rw [hterm] at hreads
  obtain ⟨hnode, hknown⟩ := VarPath.of_reads hreads
  refine ⟨?_, hknown⟩
  rw [root, hnode, VarPath.withExtents_node]

/-- The variable of a path indexes its result. -/
theorem tree_varPath (output : Output) :
    D.tree output = (p.node D.naming .taking).groupedBy (.single (p.name.var D.naming)) := by
  obtain ⟨hroot, -⟩ := root_varPath hterm
  have hindex : output.indexOf D.root = .single (p.name.var D.naming) := by
    rw [hroot]
    cases output <;> rw [Output.indexOf, VarPath.info_node] <;> rfl
  rw [D.tree_of_indexOf_ne hindex (VarSet.single_ne_empty _), hroot, VarPath.annotated_node]

/-- A path through a variable has one generator. -/
theorem generators_varPath (options : Options) : (D.setting options).generators = [p.generator D.naming] := by
  rw [setting, Catalogue.generators, Catalogue.ofNode, ← Node.filters, tree_varPath hterm, Node.filters_groupedBy,
    VarPath.filters_node]
  rfl

/-- As the one generator needs nothing, every nest can be ordered. -/
theorem solvable_varPath (options : Options) : D.Solvable options := by
  obtain ⟨hroot, -⟩ := root_varPath hterm
  refine D.solvable_of_drawn options ?_ ?_
  · rw [hroot]
    exact p.drawn_node
  · have hindependent : Node.Independent D.root := by
      rw [hroot]
      exact p.independent_node
    exact hindependent.dependent D.naming.table

/-- A path through a variable needs no aggregate in a source, so that it has a program. -/
theorem exists_compiles_varPath (options : Options) : ∃ c, compile q options = .ok c ∧ Compiles q options c D := by
  have hsources : ∀ g ∈ (D.setting options).generators, Program.readsOf g.source = [] := by
    rw [generators_varPath hterm]
    intro g hg
    rw [List.mem_singleton.1 hg]
    exact p.readsOf_source
  exact D.exists_compiles_of_sources hsources

end Derivation

namespace VarPath

variable {N : Naming} {given : Given} {aggregate : Direct.Valuation} {p : VarPath}

/-- The variable of a path is bound to the choices that the value before it offers. -/
theorem nestBindings_eq (N : Naming) (p : VarPath) :
    Direct.nestBindings given (Direct.valueWith given aggregate) [p.generator N] (.single (p.name.var N)) =
      (((lookups p.before (some given.input)).map (Stmt.choices (given.table.isDeep (p.name.var N)))).getD []).map
        (Binding.empty.set (p.name.var N)) := by
  have hfilter : [p.generator N].filter (fun g => decide (g.var ∈ VarSet.single (p.name.var N))) = [p.generator N] :=
    List.filter_eq_self.2 fun g hg => List.mem_singleton.1 hg ▸ decide_eq_true (VarSet.mem_single.2 rfl)
  have hneeds : ∀ g ∈ [p.generator N], g.needs = ∅ := fun g hg => List.mem_singleton.1 hg ▸ p.needs_generator
  have hsource : (p.generator N).source = p.source .taking := rfl
  rw [Direct.nestBindings_free hfilter hneeds (List.nodup_singleton _), Direct.draws, Direct.offers, hsource, value_source]
  cases lookups p.before (some given.input) with
  | none => rfl
  | some t => exact List.map_eq_flatMap.symm

/-- The rows of a path that ends in a deep variable are the parts of the value before the variable. -/
theorem filterMap_row?_deep (hafter : p.after = []) (hdeep : given.table.isDeep (p.name.var N) = true) {t : Json}
    (ht : lookups p.before (some given.input) = some t) :
    (t.paths.map fun path => Binding.empty.set (p.name.var N) (.arr path)).filterMap
      (Direct.row? given (Direct.valueWith given aggregate) [Node.keyVar (p.name.var N)] (p.node N .taking)) = t.parts := by
  rw [List.filterMap_map, Json.parts]
  refine List.filterMap_congr fun path _ => ?_
  have htarget : Direct.target? given (Direct.valueWith given aggregate) (Binding.empty.set (p.name.var N) (.arr path))
      [Node.keyVar (p.name.var N)] = some (path.map Json.keyText) := by
    simp [Direct.target?, Node.keyVar, Direct.valueWith, Binding.set_self, Direct.keyParts, Node.asVar?, hdeep]
  rw [Function.comp_apply, Direct.row?, htarget, value_node, ht, hdeep, Binding.set_self, hafter]
  rfl

/-- The grouping by a deep variable puts the parts of the value before the variable together again. -/
theorem value_deep (hafter : p.after = []) (hdeep : given.table.isDeep (p.name.var N) = true) {t : Json}
    (ht : lookups p.before (some given.input) = some t) (hproper : t.proper = true) (depth : Nat) (b : Binding) :
    Direct.value given [p.generator N] (depth + 1) b ((p.node N .taking).groupedBy (.single (p.name.var N))) = some t := by
  have hkeys : (VarSet.single (p.name.var N)).toList.map Node.keyVar = [Node.keyVar (p.name.var N)] := rfl
  rw [Direct.value_groupedBy, hkeys, Direct.value, nestBindings_eq, ht, hdeep, Option.map_some, Option.getD_some,
    Stmt.choices, if_pos rfl, List.map_map]
  exact congrArg some ((congrArg Json.assemble (filterMap_row?_deep hafter hdeep ht)).trans (Json.assemble_parts hproper))

end VarPath

/-- The result of a path that ends in a deep variable is the value before the variable, on every input on which there is one. The
objects in this value have each of their names once, as objects do. -/
theorem deep_variables_reproduce_values (before : List PlainName) (x : VarName) (implicit : Bool) (options : Options)
    (hdeep : NameTable.isDeepName x.text = true) :
    ∃ c, compile (VarPath.query implicit ⟨before, x, []⟩) options = .ok c ∧
      ∀ input functions t, lookups before (some input) = some t → t.proper = true →
        c.program.run input functions = some t := by
  obtain ⟨D, hterm⟩ := exists_derivation (VarPath.ofQuery_query ⟨before, x, []⟩ implicit) (VarPath.starsKeyed_term _)
  obtain ⟨c, hc, hD⟩ := Derivation.exists_compiles_varPath hterm options
  obtain ⟨-, hknown⟩ := Derivation.root_varPath hterm
  have hdiagnostics := hD.diagnostics_eq_nil_of_solvable (Derivation.solvable_varPath hterm options)
  refine ⟨c, hc, fun input functions t ht hproper => ?_⟩
  have hvar : D.naming.table.isDeep (x.var D.naming) = true := hknown.isDeep.trans hdeep
  rw [hD.run_eq hdiagnostics input functions (Nat.le_succ c.program.slots), Derivation.tree_varPath hterm,
    Derivation.generators_varPath hterm]
  exact @VarPath.value_deep D.naming ⟨input, functions, D.naming.table⟩ ⟨before, x, []⟩ rfl hvar t ht hproper c.program.slots
    Binding.empty

/-- Settings with a list and a nested object. -/
def nestedSettings : Json :=
  .obj [("hosts", .arr [.str "north", .obj [("port", Json.ofInt 80)]]), ("retry", .obj [("limit", .null), ("wait", .obj [])])]

/-- Settings found under a name, repeated by the variable of their paths. -/
theorem deep_variables_reproduce_values_settings :
    NameTable.isDeepName "**P" = true ∧ nestedSettings.proper = true ∧
      ∃ c, compile (VarPath.query true ⟨[⟨"settings", by decide⟩], ⟨"**P", by decide⟩, []⟩) {} = .ok c ∧
        c.program.run (.obj [("settings", nestedSettings)]) Functions.none = some nestedSettings := by
  have hdeep : NameTable.isDeepName "**P" = true := by decide
  have hproper : nestedSettings.proper = true := by decide
  obtain ⟨c, hc, hrun⟩ :=
    deep_variables_reproduce_values [⟨"settings", by decide⟩] ⟨"**P", by decide⟩ true {} hdeep
  exact ⟨hdeep, hproper, c, hc, hrun _ Functions.none nestedSettings rfl hproper⟩

end StarQuery
