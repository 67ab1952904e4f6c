import StarQuery.Proofs.Machine.View
import StarQuery.Proofs.Naming.Rename
import StarQuery.Proofs.Program.Bound

/-!
# Renamed queries compile to the same program

A query and the query with its named variables renamed have the same tree, with the same numbers for variables, and tables
whose names correspond (`Derivation.rename`). The settings of the two are alike but for their texts, and so are the programs.
-/

namespace StarQuery

open Query (renamed)

/-- The shape of a program: comments are seen, but no text is read, nor the name of a variable. -/
def View.shape : View := ⟨true, false⟩

namespace Derivation

variable {q : Query} {r : String → String}

/-- A derivation of a query and one of the renamed query go the same way. -/
structure Renamed (r : String → String) (D : Derivation q) (D' : Derivation (q.rename r)) : Prop where
  node : D'.node = D.node
  naming : D.naming.Renamed q r D'.naming

/-- Resolving the renamed query follows resolving the query. -/
theorem follows (hr : q.Renames r) : Follows (Term.rename r) (Term.ofQuery q) (Term.ofQuery (q.rename r)) :=
  Term.ofQuery_rename q fun x hx hnamed => hr.named x (List.mem_filter.2 ⟨hx, hnamed⟩)

/-- Naming the renamed term of a query follows naming the term. -/
theorem namesAlike (hr : q.Renames r) {term : Term} (h : Term.ofQuery q = .ok term) :
    ((Node.ofTerm (term.rename r)).run.run {}).1 = ((Node.ofTerm term).run.run {}).1 ∧
      ((Node.ofTerm term).run.run {}).2.Renamed q r ((Node.ofTerm (term.rename r)).run.run {}).2 :=
  Node.ofTerm_rename hr term (fun _ hx => (mem_names_ofQuery h).1 hx) {} {}
    ⟨rfl, fun _ h => absurd h List.not_mem_nil, [], rfl, rfl, fun _ h => absurd h List.not_mem_nil⟩

/-- A query that has a derivation has one after a renaming, which goes the same way. -/
theorem rename (hr : q.Renames r) (D : Derivation q) : ∃ D' : Derivation (q.rename r), D.Renamed r D' := by
  have hfollows := follows hr
  rw [D.resolved] at hfollows
  cases hterm : Term.ofQuery (q.rename r) with
  | error e =>
    rw [hterm] at hfollows
    exact hfollows.elim
  | ok term =>
    rw [hterm] at hfollows
    have hrename : term = D.term.rename r := hfollows
    subst hrename
    obtain ⟨hnode, hnaming⟩ := namesAlike hr D.resolved
    rw [D.named] at hnode hnaming
    exact ⟨⟨_, D.node, ((Node.ofTerm (D.term.rename r)).run.run {}).2, hterm, Prod.ext hnode rfl⟩, rfl, hnaming⟩

/-- A renamed query has a derivation only if the query has one. -/
theorem of_rename (hr : q.Renames r) (D' : Derivation (q.rename r)) : ∃ D : Derivation q, D.Renamed r D' := by
  have hfollows := follows hr
  rw [D'.resolved] at hfollows
  cases hterm : Term.ofQuery q with
  | error e =>
    rw [hterm] at hfollows
    exact hfollows.elim
  | ok term =>
    rw [hterm] at hfollows
    have hrename : D'.term = term.rename r := hfollows
    obtain ⟨hnode, hnaming⟩ := namesAlike hr hterm
    rw [← hrename, D'.named] at hnode hnaming
    exact ⟨⟨term, D'.node, ((Node.ofTerm term).run.run {}).2, hterm, Prod.ext hnode.symm rfl⟩, rfl, hnaming⟩

namespace Renamed

variable {D : Derivation q} {D' : Derivation (q.rename r)}

theorem root_eq (h : D.Renamed r D') : D'.root = D.root := by rw [root, root, h.node]

/-- The variables of both depend on the same. -/
theorem dependencies_eq (h : D.Renamed r D') : D'.dependencies = D.dependencies := by
  rw [dependencies, dependencies, Node.dependencies, Node.dependencies, h.root_eq, h.naming.table, List.length_map]

/-- Both have the same annotated tree. -/
theorem tree_eq (h : D.Renamed r D') (output : Output) : D'.tree output = D.tree output := by
  rw [tree, tree, h.root_eq, h.dependencies_eq]

/-- Deep variables stay deep. -/
theorem isDeep_eq (h : D.Renamed r D') (hr : q.Renames r) (v : Var) :
    D'.naming.table.isDeep v = D.naming.table.isDeep v := by
  unfold NameTable.isDeep NameTable.name
  rw [h.naming.table, List.getElem?_map]
  cases hname : D.naming.table.names[v]? with
  | none => rfl
  | some x => exact hr.isDeepName_renamed (h.naming.names x (List.mem_of_getElem? hname))

/-- The settings of both are alike but for their texts. -/
theorem setting_alike (h : D.Renamed r D') (hr : q.Renames r) (options : Options) :
    Program.Setting.Alike View.shape (D'.setting options) (D.setting options) where
  names := by
    simp only [setting, h.naming.table, List.map_map]
    rfl
  deep v := h.isDeep_eq hr v
  generators := by
    simp only [setting, h.tree_eq, Catalogue.generators, List.map_filterMap]
    refine congrArg (List.filterMap · _) (funext fun filter => ?_)
    unfold Generator.ofFilter?
    cases filter.filterVar? <;> cases filter.filterSource? <;> rfl
  listing := rfl
  comments _ := rfl

end Renamed

/-- A query has one derivation only. -/
theorem unique (D E : Derivation q) : D = E := by
  obtain ⟨term, node, naming, hterm, hnode⟩ := D
  obtain ⟨term', node', naming', hterm', hnode'⟩ := E
  cases hterm.symm.trans hterm'
  cases hnode.symm.trans hnode'
  rfl

/-- A query with a derivation compiles if a program is generated from its tree. -/
theorem compiles_iff (D : Derivation q) (options : Options) : (∃ c, compile q options = .ok c) ↔
    (Program.generate (D.setting options) (D.tree options.output)).isSome = true := by
  rw [D.compile_eq]
  cases Program.generate (D.setting options) (D.tree options.output) with
  | none => simp
  | some x => simp

end Derivation

/-- The program of a compiled query has the names of its derivation. -/
theorem Compiles.program_table {q : Query} {options : Options} {c : Compiled} {D : Derivation q}
    (h : Compiles q options c D) : c.program.table = D.naming.table := by
  obtain ⟨_, -, -, -, -, htable, -⟩ := h.history
  exact htable

/-- Compiling a query and compiling the renamed query go the same way: both fail, or both give programs and diagnostics of the
same shape. -/
theorem Derivation.Renamed.generate_shape {q : Query} {r : String → String} {D : Derivation q} {D' : Derivation (q.rename r)}
    (h : D.Renamed r D') (hr : q.Renames r) (options : Options) :
    (Program.generate (D'.setting options) (D'.tree options.output)).map
        (fun x => (View.shape.program x.1, x.2.map View.shape.diagnostic)) =
      (Program.generate (D.setting options) (D.tree options.output)).map
        fun x => (View.shape.program x.1, x.2.map View.shape.diagnostic) := by
  rw [h.tree_eq]
  exact Program.generate_view (h.setting_alike hr options) _

/-- Renaming the named variables of a query does not change the query: the renamed query compiles if and only if the query
does, to the same tree and a program of the same shape, which differs in the names of variables and in texts only. The names of
its variables are the renamed ones, and it has the same result on every input. -/
theorem renamed_queries_compile_alike (q : Query) (r : String → String) (hr : q.Renames r) (options : Options) :
    ((∃ c, compile q options = .ok c) ↔ ∃ c', compile (q.rename r) options = .ok c') ∧
    ∀ c c', compile q options = .ok c → compile (q.rename r) options = .ok c' →
      c'.tree = c.tree ∧ View.shape.program c'.program = View.shape.program c.program ∧
      c'.program.table.names = c.program.table.names.map (renamed r) ∧
      c'.diagnostics.map Diagnostic.severity = c.diagnostics.map Diagnostic.severity ∧
      ∀ (input : Json) (functions : Functions),
        c'.program.run input functions = c.program.run input functions ∧ c'.run input functions = c.run input functions := by
  refine ⟨⟨fun ⟨c, hc⟩ => ?_, fun ⟨c', hc'⟩ => ?_⟩, fun c c' hc hc' => ?_⟩
  · obtain ⟨D, -⟩ := compiles_of_ok hc
    obtain ⟨D', hD'⟩ := D.rename hr
    have hshape := congrArg Option.isSome (hD'.generate_shape hr options)
    rw [Option.isSome_map, Option.isSome_map] at hshape
    rw [D'.compiles_iff, hshape, ← D.compiles_iff]
    exact ⟨c, hc⟩
  · obtain ⟨D', -⟩ := compiles_of_ok hc'
    obtain ⟨D, hD⟩ := D'.of_rename hr
    have hshape := congrArg Option.isSome (hD.generate_shape hr options)
    rw [Option.isSome_map, Option.isSome_map] at hshape
    rw [D.compiles_iff, ← hshape, ← D'.compiles_iff]
    exact ⟨c', hc'⟩
  · obtain ⟨D, hD⟩ := compiles_of_ok hc
    obtain ⟨D', hD'⟩ := compiles_of_ok hc'
    obtain ⟨E, hE⟩ := D.rename hr
    cases D'.unique E
    have hshape := hE.generate_shape hr options
    rw [hD.generated, hD'.generated] at hshape
    obtain ⟨hprogram, hdiagnostics⟩ := Prod.mk.inj (Option.some.inj hshape)
    have htable := hD.program_table
    have htable' := hD'.program_table
    have hdeep : ∀ v, c'.program.table.isDeep v = c.program.table.isDeep v := by
      rw [htable, htable']
      exact hE.isDeep_eq hr
    have hrun := fun input functions => Program.run_eq_of_view hprogram hdeep input functions
    refine ⟨?_, hprogram, ?_, ?_, fun input functions => ⟨hrun input functions, ?_⟩⟩
    · rw [hD.tree, hD'.tree, hE.tree_eq]
    · rw [htable, htable', hE.naming.table]
    · have hseverity := congrArg (List.map Diagnostic.severity) hdiagnostics
      rw [List.map_map, List.map_map] at hseverity
      exact hseverity
    · rw [Compiled.run, Compiled.run, hrun]

/-- The letters of two variables exchanged. -/
def exchanged (name : String) : String := if name = "*A" then "*P" else if name = "**P" then "**A" else name

/-- Exchanging the letters keeps the variables apart and the deep one deep. -/
theorem renames_exchanged : totalsBelow.Renames exchanged where
  named := by decide +kernel
  deep := by decide +kernel
  injective := by decide +kernel

/-- The totals below each key compile to the same program when their letters are exchanged. -/
theorem renamed_queries_compile_alike_totalsBelow : totalsBelow.Renames exchanged ∧
    totalsBelow.rename exchanged = .group (.ident "*P") (.sum (.path "*P.**A")) ∧
    ∃ c c', compile totalsBelow = .ok c ∧ compile (totalsBelow.rename exchanged) = .ok c' ∧
      c'.tree = c.tree ∧ View.shape.program c'.program = View.shape.program c.program ∧
      c'.program.table.names = c.program.table.names.map (renamed exchanged) ∧
      c'.diagnostics.map Diagnostic.severity = c.diagnostics.map Diagnostic.severity ∧
      ∀ (input : Json) (functions : Functions),
        c'.program.run input functions = c.program.run input functions ∧ c'.run input functions = c.run input functions := by
  obtain ⟨c, hc, -⟩ := compile_totalsBelow
  obtain ⟨hiff, halike⟩ := renamed_queries_compile_alike totalsBelow exchanged renames_exchanged {}
  obtain ⟨c', hc'⟩ := hiff.1 ⟨c, hc⟩
  exact ⟨renames_exchanged, by rfl, c, c', hc, hc', halike c c' hc hc'⟩

end StarQuery
