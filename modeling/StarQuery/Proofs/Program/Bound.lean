import StarQuery.Proofs.Program.Silent
import StarQuery.Proofs.Program.Standing

/-!
# Programs of solvable queries

Nothing is reported on a solvable query. In its program, moreover, the keys by which a statement writes are bound where the
statement stands: a plan binds all variables of the nest that it is made for.
-/

namespace StarQuery

/-- The variables by whose values a statement writes. -/
def Stmt.keys : Stmt → List Var
  | .mark _ keys | .start _ keys _ _ | .step _ keys _ => keys
  | _ => []

/-- The keys of a statement are bound where it stands. -/
def Stmt.KeysBound (scope : VarSet) (st : Stmt) : Prop := ∀ v ∈ st.keys, v ∈ scope

namespace Program

variable {s : Setting} {entries : List Entry}

/-- The loops, the tests and the projection of a nest write by keys that its plan has bound. -/
theorem nestIn_keysBound {vars : VarSet} (h : vars ⊆ (nestPlan s vars).bound) : NestIn s entries Stmt.KeysBound vars where
  loop _ _ _ _ _ _ _ _ hv := absurd hv List.not_mem_nil
  test _ _ _ _ _ _ _ _ hv := absurd hv List.not_mem_nil
  unsolved _ _ _ hv := absurd hv List.not_mem_nil
  project _ _ _ _ hv := absurd hv List.not_mem_nil
  mark _ v hv := h v hv

end Program

namespace Derivation

variable {q : Query} {D : Derivation q} {options : Options}

/-- Every variable of the tree before it is closed is one of the closed tree. -/
theorem vars_subset_tree (D : Derivation q) (output : Output) : D.root.info.vars ⊆ (D.tree output).info.vars := by
  intro v hv
  unfold tree Node.closed
  split
  · rw [Node.vars_annotated]
    exact hv
  · refine VarSet.mem_union.2 (.inl ?_)
    rw [Node.vars_annotated]
    exact hv

/-- The keys of the statements of a block are bound where they stand. -/
theorem Solvable.keysBound (h : D.Solvable options) {m : Node} (hm : m ∈ (D.tree options.output).postorder)
    (hg : m.gathers = true) {entries : List Program.Entry} {limit slot : Nat} {block : List Stmt}
    (hblock : Program.BlockOf (D.setting options) entries limit slot m block) : Stmt.EveryIn Stmt.KeysBound ∅ block := by
  have hloops : m.info.free ∪ m.info.bound ⊆ D.root.info.vars := fun v => D.mem_vars_of_mem_loops options hm hg
  have hfree : m.info.free ⊆ D.root.info.vars := fun v hv => hloops v (VarSet.mem_union.2 (.inl hv))
  refine hblock.everyIn (fun _ v hv => absurd hv List.not_mem_nil) (Program.nestIn_keysBound (h.nest_solved hfree).2)
    (Program.nestIn_keysBound (h.nest_solved hloops).2) ?_ ?_
  · intro x copy _ v hv
    exact h.subset_nestEnv hfree v hv
  · intro action _ v hv
    exact h.subset_nestEnv hloops v (VarSet.mem_union.2 (.inl hv))

end Derivation

/-- A query is solvable if every variable of its tree has a generator and its catalogue can be put in order. -/
theorem Compiles.solvable {q : Query} {options : Options} {c : Compiled} {D : Derivation q} (h : Compiles q options c D)
    (hgenerated : ∀ v ∈ c.tree.info.vars, ∃ g ∈ c.catalogue.generators c.table, g.var = v) {order : List Generator}
    (hperm : order.Perm (c.catalogue.generators c.table)) (horder : Generator.Ordered ∅ order) : D.Solvable options := by
  rw [h.catalogue, h.table] at hgenerated hperm
  rw [h.tree] at hgenerated
  refine ⟨fun v hv => hgenerated v (D.vars_subset_tree options.output v hv), order, horder, fun g => ?_⟩
  exact hperm.mem_iff.symm

/-- Solvable catalogues never lead to a report. Suppose that a query compiles, that every variable of its tree has a generator,
and that the generators can be listed in an order in which each needs variables of earlier ones only. Then nothing is reported,
the program holds no error and no undefined variable, and the keys of every statement that writes are bound where it stands. -/
theorem solvable_catalogues_report_nothing (q : Query) (options : Options) (c : Compiled) (hc : compile q options = .ok c)
    (hgenerated : ∀ v ∈ c.tree.info.vars, ∃ g ∈ c.catalogue.generators c.table, g.var = v)
    (hordered : ∃ order, order.Perm (c.catalogue.generators c.table) ∧ Generator.Ordered ∅ order) :
    c.diagnostics = [] ∧ (∀ text, ¬ .error text ∈ Stmt.listNested c.program.body) ∧
      (∀ name, ¬ .undefined name ∈ c.program.exprs) ∧
      ∀ x ∈ Stmt.listPlaced ∅ c.program.body, ∀ v ∈ x.2.keys, v ∈ x.1 := by
  obtain ⟨D, hD⟩ := compiles_of_ok hc
  obtain ⟨order, hperm, horder⟩ := hordered
  have hsolvable := hD.solvable hgenerated hperm horder
  obtain ⟨entries, hbuilt, -, hbody, -, -, hreports⟩ := hD.history
  have hblocks : entries.flatMap (Program.Entry.reports (D.setting options)) = [] := by
    rw [List.flatMap_eq_nil_iff]
    intro x hx
    obtain ⟨hmem, hg, -⟩ := hbuilt.forall_mem hx
    exact hsolvable.blockReports_eq_nil hmem hg x.slot
  have hroot : Program.exprReports (D.setting options) ∅ (D.tree options.output) = [] :=
    D.measured.exprReports_closed (D.mind_subset options.output) (Node.self_mem_postorder _) (D.free_tree options)
  have hnone : c.diagnostics = [] := by
    rw [hblocks, hroot, List.append_nil, List.perm_nil] at hreports
    exact hreports
  obtain ⟨herrors, hdefined⟩ := hD.silent hnone
  refine ⟨hnone, herrors, hdefined, ?_⟩
  have hkeys : Stmt.EveryIn Stmt.KeysBound ∅ c.program.body := by
    rw [hbody]
    refine Stmt.everyIn_flatMap fun x hx => ?_
    obtain ⟨hmem, hg, earlier, hblock⟩ := hbuilt.forall_mem hx
    exact hsolvable.keysBound hmem hg hblock
  exact hkeys

/-- The totals of all values below each key of a record. -/
def totalsBelow : Query := .group (.ident "*A") (.sum (.path "*A.**P"))

/-- The totals below each key compile; their variables have generators, which are listed in order. -/
theorem compile_totalsBelow : ∃ c, compile totalsBelow = .ok c ∧
    (∀ v ∈ c.tree.info.vars, ∃ g ∈ c.catalogue.generators c.table, g.var = v) ∧
    Generator.Ordered ∅ (c.catalogue.generators c.table) := by
  obtain ⟨c, hc, hgenerators⟩ := exists_compile_of_any (by decide +kernel : (compile totalsBelow).toOption.any (fun c =>
    decide ((∀ v ∈ c.tree.info.vars.toList, ∃ g ∈ c.catalogue.generators c.table, g.var = v) ∧
      Generator.Ordered ∅ (c.catalogue.generators c.table))) = true)
  exact ⟨c, hc, of_decide_eq_true hgenerators⟩

/-- The totals below each key name a star and a deep variable, and nothing is reported on them. -/
theorem solvable_catalogues_report_nothing_totalsBelow : ∃ c, compile totalsBelow = .ok c ∧
    (∀ v ∈ c.tree.info.vars, ∃ g ∈ c.catalogue.generators c.table, g.var = v) ∧
    (∃ order, order.Perm (c.catalogue.generators c.table) ∧ Generator.Ordered ∅ order) ∧
    c.diagnostics = [] ∧ (∀ text, ¬ .error text ∈ Stmt.listNested c.program.body) ∧
    (∀ name, ¬ .undefined name ∈ c.program.exprs) ∧
    ∀ x ∈ Stmt.listPlaced ∅ c.program.body, ∀ v ∈ x.2.keys, v ∈ x.1 := by
  obtain ⟨c, hc, hgenerated, hordered⟩ := compile_totalsBelow
  have horder : ∃ order, order.Perm (c.catalogue.generators c.table) ∧ Generator.Ordered ∅ order :=
    ⟨_, List.Perm.refl _, hordered⟩
  exact ⟨c, hc, hgenerated, horder, solvable_catalogues_report_nothing totalsBelow {} c hc hgenerated horder⟩

end StarQuery
