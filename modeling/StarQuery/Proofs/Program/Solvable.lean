import StarQuery.Proofs.Plan.Schedule
import StarQuery.Proofs.Program.Warnings
import StarQuery.Proofs.Scope.Supplied

/-!
# Solvable catalogues

A query is solvable if every variable that occurs in it has a generator, and the generators can be put into an order in which
each has what it needs from those before it. Then every nest for variables of the query can be planned and binds its variables
(`Solvable.nest_solved`). What an aggregate takes from around it or loops over occurs in the query
(`Derivation.mem_vars_of_mem_loops`), so nothing is reported on it (`Solvable.blockReports_eq_nil`).
-/

namespace StarQuery

namespace Node

variable {d : Dependencies} {outB outF : VarSet} {path : List Grouping}

/-! ## What is taken from around occurs in the tree -/

/-- Whatever the variables of a tree depend on occurs in the tree. -/
theorem Measured.dependencies_subset {root : Node} (h : Measured root) (t : NameTable) {v : Var} (hv : v ∈ root.info.vars) :
    (root.dependencies t).of v ⊆ root.info.vars := by
  refine Dependencies.of_ofDirect_subset (fun u _ w hw => ?_) hv
  obtain ⟨i, base, j, hmem, hdims⟩ := mem_directDependences hw
  have hbase : base ∈ root.postorder := mem_postorder_of_part hmem (mem_children_get.2 (.inl rfl))
  exact h.vars_subset hbase w ((h.mem_postorder hbase).dims_subset_vars w hdims)

/-- What an update needs is in any set that holds its key, what its parts take from around them, and all that its members
depend on. -/
theorem needed_update_subset {vars base value filter : VarSet} {u : Var} (hdep : ∀ w ∈ vars, d.of w ⊆ vars)
    (hpath : pathKeys path ⊆ vars) (hkey : VarSet.single u ⊆ vars) (hbase : base ⊆ vars) (hvalue : value ⊆ vars)
    (hfilter : filter ⊆ vars) :
    needed d (.single u \ outB) (.unions [base, .single u, value, filter]) outF path ⊆ vars := by
  have hbound : ∀ w ∈ VarSet.single u \ outB, d.of w ⊆ vars := fun w hw => hdep w (hkey w (VarSet.mem_sdiff.1 hw).1)
  intro v hv
  rcases mem_of_mem_needed hbound hv with hv | hv | hv
  · exact hv
  · simp only [VarSet.mem_unions, List.mem_cons, List.not_mem_nil, or_false, exists_eq_or_imp, exists_eq_left] at hv
    rcases hv with hv | hv | hv | hv
    · exact hbase v hv
    · exact hkey v hv
    · exact hvalue v hv
    · exact hfilter v hv
  · exact hpath v hv

/-- A set that holds the variables of a node, the keys of the groupings around it and all that its members depend on holds what
the node takes from around it. -/
theorem Measured.free_subset_closed {n : Node} (h : Measured n) {vars : VarSet} (hdep : ∀ w ∈ vars, d.of w ⊆ vars)
    (hn : n.info.vars ⊆ vars) (hpath : pathKeys path ⊆ vars) : (annotated d n outB outF path).info.free ⊆ vars := by
  induction h generalizing outB outF path with
  | var w => exact hn
  | @joint m hjoint _ ih =>
    intro v hv
    rw [(annotated_joint d outB outF path ((isJoint_settleExtent m).trans hjoint)).2.2.2.2, children_settleExtent,
      VarSet.mem_toList, VarSet.mem_unions_map] at hv
    obtain ⟨c, hc, hv⟩ := hv
    exact ih c hc (fun w hw => hn w (vars_settleExtent hc hw)) hpath v hv
  | @reduce _ _ arg harg ih | @scan _ _ arg harg ih =>
    have hbound : ∀ w ∈ arg.info.dims \ outB, d.of w ⊆ vars := fun w hw =>
      hdep w (hn w (harg.dims_subset_vars w (VarSet.mem_sdiff.1 hw).1))
    intro v hv
    simp only [annotated_reduce, annotated_scan] at hv
    rcases mem_of_mem_needed hbound hv with hv | hv | hv
    · exact hv
    · exact ih hn hpath v hv
    · exact hpath v hv
  | @named base value u _ _ ihbase ihvalue =>
    have hkey : VarSet.single u ⊆ vars := fun w hw => hn w (vars_settleExtent key_mem_children hw)
    have hbase : base.info.vars ⊆ vars := fun w hw => hn w (vars_settleExtent base_mem_children hw)
    have hvalue : value.info.vars ⊆ vars := fun w hw => hn w (vars_settleExtent value_mem_children hw)
    rw [annotated_named]
    exact needed_update_subset hdep hpath hkey (ihbase hbase hpath) (ihvalue hvalue hpath) fun v hv =>
      absurd hv (VarSet.not_mem_empty v)
  | @keyed base body value u _ _ _ _ ihbase ihbody ihvalue =>
    have hkey : VarSet.single u ⊆ vars := fun w hw => hn w (vars_settleExtent key_mem_children hw)
    have hbase : base.info.vars ⊆ vars := fun w hw => hn w (vars_settleExtent base_mem_children hw)
    have hvalue : value.info.vars ⊆ vars := fun w hw => hn w (vars_settleExtent value_mem_children hw)
    have hbody : body.info.vars ⊆ vars := fun w hw =>
      hn w (vars_settleExtent filter_mem_children (mem_vars_measuredFilter.2 (.inl hw)))
    rw [annotated_keyed]
    refine needed_update_subset hdep hpath hkey (ihbase hbase hpath) (ihvalue hvalue fun w hw => ?_) fun v hv => ?_
    · exact (mem_pathKeys_append.1 hw).elim (hpath w) (hkey w)
    · -- the filter looks the key up in the set of what the key is computed from
      rw [annotated_filter] at hv
      exact ihbody hbody hpath v (VarSet.mem_sdiff.1 hv).1

end Node

namespace Derivation

variable {q : Query} (D : Derivation q) (options : Options)

/-- What an aggregate takes from around it or loops over occurs in the query. -/
theorem mem_vars_of_mem_loops {m : Node} (hm : m ∈ (D.tree options.output).postorder) (hg : m.gathers = true) {v : Var}
    (hv : v ∈ m.info.free ∪ m.info.bound) : v ∈ D.root.info.vars := by
  rcases Node.mem_closed hm with hm | rfl | rfl | rfl | ⟨w, -, rfl⟩
  · cases D.measured.mem_annotated_root (D.mind_subset options.output) hm with
    | @inside n outB outF path hn _ hpath =>
      have hsub := D.measured.vars_subset hn
      have hmeasured := D.measured.mem_postorder hn
      rcases VarSet.mem_union.1 hv with hv | hv
      · refine hmeasured.free_subset_closed (fun w => D.measured.dependencies_subset D.naming.table) hsub (fun w hw => ?_) v hv
        obtain ⟨g, hg, hw⟩ := VarSet.mem_unions_map.1 hw
        exact hpath g hg w hw
      · exact hsub v (hmeasured.bound_subset hv)
    | key => cases hg
    | filter => cases hg
  · -- the grouping around the root takes nothing and loops over what the result is indexed by
    rcases VarSet.mem_union.1 hv with hv | hv
    · exact absurd hv (VarSet.not_mem_empty v)
    · exact Output.indexOf_subset_vars D.measured options.output v hv
  all_goals cases hg

/-- A closed tree takes nothing from around it. -/
theorem free_tree : (D.tree options.output).info.free ⊆ ∅ := by
  intro v hv
  unfold tree Node.closed at hv
  split at hv
  · rename_i hempty
    rw [VarSet.isEmpty_iff.1 hempty] at hv
    have hmind := D.mind_subset options.output
    rw [VarSet.isEmpty_iff.1 hempty] at hmind
    exact (D.measured.free_subset hv).elim id (hmind v)
  · exact hv

/-- Every variable of a query has a generator, and the generators can be put in order. -/
structure Solvable : Prop where
  generated : ∀ v ∈ D.root.info.vars, ∃ g ∈ (D.setting options).generators, g.var = v
  ordered : ∃ order, Generator.Ordered ∅ order ∧ ∀ g, g ∈ (D.setting options).generators ↔ g ∈ order

namespace Solvable

variable {D options} (h : D.Solvable options)
include h

/-- Every nest for variables of the query can be planned, and its plan binds the variables. -/
theorem nest_solved {vars : VarSet} (hvars : vars ⊆ D.root.info.vars) :
    Program.planReports (D.setting options) (Program.nestPlan (D.setting options) vars) = [] ∧
      vars ⊆ (Program.nestPlan (D.setting options) vars).bound := by
  obtain ⟨order, horder, hmem⟩ := h.ordered
  obtain ⟨hunsolved, hbound⟩ := Plan.solved_of_ordered horder hmem
    (Generator.closed_closure (D.setting options).generators vars)
  constructor
  · rw [Program.planReports, List.append_eq_nil_iff, List.flatMap_eq_nil_iff, List.map_eq_nil_iff]
    refine ⟨fun l hl => ?_, hunsolved⟩
    have hsource := Catalogue.source_mem_postorder (Plan.mem_levels_ofGenerators hl).1
    exact D.measured.exprReports_closed (D.mind_subset options.output) hsource (Plan.needs_subset_rounds hl)
  · intro v hv
    obtain ⟨g, hg, rfl⟩ := h.generated v (hvars v hv)
    exact hbound g hg (Generator.subset_closure _ _ _ hv)

/-- The variables of a nest are bound in its body. -/
theorem subset_nestEnv {vars : VarSet} (hvars : vars ⊆ D.root.info.vars) :
    vars ⊆ Program.nestEnv (D.setting options) vars := by
  unfold Program.nestEnv
  split
  · rename_i hempty
    intro v hv
    rwa [hempty] at hv
  · split
    · exact (h.nest_solved hvars).2
    · exact fun _ hv => hv

/-- Nothing is reported on a nest in whose body nothing is reported. -/
theorem nestReports_eq_nil {vars : VarSet} (hvars : vars ⊆ D.root.info.vars) :
    Program.nestReports (D.setting options) vars [] = [] := by
  rw [Program.nestReports, List.append_nil]
  split
  · rfl
  · exact (h.nest_solved hvars).1

/-- Nothing is reported on the aggregates of a solvable query. -/
theorem blockReports_eq_nil {m : Node} (hm : m ∈ (D.tree options.output).postorder) (hg : m.gathers = true) (slot : Nat) :
    Program.blockReports (D.setting options) slot m = [] := by
  have hmind := D.mind_subset options.output
  have hsupplied := D.measured.supplied_closed hmind hm
  have hvars := fun v => D.mem_vars_of_mem_loops options (v := v) hm hg
  have hfree : m.info.free ⊆ D.root.info.vars := fun v hv => hvars v (VarSet.mem_union.2 (.inl hv))
  have hparts : ∀ {vars : VarSet}, vars ⊆ D.root.info.vars → ∀ c ∈ m.postorder, c.info.free ⊆ vars →
      Program.exprReports (D.setting options) (Program.nestEnv (D.setting options) vars) c = [] := by
    intro vars hsub c hc hcfree
    refine D.measured.exprReports_closed hmind (Node.mem_postorder_trans hc hm) fun v hv => ?_
    exact h.subset_nestEnv hsub v (hcfree v hv)
  have hfirst : Program.firstReports (D.setting options) (Program.nestEnv (D.setting options) m.info.free) m = [] :=
    Program.firstReports_eq_nil fun c hc =>
      hparts hfree c (Program.mem_postorder_of_mem_firstNodes hc) (hsupplied.first c hc)
  have haction : Program.actionReports (D.setting options)
      (Program.nestEnv (D.setting options) (m.info.free ∪ m.info.bound)) m = [] :=
    Program.actionReports_eq_nil fun c hc =>
      hparts hvars c (Program.mem_postorder_of_mem_actionNodes hc) (hsupplied.action c hc)
  rw [Program.blockReports, Program.warningReports, if_pos (D.loopsOf_tree options hm hg), hfirst, haction,
    h.nestReports_eq_nil hfree, h.nestReports_eq_nil hvars]
  split <;> rfl

end Solvable

end Derivation

end StarQuery
