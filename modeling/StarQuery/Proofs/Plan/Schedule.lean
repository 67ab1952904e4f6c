import StarQuery.Proofs.Naming.Drawn
import StarQuery.Proofs.Naming.Range
import StarQuery.Proofs.Plan.Order

/-!
# The generators of a drawn tree can be put in order

In the order in which the passes from the root down finish the nodes, a source comes after the lookups in it, and the value of
a grouping after the filter that generates its key. What a node takes from around it are keys of groupings around it, or
variables that occur in it (`Drawn.free_subset`), and these are generated in it (`Drawn.exists_generator`). So in that order
every generator has what it needs from those before it (`Drawn.ordered_closed`).
-/

namespace StarQuery

namespace Node

open Generator

variable {d : Dependencies} {outB outF : VarSet} {path : List Grouping}

/-! ## What is taken from around -/

/-- Whatever the variables of a drawn part of a tree depend on occurs in the part. -/
def Dependent (d : Dependencies) (root : Node) : Prop :=
  ∀ m ∈ root.postorder, Drawn m → ∀ v ∈ m.info.vars, d.of v ⊆ m.info.vars

/-- The variables of a part depend on variables that occur in the part. -/
theorem Dependent.part {n c : Node} (h : Dependent d n.settleExtent) (hc : c ∈ n.children) : Dependent d c := by
  intro m hm
  refine h m (mem_postorder_of_mem_children ?_ hm)
  rwa [children_settleExtent]

/-- The keys of the groupings of a path. -/
def pathKeys (path : List Grouping) : VarSet := .unions (path.map (·.keys))

/-- A further grouping adds its keys. -/
theorem mem_pathKeys_append {g : Grouping} {v : Var} : v ∈ pathKeys (path ++ [g]) ↔ v ∈ pathKeys path ∨ v ∈ g.keys := by
  simp only [pathKeys, VarSet.mem_unions_map, List.mem_append, List.mem_singleton]
  constructor
  · rintro ⟨x, hx | rfl, hv⟩
    · exact .inl ⟨x, hx, hv⟩
    · exact .inr hv
  · rintro (⟨x, hx, hv⟩ | hv)
    · exact ⟨x, .inl hx, hv⟩
    · exact ⟨g, .inr rfl, hv⟩

/-- What an aggregate needs occurs in it, or is needed below it, or is a key of a grouping around it. -/
theorem mem_of_mem_needed {bound below vars : VarSet} {v : Var} (hbound : ∀ w ∈ bound, d.of w ⊆ vars)
    (hv : v ∈ needed d bound below outF path) : v ∈ vars ∨ v ∈ below ∨ v ∈ pathKeys path := by
  rcases (mem_needed.1 hv).1 with hv | hv | hv
  · obtain ⟨w, hw, hv⟩ := VarSet.mem_unions_map.1 hv
    exact .inl (hbound w hw v hv)
  · exact .inr (.inl hv)
  · obtain ⟨g, hg, hv⟩ := VarSet.mem_unions_map.1 hv
    exact .inr (.inr (VarSet.mem_unions_map.2 ⟨g, (List.mem_filter.1 hg).1, hv⟩))

/-- A node takes from around it keys of groupings around it, and variables that occur in it. -/
theorem Drawn.free_subset {n : Node} (h : Drawn n) (hd : Dependent d n) {v : Var}
    (hv : v ∈ (annotated d n outB outF path).info.free) : v ∈ pathKeys path ∨ v ∈ n.info.vars := by
  induction h generalizing outB outF path with
  | @joint m hjoint _ ih =>
    rw [(annotated_joint d outB outF path ((isJoint_settleExtent m).trans hjoint)).2.2.2.2, children_settleExtent,
      VarSet.mem_unions_map] at hv
    obtain ⟨c, hc, hv⟩ := hv
    exact (ih c hc (hd.part hc) hv).imp id (vars_settleExtent hc)
  | draw _ ih =>
    rw [(annotated_joint d outB outF path rfl).2.2.2.2, VarSet.mem_unions_map] at hv
    obtain ⟨c, hc, hv⟩ := hv
    rcases mem_children_get.1 hc with rfl | rfl
    · exact (ih (hd.part hc) hv).imp id (vars_settleExtent hc)
    · exact .inr (vars_settleExtent hc hv)
  | @reduce _ _ arg harg ih | @scan _ _ arg harg ih =>
    have hdarg : Dependent d arg := hd.part List.mem_cons_self
    have hbound : ∀ w ∈ arg.info.dims \ outB, d.of w ⊆ arg.info.vars := fun w hw =>
      hdarg arg (self_mem_postorder arg) harg w (harg.measured.dims_subset_vars w (VarSet.mem_sdiff.1 hw).1)
    simp only [annotated_reduce, annotated_scan] at hv
    rcases mem_of_mem_needed hbound hv with hv | hv | hv
    · exact .inr hv
    · exact ih hdarg hv
    · exact .inl hv
  | @keyed base body value w hbase hbody hvalue hfresh ihbase ihbody ihvalue =>
    have hbound : ∀ u ∈ VarSet.single w \ outB, d.of u ⊆ _ := fun u hu =>
      hd _ (self_mem_postorder _) (.keyed hbase hbody hvalue hfresh) u
        (vars_settleExtent key_mem_children (VarSet.mem_sdiff.1 hu).1)
    rw [annotated_keyed] at hv
    rcases mem_of_mem_needed hbound hv with hv | hv | hv
    · exact .inr hv
    · simp only [VarSet.mem_unions, List.mem_cons, List.not_mem_nil, or_false, exists_eq_or_imp, exists_eq_left] at hv
      rcases hv with hv | hv | hv | hv
      · exact (ihbase (hd.part base_mem_children) hv).imp id (vars_settleExtent base_mem_children)
      · exact .inr (vars_settleExtent key_mem_children hv)
      · rcases ihvalue (hd.part value_mem_children) hv with hv | hv
        · exact (mem_pathKeys_append.1 hv).imp id (vars_settleExtent key_mem_children)
        · exact .inr (vars_settleExtent value_mem_children hv)
      · -- the filter looks the key up in the set of what the key is computed from
        have hdbody := ((hd.part filter_mem_children).part (mem_children_get.2 (.inl rfl))).part List.mem_cons_self
        rw [annotated_filter] at hv
        refine (ihbody hdbody (VarSet.mem_sdiff.1 hv).1).imp id fun hv => ?_
        exact vars_settleExtent filter_mem_children (mem_vars_measuredFilter.2 (.inl hv))
    · exact .inl hv

/-- A node loops over variables that occur in it. -/
theorem Measured.bound_subset {n : Node} (h : Measured n) {v : Var} (hv : v ∈ (annotated d n outB outF path).info.bound) :
    v ∈ n.info.vars := by
  cases h with
  | var => exact absurd hv (VarSet.not_mem_empty v)
  | @joint m hjoint _ =>
    rw [(annotated_joint d outB outF path ((isJoint_settleExtent m).trans hjoint)).2.2.1] at hv
    exact absurd hv (VarSet.not_mem_empty v)
  | reduce harg | scan harg =>
    simp only [annotated_reduce, annotated_scan] at hv
    exact harg.dims_subset_vars v (VarSet.mem_sdiff.1 hv).1
  | named | keyed =>
    simp only [annotated_named, annotated_keyed] at hv
    exact vars_settleExtent key_mem_children (VarSet.mem_sdiff.1 hv).1

/-! ## Generators in order -/

variable {t : NameTable} {seen : VarSet}

/-- The generators of a tree in the order in which the passes from the root down finish them. -/
def generatorsIn (t : NameTable) (n : Node) : List Generator := n.scopeOrder.filterMap (ofFilter? t)

/-- The order is one of the generators of the catalogue. -/
theorem mem_generatorsIn {n : Node} {g : Generator} : g ∈ generatorsIn t n ↔ g ∈ (Catalogue.ofNode n).generators t := by
  rw [generatorsIn, mem_filterMap_ofFilter?, Catalogue.mem_generators]
  simp only [mem_scopeOrder]

/-- The parts of a node in the order in which the passes from the root down finish them. -/
def scopeParts : Node → List Node
  | .update _ base key value filter => [base, key] ++ filter.toList ++ [value]
  | n => n.children

/-- The parts of a node that is no update are finished in their order. -/
theorem scopeParts_joint {n : Node} (h : n.isJoint = true) : n.scopeParts = n.children := by
  cases n with
  | update => cases h
  | _ => rfl

/-- A node is finished after its parts. -/
theorem scopeOrder_eq (n : Node) : n.scopeOrder = n.scopeParts.flatMap scopeOrder ++ [n] := by
  cases n with
  | update i base key value filter => cases filter <;> simp [scopeOrder, optionScopeOrder, scopeParts]
  | _ => simp [scopeOrder, scopeParts, children, listScopeOrder_eq]

/-- The generators of a tree are those of its parts, and its own if it looks a variable up. -/
theorem generatorsIn_eq (t : NameTable) (n : Node) :
    generatorsIn t n = n.scopeParts.flatMap (generatorsIn t) ++ (ofFilter? t n).toList := by
  rw [generatorsIn, scopeOrder_eq, List.filterMap_append, List.filterMap_flatMap]
  refine congrArg (n.scopeParts.flatMap (generatorsIn t) ++ ·) ?_
  cases h : ofFilter? t n <;> simp [h]

/-- A node that looks no variable up adds no generator. -/
theorem generatorsIn_of_filterVar? {n : Node} (h : n.filterVar? = none) :
    generatorsIn t n = n.scopeParts.flatMap (generatorsIn t) := by
  have hnone : ofFilter? t n = none := by rw [ofFilter?, h]; rfl
  rw [generatorsIn_eq, hnone, Option.toList_none, List.append_nil]

/-- A variable alone generates nothing. -/
theorem generatorsIn_keyVar (t : NameTable) (v : Var) : generatorsIn t (keyVar v) = [] := rfl

/-- A variable of a drawn tree is generated in it. -/
theorem Drawn.exists_generator {n : Node} (h : Drawn n) {v : Var} (hv : v ∈ n.info.vars) :
    ∃ g ∈ generatorsIn t (annotated d n outB outF path), g.var = v := by
  obtain ⟨i, base, j, hmem⟩ := h.exists_lookup hv
  have hbare := bare_mem_postorder hmem
  rw [← bare_annotated d n outB outF path, postorder_bare] at hbare
  obtain ⟨m, hm, heq⟩ := List.mem_map.1 hbare
  cases m with
  | get i' base' key =>
    cases key with
    | var j' w =>
      simp only [bare, get.injEq, var.injEq] at heq
      obtain ⟨-, -, -, rfl⟩ := heq
      exact ⟨_, mem_generatorsIn.2 (Catalogue.mem_generators.2 ⟨i', base', j', w, hm, rfl⟩), rfl⟩
    | _ => simp [bare] at heq
  | _ => simp [bare] at heq

/-- A lookup in a source comes after the lookups in the source. -/
theorem Drawn.ordered_draw {base : Node} {v : Var} (h : Drawn base) (hd : Dependent d base) (hpath : pathKeys path ⊆ seen)
    (hbase : Ordered seen (generatorsIn t (annotated d base outB outF path))) :
    Ordered seen (generatorsIn t (annotated d (Node.get {} base (measuredVar v)).settleExtent outB outF path)) := by
  obtain ⟨i, hi⟩ : ∃ i, annotated d (Node.get {} base (measuredVar v)).settleExtent outB outF path =
      .get i (annotated d base outB outF path) (keyVar v) := ⟨_, rfl⟩
  have hlast : generatorsIn t (.get i (annotated d base outB outF path) (keyVar v)) =
      generatorsIn t (annotated d base outB outF path) ++
        [⟨v, annotated d base outB outF path, (Node.get i (annotated d base outB outF path) (keyVar v)).text t⟩] := by
    rw [generatorsIn_eq]
    simp only [scopeParts, children, List.flatMap_cons, List.flatMap_nil, generatorsIn_keyVar, List.append_nil]
    rfl
  rw [hi, hlast]
  have hneeds : (annotated d base outB outF path).info.free ⊆ seen ∪ base.info.vars := fun w hw =>
    VarSet.mem_union.2 ((h.free_subset hd hw).imp (hpath w) id)
  refine hbase.append ⟨hneeds, trivial⟩ fun w hw => ?_
  exact (VarSet.mem_union.1 hw).imp id h.exists_generator

/-- The generators of a drawn tree are in order, where the keys of the groupings around it are bound. -/
theorem Drawn.ordered {n : Node} (h : Drawn n) (hd : Dependent d n) (hpath : pathKeys path ⊆ seen) :
    Ordered seen (generatorsIn t (annotated d n outB outF path)) := by
  induction h generalizing outB outF path seen with
  | @joint m hjoint hparts ih =>
    obtain ⟨hchildren, hj, -⟩ := annotated_joint d outB outF path ((isJoint_settleExtent m).trans hjoint)
    have hvar : (annotated d m.settleExtent outB outF path).filterVar? = none := by
      cases m with
      | get i base key =>
        change (annotated d key outB outF path).asVar? = none
        rw [← asVar?_bare, bare_annotated, asVar?_bare]
        exact (hparts key (mem_children_get.2 (.inr rfl))).asVar?_eq
      | var | reduce | scan | update => cases hjoint
      | _ => rfl
    rw [generatorsIn_of_filterVar? hvar, scopeParts_joint hj, hchildren, children_settleExtent]
    refine Ordered.flatMap fun c hc => ?_
    obtain ⟨part, hpart, rfl⟩ := List.mem_map.1 hc
    exact ih part hpart (hd.part hpart) hpath
  | draw hbase ih =>
    have hdbase := hd.part (mem_children_get.2 (.inl rfl))
    exact hbase.ordered_draw hdbase hpath (ih hdbase hpath)
  | reduce _ ih | scan _ ih =>
    simp only [annotated_reduce, annotated_scan]
    rw [generatorsIn_of_filterVar? rfl]
    refine Ordered.flatMap fun c hc => ?_
    rw [List.mem_singleton.1 hc]
    exact ih (hd.part List.mem_cons_self) hpath
  | @keyed base body value w _ hbody _ _ ihbase ihbody ihvalue =>
    have hset := hbody.keySet
    have hdset := (hd.part filter_mem_children).part (mem_children_get.2 (.inl rfl))
    have hfilter : ∀ {B F : VarSet}, Ordered seen (generatorsIn t (annotated d (measuredFilter body w) B F path)) := by
      intro B F
      refine hset.ordered_draw hdset hpath ?_
      have hparts : generatorsIn t (annotated d (Node.keySet {} body).settleExtent B F path) =
          generatorsIn t (annotated d body B F path) := by
        rw [generatorsIn_of_filterVar? rfl]
        exact List.flatMap_singleton _ _
      rw [hparts]
      exact ihbody (hdset.part List.mem_cons_self) hpath
    have hvalue : ∀ {B F reach : VarSet}, Ordered (seen.insert w)
        (generatorsIn t (annotated d value B F (path ++ [⟨.single w, reach⟩]))) := by
      refine ihvalue (hd.part value_mem_children) fun v hv => ?_
      rcases mem_pathKeys_append.1 hv with hv | hv
      · exact VarSet.mem_insert.2 (.inr (hpath v hv))
      · exact VarSet.mem_insert.2 (.inl (VarSet.mem_single.1 hv))
    rw [annotated_keyed, generatorsIn_of_filterVar? rfl]
    simp only [scopeParts, Option.toList, List.cons_append, List.nil_append, List.flatMap_cons, List.flatMap_nil,
      generatorsIn_keyVar, List.append_nil]
    refine (ihbase (hd.part base_mem_children) hpath).append (hfilter.append hvalue fun v hv => ?_) fun v hv => .inl hv
    rcases VarSet.mem_insert.1 hv with rfl | hv
    · exact .inr (hset.draw.exists_generator (mem_vars_measuredFilter.2 (.inr rfl)))
    · exact .inl hv

/-- The grouping around a root generates nothing. -/
theorem generatorsIn_groupedBy (t : NameTable) (n : Node) (out : VarSet) :
    generatorsIn t (n.groupedBy out) = generatorsIn t n := by
  have hkey : generatorsIn t (groupingKey out) = [] := by
    rw [generatorsIn_of_filterVar? rfl, List.flatMap_eq_nil_iff]
    intro c hc
    obtain ⟨v, -, rfl⟩ := List.mem_map.1 hc
    exact generatorsIn_keyVar t v
  rw [generatorsIn_of_filterVar? rfl]
  change generatorsIn t (.const {} Json.empty) ++ (generatorsIn t (groupingKey out) ++ (generatorsIn t n ++ [])) = _
  rw [hkey, List.append_nil]
  rfl

/-- The generators of a closed tree are in order. -/
theorem Drawn.ordered_closed {root : Node} (h : Drawn root) (hd : Dependent d root) (t : NameTable) (out : VarSet) :
    Ordered ∅ (generatorsIn t (closed d root out)) := by
  have hroot : Ordered ∅ (generatorsIn t (annotated d root out out [])) := h.ordered hd fun _ hv => hv
  unfold closed
  split
  · exact hroot
  · rwa [generatorsIn_groupedBy]

/-- A variable of a tree is generated in the closed tree. -/
theorem Drawn.exists_generator_closed {root : Node} (h : Drawn root) {v : Var} (hv : v ∈ root.info.vars) (t : NameTable)
    (out : VarSet) : ∃ g ∈ generatorsIn t (closed d root out), g.var = v := by
  unfold closed
  split
  · exact h.exists_generator hv
  · rw [generatorsIn_groupedBy]
    exact h.exists_generator hv

end Node

end StarQuery
