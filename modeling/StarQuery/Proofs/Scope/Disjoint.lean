import StarQuery.Proofs.Scope.Budget

/-!
# What is taken from around is not looped over

A node loops, at any depth, over variables that nothing around it provides (`not_mem_of_mem_allBound`), and it takes from
around it variables that are provided or that it has in any case (`Measured.free_subset`). Where what a node has in any case
is provided, the two sets are therefore disjoint; this holds at every node of an annotated tree
(`Measured.wellScoped_annotated`).
-/

namespace StarQuery

namespace Node

/-- The variable sets of a node are in order: those that it has in any case are among those that it would like, these among
its variables, and none that it takes from around it is looped over at the node or below. -/
structure WellScoped (n : Node) : Prop where
  mind_subset : n.info.mind ⊆ n.info.dims
  dims_subset : n.info.dims ⊆ n.info.vars
  free_bound : n.info.free ∩ n.info.bound = ∅
  free_allBound : n.info.free ∩ n.info.allBound = ∅

/-- Two sets are disjoint if no member of the one is in the other. -/
theorem inter_eq_empty {s t : VarSet} : s ∩ t = ∅ ↔ ∀ v ∈ s, ¬ v ∈ t := by
  constructor
  · intro h v hs ht
    have hv : v ∈ s ∩ t := VarSet.mem_inter.2 ⟨hs, ht⟩
    rw [h] at hv
    exact VarSet.not_mem_empty v hv
  · intro h
    refine VarSet.ext fun v => ⟨fun hv => ?_, fun hv => absurd hv (VarSet.not_mem_empty v)⟩
    exact absurd (VarSet.mem_inter.1 hv).2 (h v (VarSet.mem_inter.1 hv).1)

/-! ## Loops -/

/-- A node loops at some depth over what it loops over itself, and over what its parts do. -/
theorem mem_allBound_setBound {n : Node} {s : VarSet} {v : Var} :
    v ∈ (n.setBound s).info.allBound ↔ v ∈ s ∨ ∃ c ∈ n.children, v ∈ c.info.allBound := by
  rw [setBound, info_setInfo, VarSet.mem_union, VarSet.mem_unions_map]

/-- A node loops at any depth over variables that nothing around it provides. -/
theorem not_mem_of_mem_allBound {n : Node} {out : VarSet} {v : Var} (h : v ∈ (n.withBound out).info.allBound) :
    ¬ v ∈ out := by
  induction n using Node.induct generalizing out with
  | input | const | var =>
    rw [withBound, mem_allBound_setBound] at h
    rcases h with h | ⟨c, hc, _⟩
    · exact absurd h (VarSet.not_mem_empty v)
    · exact absurd hc List.not_mem_nil
  | get i base key hbase hkey =>
    rw [withBound, mem_allBound_setBound] at h
    rcases h with h | ⟨c, hc, h⟩
    · exact absurd h (VarSet.not_mem_empty v)
    · simp only [children, List.mem_cons, List.not_mem_nil, or_false] at hc
      rcases hc with rfl | rfl
      · exact hbase h
      · exact hkey h
  | pointwise i op args hargs | hint i op args hargs =>
    rw [withBound, mem_allBound_setBound] at h
    rcases h with h | ⟨c, hc, h⟩
    · exact absurd h (VarSet.not_mem_empty v)
    · simp only [children, listWithBound_eq, List.mem_map] at hc
      obtain ⟨a, ha, rfl⟩ := hc
      exact hargs a ha h
  | keySet i arg harg =>
    rw [withBound, mem_allBound_setBound] at h
    rcases h with h | ⟨c, hc, h⟩
    · exact absurd h (VarSet.not_mem_empty v)
    · rw [List.mem_singleton.1 hc] at h
      exact harg h
  | reduce i op mode arg harg | scan i op mode arg harg =>
    rw [withBound, mem_allBound_setBound] at h
    rcases h with h | ⟨c, hc, h⟩
    · exact (VarSet.mem_sdiff.1 h).2
    · rw [List.mem_singleton.1 hc] at h
      exact fun hv => harg h (VarSet.mem_union.2 (Or.inl hv))
  | update i base key value filter hbase hkey hvalue hfilter =>
    rw [withBound, mem_allBound_setBound] at h
    rcases h with h | ⟨c, hc, h⟩
    · exact (VarSet.mem_sdiff.1 h).2
    · simp only [children, List.mem_append, List.mem_cons, List.not_mem_nil, or_false, Option.mem_toList] at hc
      rcases hc with (rfl | rfl | rfl) | hc
      · exact hbase h
      · exact hkey h
      · exact fun hv => hvalue h (VarSet.mem_union.2 (Or.inl hv))
      · cases filter with
        | none => exact absurd hc (Option.not_mem_none c)
        | some f =>
          rw [← Option.mem_some.1 hc] at h
          intro hv
          exact hfilter f rfl h (VarSet.mem_union.2 (Or.inl (VarSet.mem_union.2 (Or.inl hv))))

/-! ## What is taken from around -/

/-- What is needed is needed by the loops, below, or by a correlated grouping, and is provided. -/
theorem mem_needed {d : Dependencies} {bound below out : VarSet} {path : List Grouping} {v : Var} :
    v ∈ needed d bound below out path ↔
      (v ∈ d.ofSet bound ∨ v ∈ below ∨ v ∈ correlated d bound path) ∧ v ∈ out := by
  simp only [needed, VarSet.mem_inter, VarSet.mem_union, or_assoc]

/-- A node takes from around it what is provided, or what it has in any case. -/
theorem Measured.free_subset {n : Node} (h : Measured n) {d : Dependencies} {outB outF : VarSet} {path : List Grouping}
    {v : Var} (hv : v ∈ (annotated d n outB outF path).info.free) : v ∈ outF ∨ v ∈ n.info.mind := by
  induction h generalizing outB outF path with
  | var w => exact Or.inr hv
  | joint hn _ ih =>
    have hfree := (annotated_joint d outB outF path ((isJoint_settleExtent _).trans hn)).2.2.2.2
    rw [hfree, VarSet.mem_unions_map, children_settleExtent] at hv
    obtain ⟨c, hc, hv⟩ := hv
    refine (ih c hc hv).imp id fun hv => ?_
    rw [info_settleExtent_joint hn, jointExtent, VarSet.mem_unions_map]
    exact ⟨c, hc, hv⟩
  | reduce =>
    rw [annotated_reduce] at hv
    exact Or.inl (mem_needed.1 hv).2
  | scan =>
    rw [annotated_scan] at hv
    exact Or.inl (mem_needed.1 hv).2
  | named =>
    rw [annotated_named] at hv
    exact Or.inl (mem_needed.1 hv).2
  | keyed =>
    rw [annotated_keyed] at hv
    exact Or.inl (mem_needed.1 hv).2

/-! ## Every node is well scoped -/

/-- A node loops over nothing but what it loops over at some depth. -/
theorem bound_subset_allBound (n : Node) (out : VarSet) :
    ∀ v ∈ (n.withBound out).info.bound, v ∈ (n.withBound out).info.allBound := by
  intro v hv
  cases n <;> exact VarSet.mem_union.2 (Or.inl hv)

/-- A node whose dimensions are provided in any case is well scoped after both passes. -/
theorem Measured.wellScoped_self {n : Node} (h : Measured n) {d : Dependencies} {outB outF : VarSet}
    {path : List Grouping} (hmind : n.info.mind ⊆ outB) (hout : outF ⊆ outB) :
    WellScoped (annotated d n outB outF path) := by
  have hdisjoint : ∀ v ∈ (annotated d n outB outF path).info.free, ¬ v ∈ (annotated d n outB outF path).info.allBound := by
    intro v hfree hall
    rw [allBound_annotated] at hall
    exact not_mem_of_mem_allBound hall ((h.free_subset hfree).elim (hout v) (hmind v))
  refine ⟨?_, ?_, inter_eq_empty.2 ?_, inter_eq_empty.2 hdisjoint⟩
  · rw [mind_annotated, dims_annotated]
    exact h.mind_subset_dims
  · rw [dims_annotated, vars_annotated]
    exact h.dims_subset_vars
  · intro v hfree hbound
    refine hdisjoint v hfree ?_
    rw [allBound_annotated]
    rw [annotated, bound_withFree] at hbound
    exact bound_subset_allBound n outB v hbound

/-- The key of an update is well scoped wherever it stands: it is a variable, and loops over nothing. -/
theorem wellScoped_keyVar (v : Var) : WellScoped (keyVar v) :=
  ⟨fun _ h => h, fun _ h => h, inter_eq_empty.2 fun _ _ => VarSet.not_mem_empty _,
    inter_eq_empty.2 fun _ _ => VarSet.not_mem_empty _⟩

/-- The filter of an update is well scoped inside the budgets of its body, if its key is provided in the bound pass. -/
theorem wellScoped_filter {body : Node} {v : Var} (h : Measured body) {d : Dependencies} {outB outF : VarSet}
    {path : List Grouping} (hbody : Provided body outB outF) (hv : v ∈ outB) :
    WellScoped (annotated d (measuredFilter body v) outB outF path) := by
  refine (h.filter v).wellScoped_self ?_ hbody.out_subset
  intro w hw
  rcases mem_mind_measuredFilter.1 hw with hw | rfl
  · exact hbody.out_subset w (hbody.mind_out w hw)
  · exact hv

/-- Every node of a tree after both passes is well scoped, where what the root has in any case is provided. -/
theorem Measured.wellScoped_annotated {n : Node} (h : Measured n) {d : Dependencies} {out : VarSet}
    (hout : n.info.mind ⊆ out) : ∀ m ∈ (annotated d n out out []).postorder, WellScoped m := by
  intro m hm
  cases h.mem_annotated_root hout hm with
  | inside hn hp =>
    exact (h.mem_postorder hn).wellScoped_self (fun v hv => hp.out_subset v (hp.mind_out v hv)) hp.out_subset
  | key v => exact wellScoped_keyVar v
  | filter hn hp hv => exact wellScoped_filter (h.mem_postorder (body_mem_postorder hn)) hp hv

end Node

end StarQuery
