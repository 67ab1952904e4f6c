import StarQuery.Proofs.Scope.Invariants

/-!
# The loops of an aggregate

What a node would like to have, as far as it is provided, the node takes from around it (`Measured.dims_subset_free`). So the
dimensions that an aggregate does not take from around it are those that nothing provides, and these the bound pass has it
loop over: the two ways to find the loops of an aggregate agree (`Measured.loopsOf_closed`).
-/

namespace StarQuery

namespace Node

/-- An update takes from around it what it ranges over, if its base and its value do. -/
theorem mem_needed_update {d : Dependencies} {bound base value key baseFree keyFree valueFree filterFree out : VarSet}
    {path : List Grouping} {v : Var} (hdims : v ∈ base ∪ (value \ key)) (hout : v ∈ out) (hbase : v ∈ base → v ∈ baseFree)
    (hvalue : v ∈ value → v ∈ valueFree) :
    v ∈ needed d bound (.unions [baseFree, keyFree, valueFree, filterFree]) out path := by
  refine mem_needed.2 ⟨.inr (.inl ?_), hout⟩
  rcases VarSet.mem_union.1 hdims with hv | hv
  · exact VarSet.mem_unions.2 ⟨_, List.mem_cons_self, hbase hv⟩
  · refine VarSet.mem_unions.2 ⟨_, List.mem_cons_of_mem _ (List.mem_cons_of_mem _ List.mem_cons_self), ?_⟩
    exact hvalue (VarSet.mem_sdiff.1 hv).1

/-- A node takes from around it all of its dimensions that are provided. -/
theorem Measured.dims_subset_free {n : Node} (h : Measured n) {d : Dependencies} {outB outF : VarSet}
    {path : List Grouping} {v : Var} (hdims : v ∈ n.info.dims) (hout : v ∈ outF) :
    v ∈ (annotated d n outB outF path).info.free := by
  induction h generalizing outB outF path with
  | var w => exact hdims
  | joint hn _ ih =>
    rw [(annotated_joint d outB outF path ((isJoint_settleExtent _).trans hn)).2.2.2.2, VarSet.mem_unions_map,
      children_settleExtent]
    rw [info_settleExtent_joint hn, jointExtent, VarSet.mem_unions_map] at hdims
    obtain ⟨c, hc, hv⟩ := hdims
    exact ⟨c, hc, ih c hc hv hout⟩
  | @reduce op mode arg _ ih | @scan op mode arg _ ih =>
    simp only [annotated_reduce, annotated_scan]
    cases mode with
    | eager => exact absurd hdims (VarSet.not_mem_empty v)
    | reluctant => exact mem_needed.2 ⟨.inr (.inl (ih hdims (VarSet.mem_union.2 (.inl hout)))), hout⟩
  | named _ _ hbase hvalue =>
    rw [annotated_named]
    exact mem_needed_update hdims hout (hbase · hout) fun hv => hvalue hv (VarSet.mem_union.2 (.inl hout))
  | keyed _ _ _ _ hbase _ hvalue =>
    rw [annotated_keyed]
    exact mem_needed_update hdims hout (hbase · hout) fun hv => hvalue hv (VarSet.mem_union.2 (.inl hout))

/-- Of the variables of a set that are provided to both passes alike, those that are needed and those that are provided are
the same. -/
theorem sdiff_needed {d : Dependencies} {s bound below outB outF : VarSet} {path : List Grouping} (hout : outF ⊆ outB)
    (hs : ∀ v ∈ s, v ∈ outB → v ∈ outF) (hbelow : ∀ v ∈ s, v ∈ below) :
    s \ needed d bound below outF path = s \ outB := by
  refine VarSet.ext fun v => ?_
  rw [VarSet.mem_sdiff, VarSet.mem_sdiff, mem_needed]
  refine and_congr_right fun hv => not_congr ⟨fun h => hout v h.2, fun h => ?_⟩
  exact ⟨.inr (.inl (hbelow v hv)), hs v hv h⟩

/-- An aggregate that both passes reached with budgets that suit it has the loops left that it was given. -/
theorem Measured.loopsOf_annotated {n : Node} (h : Measured n) {d : Dependencies} {outB outF : VarSet}
    {path : List Grouping} (hp : Provided n outB outF) (hn : n.gathers = true) :
    Program.loopsOf (annotated d n outB outF path) = (annotated d n outB outF path).info.bound := by
  cases h with
  | var => cases hn
  | joint hjoint =>
    rename_i m _
    cases m with
    | var | reduce | scan | update => cases hjoint
    | _ => cases hn
  | reduce harg | scan harg =>
    simp only [annotated_reduce, annotated_scan, Program.loopsOf, info_reduce, info_scan, dims_annotated]
    refine sdiff_needed hp.out_subset (fun v hv => hp.vars_out v (harg.dims_subset_vars v hv)) fun v hv => ?_
    exact harg.dims_subset_free hv (VarSet.mem_union.2 (.inr hv))
  | named | keyed =>
    simp only [annotated_named, annotated_keyed]
    refine sdiff_needed hp.out_subset (fun w hw => hp.vars_out w ?_) fun w hw => ?_
    · exact VarSet.mem_unions.2 ⟨_, List.mem_cons_of_mem _ List.mem_cons_self, hw⟩
    · exact VarSet.mem_unions.2 ⟨_, List.mem_cons_of_mem _ List.mem_cons_self, hw⟩

/-- Every aggregate of an annotated tree has the loops left that it was given. -/
theorem Measured.loopsOf_mem_annotated {n : Node} (h : Measured n) {d : Dependencies} {out : VarSet}
    (hout : n.info.mind ⊆ out) {m : Node} (hm : m ∈ (annotated d n out out []).postorder) (hg : m.gathers = true) :
    Program.loopsOf m = m.info.bound := by
  cases h.mem_annotated_root hout hm with
  | inside hn hp =>
    refine (h.mem_postorder hn).loopsOf_annotated hp ?_
    rwa [gathers_annotated] at hg
  | key v => cases hg
  | filter => cases hg

/-- Every aggregate of a closed tree has the loops left that it was given. -/
theorem Measured.loopsOf_closed {root : Node} (h : Measured root) (d : Dependencies) {out : VarSet}
    (hout : root.info.mind ⊆ out) {m : Node} (hm : m ∈ (closed d root out).postorder) (hg : m.gathers = true) :
    Program.loopsOf m = m.info.bound := by
  rcases mem_closed hm with hm | rfl | rfl | rfl | ⟨v, -, rfl⟩
  · exact h.loopsOf_mem_annotated hout hm hg
  · -- the grouping around the root takes nothing from around it
    refine VarSet.ext fun v => ?_
    simp [Program.loopsOf, groupedBy]
  · cases hg
  · cases hg
  · cases hg

end Node

end StarQuery
