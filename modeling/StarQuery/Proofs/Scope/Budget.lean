import StarQuery.Proofs.Scope.Measured

/-!
# The passes from the root down

`annotated` runs the bound pass and then the free pass on a measured tree, each with the variables that it takes as provided.
There is one equation for each form of node. The two budgets differ inside a filter only, by the key that the filter
generates.
-/

namespace StarQuery

namespace Node

/-! ## What the passes keep -/

/-- The bound pass leaves the variables of a node. -/
@[simp] theorem vars_withBound (n : Node) (out : VarSet) : (n.withBound out).info.vars = n.info.vars := by
  cases n <;> rfl

/-- The bound pass leaves what a node has in any case. -/
@[simp] theorem mind_withBound (n : Node) (out : VarSet) : (n.withBound out).info.mind = n.info.mind := by
  cases n <;> rfl

/-- The bound pass leaves what a node would like to have. -/
@[simp] theorem dims_withBound (n : Node) (out : VarSet) : (n.withBound out).info.dims = n.info.dims := by
  cases n <;> rfl

/-- The bound pass leaves what a node takes from around it. -/
@[simp] theorem free_withBound (n : Node) (out : VarSet) : (n.withBound out).info.free = n.info.free := by
  cases n <;> rfl

/-- The free pass changes what a node takes from around it and nothing else. -/
theorem info_withFree (d : Dependencies) (n : Node) (out : VarSet) (path : List Grouping) :
    (n.withFree d out path).info = { n.info with free := (n.withFree d out path).info.free } := by
  cases n <;> rfl

@[simp] theorem vars_withFree (d : Dependencies) (n : Node) (out : VarSet) (path : List Grouping) :
    (n.withFree d out path).info.vars = n.info.vars := by rw [info_withFree]

@[simp] theorem mind_withFree (d : Dependencies) (n : Node) (out : VarSet) (path : List Grouping) :
    (n.withFree d out path).info.mind = n.info.mind := by rw [info_withFree]

@[simp] theorem dims_withFree (d : Dependencies) (n : Node) (out : VarSet) (path : List Grouping) :
    (n.withFree d out path).info.dims = n.info.dims := by rw [info_withFree]

@[simp] theorem bound_withFree (d : Dependencies) (n : Node) (out : VarSet) (path : List Grouping) :
    (n.withFree d out path).info.bound = n.info.bound := by rw [info_withFree]

@[simp] theorem allBound_withFree (d : Dependencies) (n : Node) (out : VarSet) (path : List Grouping) :
    (n.withFree d out path).info.allBound = n.info.allBound := by rw [info_withFree]

/-! ## Both passes -/

/-- A tree after both passes from the root down, where `outB` is provided in the bound pass and `outF` in the free pass. -/
def annotated (d : Dependencies) (n : Node) (outB outF : VarSet) (path : List Grouping) : Node :=
  (n.withBound outB).withFree d outF path

section
variable (d : Dependencies) (outB outF : VarSet) (path : List Grouping)

/-- Both passes leave the variables of a node. -/
@[simp] theorem vars_annotated (n : Node) : (annotated d n outB outF path).info.vars = n.info.vars := by simp [annotated]

/-- Both passes leave what a node has in any case. -/
@[simp] theorem mind_annotated (n : Node) : (annotated d n outB outF path).info.mind = n.info.mind := by simp [annotated]

/-- Both passes leave what a node would like to have. -/
@[simp] theorem dims_annotated (n : Node) : (annotated d n outB outF path).info.dims = n.info.dims := by simp [annotated]

/-- What a node loops over at any depth is settled by the bound pass. -/
theorem allBound_annotated (n : Node) : (annotated d n outB outF path).info.allBound = (n.withBound outB).info.allBound := by
  simp [annotated]

/-- Both passes leave the forms of nodes, so an aggregate stays one. -/
theorem gathers_annotated (n : Node) : (annotated d n outB outF path).gathers = n.gathers := by cases n <;> rfl

theorem annotated_var (v : Var) : annotated d (measuredVar v) outB outF path = keyVar v := rfl

/-- A node that ranges over whatever its parts range over needs and loops over what they do. -/
theorem annotated_joint {n : Node} (h : n.isJoint = true) :
    (annotated d n outB outF path).children = n.children.map (annotated d · outB outF path) ∧
      (annotated d n outB outF path).isJoint = true ∧
      (annotated d n outB outF path).info.bound = ∅ ∧
      (annotated d n outB outF path).info.allBound =
        ∅ ∪ .unions (n.children.map fun c => (annotated d c outB outF path).info.allBound) ∧
      (annotated d n outB outF path).info.free =
        .unions (n.children.map fun c => (annotated d c outB outF path).info.free) := by
  cases n with
  | var | reduce | scan | update => cases h
  | _ => simp [annotated, withBound, withFree, setBound, setFree, setJointFree, setInfo, children, isJoint, Function.comp_def]

/-- A reduction after both passes: it loops over what its argument has and nothing provides, and takes what is needed for
that. -/
theorem annotated_reduce (op : Reducer) (mode : Mode) (arg : Node) :
    let arg' := annotated d arg (outB ∪ arg.info.dims) (outF ∪ arg.info.dims) path
    annotated d (Node.reduce {} op mode arg).settleExtent outB outF path =
      .reduce { reducedExtent mode arg with
        bound := arg.info.dims \ outB
        allBound := (arg.info.dims \ outB) ∪ .unions [arg'.info.allBound]
        free := needed d (arg.info.dims \ outB) arg'.info.free outF path } op mode arg' := by
  simp [annotated, settleExtent, extent, withBound, withFree, setBound, setFree, setInfo, children]

/-- A scan after both passes is like a reduction. -/
theorem annotated_scan (op : Reducer) (mode : Mode) (arg : Node) :
    let arg' := annotated d arg (outB ∪ arg.info.dims) (outF ∪ arg.info.dims) path
    annotated d (Node.scan {} op mode arg).settleExtent outB outF path =
      .scan { reducedExtent mode arg with
        bound := arg.info.dims \ outB
        allBound := (arg.info.dims \ outB) ∪ .unions [arg'.info.allBound]
        free := needed d (arg.info.dims \ outB) arg'.info.free outF path } op mode arg' := by
  simp [annotated, settleExtent, extent, withBound, withFree, setBound, setFree, setInfo, children]

/-! The key of an update is a variable, which loops over nothing and takes itself. -/

theorem vars_measuredVar (v : Var) : (measuredVar v).info.vars = .single v := rfl

theorem withFree_measuredVar (v : Var) : withFree d ((measuredVar v).withBound outB) outF path = keyVar v := rfl

theorem allBound_measuredVar (v : Var) : ((measuredVar v).withBound outB).info.allBound = ∅ := rfl

theorem free_keyVar (v : Var) : (keyVar v).info.free = .single v := rfl

/-- An update by a named variable after both passes: it loops over the key unless that is provided. -/
theorem annotated_named (base value : Node) (v : Var) :
    let base' := annotated d base outB outF path
    let value' := annotated d value (outB ∪ .single v) (outF ∪ .single v) path
    annotated d (Node.update {} base (measuredVar v) value none).settleExtent outB outF path =
      .update { extent (.update {} base (measuredVar v) value none) with
        bound := .single v \ outB
        allBound := (.single v \ outB) ∪ .unions [base'.info.allBound, ∅, value'.info.allBound]
        free := needed d (.single v \ outB) (.unions [base'.info.free, .single v, value'.info.free, ∅]) outF path }
        base' (keyVar v) value' none := by
  simp [annotated, settleExtent, withBound, withFree, setBound, setFree, setInfo, children, optionWithBound,
    optionWithFree, bodyFree, vars_measuredVar, withFree_measuredVar, allBound_measuredVar, free_keyVar]

/-- The filter of an update by a computed key after both passes. -/
theorem annotated_filter (body : Node) (v : Var) :
    let body' := annotated d body outB outF path
    annotated d (measuredFilter body v) outB outF path =
      .get { (measuredFilter body v).info with
        allBound := ∅ ∪ .unions [∅ ∪ .unions [body'.info.allBound], ∅]
        free := .unions [.unions [body'.info.free], .single v] }
        (.keySet { jointExtent [body] with
          allBound := ∅ ∪ .unions [body'.info.allBound]
          free := .unions [body'.info.free] } body') (keyVar v) := by
  simp [measuredFilter, annotated, settleExtent, extent, jointExtent, withBound, withFree, setBound, setFree, setJointFree,
    setInfo, children, withFree_measuredVar, allBound_measuredVar, free_keyVar]

/-- An update by a computed key after both passes: its filter generates the key. -/
theorem annotated_keyed (base body value : Node) (v : Var) :
    let filter := measuredFilter body v
    let base' := annotated d base outB outF path
    let filter' := annotated d filter (outB ∪ .single v ∪ filter.info.dims) (outF ∪ (filter.info.dims \ .single v)) path
    let value' := annotated d value (outB ∪ .single v) (outF ∪ .single v)
      (path ++ [⟨.single v, d.ofSet (.single v)⟩])
    annotated d (Node.update {} base (measuredVar v) value (some filter)).settleExtent outB outF path =
      .update { extent (.update {} base (measuredVar v) value (some filter)) with
        bound := .single v \ outB
        allBound := (.single v \ outB) ∪
          .unions [base'.info.allBound, ∅, value'.info.allBound, filter'.info.allBound]
        free := needed d (.single v \ outB)
          (.unions [base'.info.free, .single v, value'.info.free, bodyFree outF (some filter')]) outF path }
        base' (keyVar v) value' (some filter') := by
  simp [annotated, settleExtent, withBound, withFree, setBound, setFree, setInfo, children, optionWithBound,
    optionWithFree, vars_measuredVar, withFree_measuredVar, allBound_measuredVar, free_keyVar]

end

/-! ## The nodes of an annotated tree -/

/-- The budgets suit a node: what it has in any case is provided in the free pass, what is provided there is provided in the
bound pass, and the two provide the same of the variables that occur in the node. -/
structure Provided (n : Node) (outB outF : VarSet) : Prop where
  mind_out : n.info.mind ⊆ outF
  out_subset : outF ⊆ outB
  vars_out : ∀ v ∈ n.info.vars, v ∈ outB → v ∈ outF

/-- At the root both passes have the same budget. -/
theorem Provided.root {n : Node} {out : VarSet} (h : n.info.mind ⊆ out) : Provided n out out :=
  ⟨h, fun _ hv => hv, fun _ _ hv => hv⟩

namespace Provided

variable {outB outF : VarSet}

/-- Budgets that suit a node that ranges over whatever its parts range over suit its parts. -/
theorem joint {n c : Node} (hp : Provided n.settleExtent outB outF) (hn : n.isJoint = true) (hc : c ∈ n.children) :
    Provided c outB outF := by
  have hinfo := info_settleExtent_joint hn
  refine ⟨fun v hv => hp.mind_out v ?_, hp.out_subset, fun v hv => hp.vars_out v ?_⟩
  · rw [hinfo, jointExtent, VarSet.mem_toList, VarSet.mem_unions_map]
    exact ⟨c, hc, hv⟩
  · rw [hinfo, jointExtent, VarSet.mem_unions_map]
    exact ⟨c, hc, hv⟩

/-- The argument of a reduction is visited with its dimensions provided. -/
theorem arg {arg : Node} (h : Measured arg) (hout : outF ⊆ outB) (hvars : ∀ v ∈ arg.info.vars, v ∈ outB → v ∈ outF) :
    Provided arg (outB ∪ arg.info.dims) (outF ∪ arg.info.dims) := by
  refine ⟨fun v hv => ?_, fun v hv => ?_, fun v hv hB => ?_⟩
  · exact VarSet.mem_union.2 (Or.inr (h.mind_subset_dims v hv))
  · exact VarSet.mem_union.2 ((VarSet.mem_union.1 hv).imp (hout v) id)
  · exact VarSet.mem_union.2 ((VarSet.mem_union.1 hB).imp (hvars v hv) id)

section
variable {b x : Node} {v : Var} {filter : Option Node}

/-- Budgets that suit an update suit its base. -/
theorem base (hp : Provided (Node.update {} b (measuredVar v) x filter).settleExtent outB outF) :
    Provided b outB outF := by
  refine ⟨fun w hw => hp.mind_out w ?_, hp.out_subset, fun w hw => hp.vars_out w ?_⟩
  · exact VarSet.mem_union.2 (Or.inl hw)
  · simp only [settleExtent, info_setInfo, extent, VarSet.mem_unions_map]
    exact ⟨b, by simp, hw⟩

/-- The value of an update is visited with the key provided. -/
theorem value (hp : Provided (Node.update {} b (measuredVar v) x filter).settleExtent outB outF) :
    Provided x (outB ∪ .single v) (outF ∪ .single v) := by
  refine ⟨fun w hw => ?_, fun w hw => ?_, fun w hw hB => ?_⟩
  · by_cases h : w = v
    · exact VarSet.mem_union.2 (Or.inr (VarSet.mem_single.2 h))
    · refine VarSet.mem_union.2 (Or.inl (hp.mind_out w (VarSet.mem_union.2 (Or.inr (VarSet.mem_sdiff.2 ⟨hw, ?_⟩)))))
      exact fun hv => h (VarSet.mem_single.1 hv)
  · exact VarSet.mem_union.2 ((VarSet.mem_union.1 hw).imp (hp.out_subset w) id)
  · refine VarSet.mem_union.2 ((VarSet.mem_union.1 hB).imp (hp.vars_out w ?_) id)
    simp only [settleExtent, info_setInfo, extent, VarSet.mem_unions_map]
    exact ⟨x, by simp, hw⟩

/-- What a key is computed from does not hold the key, so inside a filter the budgets differ by nothing that occurs there. -/
theorem body {body : Node} (h : Measured body) (hv : ¬ v ∈ body.info.vars)
    (hp : Provided (Node.update {} b (measuredVar v) x (some (measuredFilter body v))).settleExtent outB outF) :
    Provided body (outB ∪ .single v ∪ (measuredFilter body v).info.dims)
      (outF ∪ ((measuredFilter body v).info.dims \ .single v)) := by
  have hne : ∀ w ∈ body.info.vars, ¬ w ∈ VarSet.single v := fun w hw hwv => hv (VarSet.mem_single.1 hwv ▸ hw)
  refine ⟨fun w hw => ?_, fun w hw => ?_, fun w hw hB => ?_⟩
  · have hdims := h.mind_subset_dims w hw
    refine VarSet.mem_union.2 (Or.inr (VarSet.mem_sdiff.2 ⟨mem_dims_measuredFilter.2 (Or.inl hdims), ?_⟩))
    exact hne w (h.dims_subset_vars w hdims)
  · rcases VarSet.mem_union.1 hw with hw | hw
    · exact VarSet.mem_union.2 (Or.inl (VarSet.mem_union.2 (Or.inl (hp.out_subset w hw))))
    · exact VarSet.mem_union.2 (Or.inr (VarSet.mem_sdiff.1 hw).1)
  · rcases VarSet.mem_union.1 hB with hB | hB
    · rcases VarSet.mem_union.1 hB with hB | hB
      · refine VarSet.mem_union.2 (Or.inl (hp.vars_out w ?_ hB))
        simp only [settleExtent, info_setInfo, extent, VarSet.mem_unions_map]
        exact ⟨measuredFilter body v, by simp, mem_vars_measuredFilter.2 (Or.inl hw)⟩
      · exact absurd hB (hne w hw)
    · exact VarSet.mem_union.2 (Or.inr (VarSet.mem_sdiff.2 ⟨hB, hne w hw⟩))

end

end Provided

/-- What a node of a tree can be after both passes. -/
inductive Place (d : Dependencies) (root : Node) : Node → Prop where
  /-- A node of the tree that both passes reached with budgets that suit it, inside groupings of the tree. -/
  | inside {n : Node} {outB outF : VarSet} {path : List Grouping} : n ∈ root.postorder → Provided n outB outF →
      (∀ g ∈ path, g.keys ⊆ root.info.vars) → Place d root (annotated d n outB outF path)
  /-- The key of an update, or of the filter of an update. -/
  | key (v : Var) : Place d root (keyVar v)
  /-- The filter of an update, whose budgets suit what the key is computed from. -/
  | filter {body : Node} {v : Var} {outB outF : VarSet} {path : List Grouping} :
      measuredFilter body v ∈ root.postorder → Provided body outB outF → v ∈ outB →
      (∀ g ∈ path, g.keys ⊆ root.info.vars) → Place d root (annotated d (measuredFilter body v) outB outF path)

section
variable {d : Dependencies} {root : Node} {outB outF : VarSet} {path : List Grouping}

/-- The nodes of a filter after both passes are itself, its key, the set that the key is drawn from, and those of what the
key is computed from. -/
theorem mem_annotated_filter {body : Node} {v : Var} (hroot : measuredFilter body v ∈ root.postorder)
    (hp : Provided body outB outF) (hv : v ∈ outB) (hpath : ∀ g ∈ path, g.keys ⊆ root.info.vars) {m : Node}
    (ih : m ∈ (annotated d body outB outF path).postorder → Place d root m)
    (hm : m ∈ (annotated d (measuredFilter body v) outB outF path).postorder) : Place d root m := by
  have hset : (Node.keySet {} body).settleExtent ∈ root.postorder :=
    mem_postorder_trans (mem_postorder_of_mem_children List.mem_cons_self (self_mem_postorder _)) hroot
  have hpset : Provided (Node.keySet {} body).settleExtent outB outF := by
    refine ⟨fun w hw => hp.mind_out w ?_, hp.out_subset, fun w hw => hp.vars_out w ?_⟩
    · simpa [settleExtent, extent, jointExtent, VarSet.unions, VarSet.mem_toList] using hw
    · simpa [settleExtent, extent, jointExtent, VarSet.unions] using hw
  rcases mem_postorder.1 hm with rfl | ⟨c, hc, hm⟩
  · exact Place.filter hroot hp hv hpath
  · have hjoint : (measuredFilter body v).isJoint = true := rfl
    have hchildren : (measuredFilter body v).children = [(Node.keySet {} body).settleExtent, measuredVar v] := rfl
    rw [(annotated_joint d outB outF path hjoint).1, hchildren] at hc
    simp only [List.map_cons, List.map_nil, List.mem_cons, List.not_mem_nil, or_false] at hc
    rcases hc with rfl | rfl
    · rcases mem_postorder.1 hm with rfl | ⟨c, hc, hm⟩
      · exact Place.inside hset hpset hpath
      · rw [(annotated_joint d outB outF path (n := (Node.keySet {} body).settleExtent) rfl).1] at hc
        rw [List.mem_singleton.1 hc] at hm
        exact ih hm
    · rw [annotated_var] at hm
      rw [List.mem_singleton.1 hm]
      exact Place.key v

/-- The key of an update of a tree is one of its variables. -/
theorem Measured.keys_subset (h : Measured root) {base value : Node} {v : Var} {filter : Option Node} {reach : VarSet}
    (hn : (Node.update {} base (measuredVar v) value filter).settleExtent ∈ root.postorder)
    (hpath : ∀ g ∈ path, g.keys ⊆ root.info.vars) :
    ∀ g ∈ path ++ [⟨.single v, reach⟩], g.keys ⊆ root.info.vars := by
  intro g hg
  rcases List.mem_append.1 hg with hg | hg
  · exact hpath g hg
  · rw [List.mem_singleton.1 hg]
    intro w hw
    refine h.vars_subset hn w (vars_settleExtent (c := measuredVar v) ?_ hw)
    exact key_mem_children

/-- Every node of a tree is one of these after both passes. -/
theorem Measured.mem_annotated (hroot : Measured root) {n : Node} (h : Measured n) (hn : n ∈ root.postorder)
    (hp : Provided n outB outF) (hpath : ∀ g ∈ path, g.keys ⊆ root.info.vars) {m : Node}
    (hm : m ∈ (annotated d n outB outF path).postorder) : Place d root m := by
  induction h generalizing outB outF path with
  | var v =>
    rw [List.mem_singleton.1 hm]
    exact Place.key v
  | joint hjoint hparts ih =>
    rcases Node.mem_postorder.1 hm with rfl | ⟨c, hc, hm⟩
    · exact Place.inside hn hp hpath
    · rw [(annotated_joint d outB outF path ((isJoint_settleExtent _).trans hjoint)).1, children_settleExtent,
        List.mem_map] at hc
      obtain ⟨c, hc, rfl⟩ := hc
      exact ih c hc (mem_postorder_of_part hn (by rwa [children_settleExtent])) (hp.joint hjoint hc) hpath hm
  | reduce h ih =>
    rcases Node.mem_postorder.1 hm with rfl | ⟨c, hc, hm⟩
    · exact Place.inside hn hp hpath
    · rw [annotated_reduce] at hc
      rw [List.mem_singleton.1 hc] at hm
      exact ih (mem_postorder_of_part hn List.mem_cons_self) (Provided.arg h hp.out_subset hp.vars_out) hpath hm
  | scan h ih =>
    rcases Node.mem_postorder.1 hm with rfl | ⟨c, hc, hm⟩
    · exact Place.inside hn hp hpath
    · rw [annotated_scan] at hc
      rw [List.mem_singleton.1 hc] at hm
      exact ih (mem_postorder_of_part hn List.mem_cons_self) (Provided.arg h hp.out_subset hp.vars_out) hpath hm
  | @named base value v hbase hvalue ihbase ihvalue =>
    rcases Node.mem_postorder.1 hm with rfl | ⟨c, hc, hm⟩
    · exact Place.inside hn hp hpath
    · rw [annotated_named, mem_children_update] at hc
      rcases hc with rfl | rfl | rfl | hc
      · exact ihbase (mem_postorder_of_part hn base_mem_children) hp.base hpath hm
      · rw [List.mem_singleton.1 hm]
        exact Place.key v
      · exact ihvalue (mem_postorder_of_part hn value_mem_children) hp.value hpath hm
      · cases hc
  | @keyed base body value v hbase hbody hvalue hv ihbase ihbody ihvalue =>
    have hfilter := mem_postorder_of_part hn filter_mem_children
    have hset := mem_postorder_of_part hfilter (mem_children_get.2 (.inl rfl))
    rcases Node.mem_postorder.1 hm with rfl | ⟨c, hc, hm⟩
    · exact Place.inside hn hp hpath
    · rw [annotated_keyed, mem_children_update] at hc
      rcases hc with rfl | rfl | rfl | hc
      · exact ihbase (mem_postorder_of_part hn base_mem_children) hp.base hpath hm
      · rw [List.mem_singleton.1 hm]
        exact Place.key v
      · exact ihvalue (mem_postorder_of_part hn value_mem_children) hp.value
          (hroot.keys_subset hn hpath) hm
      · cases hc
        exact mem_annotated_filter hfilter (hp.body hbody hv) (by simp) hpath
          (ihbody (mem_postorder_of_part hset List.mem_cons_self) (hp.body hbody hv) hpath) hm

/-- What the key of a filter is computed from is a node of the tree. -/
theorem body_mem_postorder {body : Node} {v : Var} (h : measuredFilter body v ∈ root.postorder) : body ∈ root.postorder :=
  mem_postorder_of_part (mem_postorder_of_part h (mem_children_get.2 (.inl rfl))) List.mem_cons_self

/-- At the root nothing is around, and both passes have the same budget. -/
theorem Measured.mem_annotated_root (h : Measured root) {out : VarSet} (hout : root.info.mind ⊆ out) {m : Node}
    (hm : m ∈ (annotated d root out out []).postorder) : Place d root m :=
  h.mem_annotated h (self_mem_postorder root) (Provided.root hout) (fun _ hg => absurd hg List.not_mem_nil) hm

end

end Node

end StarQuery
