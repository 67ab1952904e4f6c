import StarQuery.Proofs.Machine.Values
import StarQuery.Proofs.Scope.Invariants

/-!
# What an aggregate has suffices for its parts

The parts of an aggregate that give it its first state need what the aggregate takes from around it, those that step it need
besides what it loops over (`Measured.supplied_closed`). Where what a node takes from around it is bound, nothing is reported
on its expression (`Measured.exprReports_closed`).
-/

namespace StarQuery

namespace Program

/-- The parts of an aggregate that give it its first state. -/
def firstNodes : Node → List Node
  | .update _ base _ _ _ => [base]
  | _ => []

/-- The parts of an aggregate that step it. -/
def actionNodes : Node → List Node
  | .reduce _ _ _ arg | .scan _ _ _ arg => [arg]
  | .update _ _ key value _ => keyNodes key ++ [value]
  | _ => []

/-- The parts that give an aggregate its first state are nodes of its tree. -/
theorem mem_postorder_of_mem_firstNodes {n c : Node} (h : c ∈ firstNodes n) : c ∈ n.postorder := by
  cases n with
  | update =>
    rw [List.mem_singleton.1 h]
    exact Node.mem_postorder_of_part (Node.self_mem_postorder _) Node.base_mem_children
  | _ => cases h

/-- The keys that a key consists of are nodes of its tree. -/
theorem mem_postorder_of_mem_keyNodes {key c : Node} (h : c ∈ keyNodes key) : c ∈ key.postorder := by
  unfold keyNodes at h
  split at h
  · exact Node.mem_postorder_of_part (Node.self_mem_postorder _) h
  · rw [List.mem_singleton.1 h]
    exact Node.self_mem_postorder _

/-- The parts that step an aggregate are nodes of its tree. -/
theorem mem_postorder_of_mem_actionNodes {n c : Node} (h : c ∈ actionNodes n) : c ∈ n.postorder := by
  cases n with
  | reduce | scan => exact Node.mem_postorder_of_part (Node.self_mem_postorder _) h
  | update =>
    rcases List.mem_append.1 h with h | h
    · exact Node.mem_postorder_of_mem_children Node.key_mem_children (mem_postorder_of_mem_keyNodes h)
    · rw [List.mem_singleton.1 h]
      exact Node.mem_postorder_of_part (Node.self_mem_postorder _) Node.value_mem_children
  | _ => cases h

/-- What an aggregate takes from around it suffices for its first state, and with its own loops for its steps. -/
structure Supplied (n : Node) : Prop where
  first : ∀ c ∈ firstNodes n, c.info.free ⊆ n.info.free
  action : ∀ c ∈ actionNodes n, c.info.free ⊆ n.info.free ∪ n.info.bound

/-- What is no aggregate has no such parts. -/
theorem Supplied.of_not_gathers {n : Node} (h : n.gathers = false) : Supplied n := by
  cases n with
  | reduce | scan | update => cases h
  | _ => exact ⟨fun _ hc => absurd hc List.not_mem_nil, fun _ hc => absurd hc List.not_mem_nil⟩

/-- Nothing is reported on the first state of an aggregate if nothing is on the parts that give it. -/
theorem firstReports_eq_nil {s : Setting} {env : VarSet} {n : Node} (h : ∀ c ∈ firstNodes n, exprReports s env c = []) :
    firstReports s env n = [] := by
  cases n with
  | update => exact h _ List.mem_cons_self
  | _ => rfl

/-- Nothing is reported on the steps of an aggregate if nothing is on the parts that make them. -/
theorem actionReports_eq_nil {s : Setting} {env : VarSet} {n : Node} (h : ∀ c ∈ actionNodes n, exprReports s env c = []) :
    actionReports s env n = [] := by
  cases n with
  | reduce | scan => exact h _ List.mem_cons_self
  | update i base key value filter =>
    rw [actionReports, listReports_eq_nil.2 fun c hc => h c (List.mem_append_left _ hc), List.nil_append]
    exact h value (List.mem_append_right _ List.mem_cons_self)
  | _ => rfl

end Program

namespace Node

open Program

variable {d : Dependencies} {outB outF : VarSet} {path : List Grouping}

/-! ## The parts of aggregates -/

/-- What is needed below and provided, or to be looped over and not provided, an aggregate takes or loops over. -/
theorem mem_needed_or_bound {s below : VarSet} {v : Var} (hbelow : v ∈ below) (hs : v ∈ outF ∨ v ∈ s)
    (hout : v ∈ s → v ∈ outB → v ∈ outF) : v ∈ needed d (s \ outB) below outF path ∪ (s \ outB) := by
  by_cases hF : v ∈ outF
  · exact VarSet.mem_union.2 (.inl (mem_needed.2 ⟨.inr (.inl hbelow), hF⟩))
  · have hv := hs.resolve_left hF
    exact VarSet.mem_union.2 (.inr (VarSet.mem_sdiff.2 ⟨hv, fun hB => hF (hout hv hB)⟩))

/-- The argument of a reduction needs what the reduction takes or loops over. -/
theorem Measured.free_arg {arg : Node} (h : Measured arg) (hvars : ∀ v ∈ arg.info.vars, v ∈ outB → v ∈ outF) {v : Var}
    (hv : v ∈ (annotated d arg (outB ∪ arg.info.dims) (outF ∪ arg.info.dims) path).info.free) :
    v ∈ needed d (arg.info.dims \ outB)
      (annotated d arg (outB ∪ arg.info.dims) (outF ∪ arg.info.dims) path).info.free outF path ∪
        (arg.info.dims \ outB) := by
  refine mem_needed_or_bound hv ?_ fun hdims => hvars v (h.dims_subset_vars v hdims)
  rcases h.free_subset hv with hout | hmind
  · exact VarSet.mem_union.1 hout
  · exact .inr (h.mind_subset_dims v hmind)

/-- The base, the key and the value of an update need what the update takes or loops over, whatever its filter needs. -/
theorem Provided.supplied {b x : Node} {v : Var} {filter : Option Node}
    (hp : Provided (Node.update {} b (measuredVar v) x filter).settleExtent outB outF) (hb : Measured b) (hx : Measured x)
    {i : VarInfo} {path' : List Grouping} {filter' : Option Node} {rest : VarSet} (hbound : i.bound = .single v \ outB)
    (hfree : i.free = needed d (.single v \ outB)
      (.unions [(annotated d b outB outF path).info.free, .single v,
        (annotated d x (outB ∪ .single v) (outF ∪ .single v) path').info.free, rest]) outF path) :
    Supplied (.update i (annotated d b outB outF path) (keyVar v)
      (annotated d x (outB ∪ .single v) (outF ∪ .single v) path') filter') := by
  have hkey : ∀ w ∈ VarSet.single v, w ∈ outB → w ∈ outF := fun w hw =>
    hp.vars_out w (vars_settleExtent (c := measuredVar v) key_mem_children hw)
  refine ⟨fun c hc w hw => ?_, fun c hc w hw => ?_⟩
  · rw [List.mem_singleton.1 hc] at hw
    change w ∈ i.free
    rw [hfree]
    refine mem_needed.2 ⟨.inr (.inl (VarSet.mem_unions.2 ⟨_, List.mem_cons_self, hw⟩)), ?_⟩
    exact (hb.free_subset hw).elim id (hp.base.mind_out w)
  · change w ∈ i.free ∪ i.bound
    rw [hfree, hbound]
    rcases List.mem_append.1 hc with hc | hc
    · rw [List.mem_singleton.1 hc] at hw
      refine mem_needed_or_bound (VarSet.mem_unions.2 ⟨_, ?_, hw⟩) (.inr hw) (hkey w)
      exact List.mem_cons_of_mem _ List.mem_cons_self
    · rw [List.mem_singleton.1 hc] at hw
      refine mem_needed_or_bound (VarSet.mem_unions.2 ⟨_, ?_, hw⟩) ?_ (hkey w)
      · exact List.mem_cons_of_mem _ (List.mem_cons_of_mem _ List.mem_cons_self)
      · rcases hx.free_subset hw with hout | hmind
        · exact VarSet.mem_union.1 hout
        · exact VarSet.mem_union.1 (hp.value.mind_out w hmind)

/-- An aggregate that both passes reached with budgets that suit it supplies its parts. -/
theorem Measured.supplied_annotated {n : Node} (h : Measured n) (hp : Provided n outB outF) :
    Supplied (annotated d n outB outF path) := by
  cases h with
  | var => exact .of_not_gathers rfl
  | @joint m hjoint _ =>
    refine .of_not_gathers ?_
    rw [gathers_annotated]
    cases m with
    | reduce | scan | update => cases hjoint
    | _ => rfl
  | reduce harg =>
    rw [annotated_reduce]
    refine ⟨fun _ hc => absurd hc List.not_mem_nil, fun c hc => ?_⟩
    rw [List.mem_singleton.1 hc]
    exact fun v => harg.free_arg hp.vars_out
  | scan harg =>
    rw [annotated_scan]
    refine ⟨fun _ hc => absurd hc List.not_mem_nil, fun c hc => ?_⟩
    rw [List.mem_singleton.1 hc]
    exact fun v => harg.free_arg hp.vars_out
  | named hbase hvalue =>
    rw [annotated_named]
    exact hp.supplied hbase hvalue rfl rfl
  | keyed hbase _ hvalue _ =>
    rw [annotated_keyed]
    exact hp.supplied hbase hvalue rfl rfl

/-- The grouping around a root supplies its parts. -/
theorem Measured.supplied_groupedBy {root : Node} (h : Measured root) {out : VarSet} (hout : root.info.mind ⊆ out) :
    Supplied ((annotated d root out out []).groupedBy out) := by
  refine ⟨fun c hc w hw => ?_, fun c hc w hw => VarSet.mem_union.2 (.inr ?_)⟩
  · rw [List.mem_singleton.1 hc] at hw
    exact hw
  · rcases List.mem_append.1 hc with hc | hc
    · obtain ⟨v, hv, rfl⟩ := List.mem_map.1 hc
      rw [VarSet.mem_single.1 hw]
      exact hv
    · rw [List.mem_singleton.1 hc] at hw
      exact (h.free_subset hw).elim id (hout w)

/-- Every node of a closed tree supplies its parts. -/
theorem Measured.supplied_closed {root : Node} (h : Measured root) {out : VarSet} (hout : root.info.mind ⊆ out) {m : Node}
    (hm : m ∈ (closed d root out).postorder) : Supplied m := by
  rcases mem_closed hm with hm | rfl | rfl | rfl | ⟨v, -, rfl⟩
  · cases h.mem_annotated_root hout hm with
    | inside hn hp _ => exact (h.mem_postorder hn).supplied_annotated hp
    | key v => exact .of_not_gathers rfl
    | filter => exact .of_not_gathers rfl
  · exact h.supplied_groupedBy hout
  all_goals exact .of_not_gathers rfl

/-! ## Expressions without reports -/

variable {s : Setting} {env : VarSet}

/-- Nothing is reported on a node that is no aggregate and no variable if nothing is on its parts. -/
theorem exprReports_joint {n : Node} (hn : n.isJoint = true) (h : ∀ c ∈ n.children, exprReports s env c = []) :
    exprReports s env n = [] := by
  cases n with
  | var | reduce | scan | update => cases hn
  | input | const | hint => rfl
  | get i base key =>
    rw [exprReports, h base (mem_children_get.2 (.inl rfl)), h key (mem_children_get.2 (.inr rfl)), List.nil_append]
  | pointwise i op args => exact listReports_eq_nil.2 h
  | keySet i arg => exact h arg List.mem_cons_self

/-- An aggregate is read by what it takes from around it. -/
theorem exprReports_eq_nil_of_gathers {n : Node} (hn : n.gathers = true) (h : n.info.free ⊆ env) :
    exprReports s env n = [] := by
  rw [exprReports_gathers hn, List.flatMap_eq_nil_iff]
  exact fun v hv => varReports_eq_nil.2 (h v hv)

/-- Nothing is reported on a key that is bound. -/
theorem exprReports_keyVar {v : Var} (h : v ∈ env) : exprReports s env (keyVar v) = [] := varReports_eq_nil.2 h

/-- Where what a node takes from around it is bound, nothing is reported on its expression. -/
theorem Measured.exprReports_annotated {n : Node} (h : Measured n) (hfree : (annotated d n outB outF path).info.free ⊆ env) :
    exprReports s env (annotated d n outB outF path) = [] := by
  induction h generalizing outB outF path with
  | var v => exact exprReports_keyVar (hfree v (VarSet.mem_single.2 rfl))
  | @joint m hjoint _ ih =>
    obtain ⟨hchildren, hj, -, -, hunions⟩ := annotated_joint d outB outF path ((isJoint_settleExtent m).trans hjoint)
    rw [children_settleExtent] at hchildren hunions
    refine exprReports_joint hj fun c hc => ?_
    rw [hchildren] at hc
    obtain ⟨part, hpart, rfl⟩ := List.mem_map.1 hc
    refine ih part hpart fun v hv => hfree v ?_
    rw [hunions, VarSet.mem_toList, VarSet.mem_unions_map]
    exact ⟨part, hpart, hv⟩
  | reduce | scan | named | keyed =>
    exact exprReports_eq_nil_of_gathers ((gathers_annotated d outB outF path _).trans rfl) hfree

/-- In a closed tree, nothing is reported on a node where what it takes from around it is bound. -/
theorem Measured.exprReports_closed {root : Node} (h : Measured root) {out : VarSet} (hout : root.info.mind ⊆ out) {m : Node}
    (hm : m ∈ (closed d root out).postorder) (hfree : m.info.free ⊆ env) : exprReports s env m = [] := by
  rcases mem_closed hm with hm | rfl | rfl | rfl | ⟨v, -, rfl⟩
  · cases h.mem_annotated_root hout hm with
    | inside hn => exact (h.mem_postorder hn).exprReports_annotated hfree
    | key v => exact exprReports_keyVar (hfree v (VarSet.mem_single.2 rfl))
    | filter hroot => exact (h.mem_postorder hroot).exprReports_annotated hfree
  · exact exprReports_eq_nil_of_gathers rfl hfree
  · rfl
  · refine exprReports_joint rfl fun c hc => ?_
    obtain ⟨v, hv, rfl⟩ := List.mem_map.1 hc
    exact exprReports_keyVar (hfree v hv)
  · exact exprReports_keyVar (hfree v (VarSet.mem_single.2 rfl))

end Node

end StarQuery
