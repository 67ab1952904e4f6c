import StarQuery.Proofs.Node.Parts

/-!
# Measured trees

A measured tree is one as the bottom-up pass leaves it: the variables and dimensions of every node are those of its parts,
the key of every update is a variable, and a key that is computed does not occur in what it is computed from. Both passes
from the root down keep these sets.
-/

namespace StarQuery

namespace Node

/-- Whether a node ranges over whatever its parts range over: it neither is a variable nor gathers. -/
def isJoint : Node → Bool
  | .input .. | .const .. | .get .. | .pointwise .. | .hint .. | .keySet .. => true
  | _ => false

@[simp] theorem isJoint_setInfo (n : Node) (i : VarInfo) : (n.setInfo i).isJoint = n.isJoint := by cases n <;> rfl

@[simp] theorem isJoint_settleExtent (n : Node) : n.settleExtent.isJoint = n.isJoint := isJoint_setInfo n _

/-- Settling the extent of a node leaves its parts. -/
@[simp] theorem children_settleExtent (n : Node) : n.settleExtent.children = n.children := children_setInfo n _

/-! ## Measured trees -/

/-- A variable as the bottom-up pass leaves it. -/
def measuredVar (v : Var) : Node := (Node.var {} v).settleExtent

/-- The filter of an update by a computed key, as the bottom-up pass leaves it. -/
def measuredFilter (body : Node) (v : Var) : Node :=
  (Node.get {} (Node.keySet {} body).settleExtent (measuredVar v)).settleExtent

/-- A tree as the bottom-up pass leaves it, whose updates have variables for keys. -/
inductive Measured : Node → Prop where
  | var (v : Var) : Measured (measuredVar v)
  | joint {n : Node} : n.isJoint = true → (∀ c ∈ n.children, Measured c) → Measured n.settleExtent
  | reduce {op : Reducer} {mode : Mode} {arg : Node} : Measured arg → Measured (Node.reduce {} op mode arg).settleExtent
  | scan {op : Reducer} {mode : Mode} {arg : Node} : Measured arg → Measured (Node.scan {} op mode arg).settleExtent
  /-- An update by a variable of the query. -/
  | named {base value : Node} {v : Var} :
      Measured base → Measured value → Measured (Node.update {} base (measuredVar v) value none).settleExtent
  /-- An update by a key that is computed, and does not occur in what it is computed from. -/
  | keyed {base body value : Node} {v : Var} : Measured base → Measured body → Measured value → ¬ v ∈ body.info.vars →
      Measured (Node.update {} base (measuredVar v) value (some (measuredFilter body v))).settleExtent

/-- The extent of a node that ranges over whatever its parts range over. -/
theorem extent_joint {n : Node} (h : n.isJoint = true) : n.extent = jointExtent n.children := by
  cases n <;> first | rfl | nomatch h

/-- The variable sets of a node that ranges over whatever its parts range over are the unions of theirs. -/
theorem info_settleExtent_joint {n : Node} (h : n.isJoint = true) : n.settleExtent.info = jointExtent n.children := by
  rw [settleExtent, info_setInfo, extent_joint h]

/-- The set of one variable of a filter's key and body: what the body has, and the key. -/
theorem mem_vars_measuredFilter {body : Node} {v w : Var} :
    w ∈ (measuredFilter body v).info.vars ↔ w ∈ body.info.vars ∨ w = v := by
  simp [measuredFilter, measuredVar, settleExtent, extent, jointExtent, setInfo, info, VarSet.unions]

/-- What a filter has in any case is what its body has, and its key. -/
theorem mem_mind_measuredFilter {body : Node} {v w : Var} :
    w ∈ (measuredFilter body v).info.mind ↔ w ∈ body.info.mind ∨ w = v := by
  simp [measuredFilter, measuredVar, settleExtent, extent, jointExtent, setInfo, info, VarSet.unions]

/-- What a filter would like to have is what its body would like to have, and its key. -/
theorem mem_dims_measuredFilter {body : Node} {v w : Var} :
    w ∈ (measuredFilter body v).info.dims ↔ w ∈ body.info.dims ∨ w = v := by
  simp [measuredFilter, measuredVar, settleExtent, extent, jointExtent, setInfo, info, VarSet.unions]

namespace Measured

/-- The filter of an update by a computed key is measured like any other lookup. -/
theorem filter {body : Node} (h : Measured body) (v : Var) : Measured (measuredFilter body v) := by
  refine joint rfl fun c hc => ?_
  simp only [children, List.mem_cons, List.not_mem_nil, or_false] at hc
  rcases hc with rfl | rfl
  · refine joint rfl fun c hc => ?_
    rw [List.mem_singleton.1 hc]
    exact h
  · exact var v

/-- What a node has in any case is among what it would like to have. -/
theorem mind_subset_dims {n : Node} (h : Measured n) : n.info.mind ⊆ n.info.dims := by
  rw [VarSet.subset_iff]
  induction h with
  | var v => exact fun w hw => hw
  | joint hn _ ih =>
    intro v hv
    rw [info_settleExtent_joint hn] at hv ⊢
    simp only [jointExtent, VarSet.mem_unions_map] at hv ⊢
    obtain ⟨c, hc, hv⟩ := hv
    exact ⟨c, hc, ih c hc v hv⟩
  | reduce | scan => exact fun v hv => absurd hv (VarSet.not_mem_empty v)
  | named _ _ hbase hvalue | keyed _ _ _ _ hbase _ hvalue =>
    intro v hv
    simp only [settleExtent, info_setInfo, extent, VarSet.mem_union, VarSet.mem_sdiff] at hv ⊢
    exact hv.imp (hbase v) (And.imp_left (hvalue v))

/-- What a node would like to have is among the variables that occur in it. -/
theorem dims_subset_vars {n : Node} (h : Measured n) : n.info.dims ⊆ n.info.vars := by
  rw [VarSet.subset_iff]
  induction h with
  | var v => exact fun w hw => hw
  | joint hn _ ih =>
    intro v hv
    rw [info_settleExtent_joint hn] at hv ⊢
    simp only [jointExtent, VarSet.mem_unions_map] at hv ⊢
    obtain ⟨c, hc, hv⟩ := hv
    exact ⟨c, hc, ih c hc v hv⟩
  | @reduce _ mode _ _ ih | @scan _ mode _ _ ih =>
    intro v hv
    cases mode with
    | eager => exact absurd hv (VarSet.not_mem_empty v)
    | reluctant => exact ih v hv
  | named _ _ hbase hvalue | keyed _ _ _ _ hbase _ hvalue =>
    intro v hv
    simp only [settleExtent, info_setInfo, extent, VarSet.mem_union, VarSet.mem_sdiff, VarSet.mem_unions_map] at hv ⊢
    rcases hv with hv | ⟨hv, _⟩
    · exact ⟨_, by simp, hbase v hv⟩
    · exact ⟨_, by simp, hvalue v hv⟩

/-- The bottom-up pass leaves no variable bound or free. -/
theorem scopeless {n : Node} (h : Measured n) : n.info.bound = ∅ ∧ n.info.allBound = ∅ ∧ n.info.free = ∅ := by
  cases h with
  | joint hn _ => rw [info_settleExtent_joint hn]; exact ⟨rfl, rfl, rfl⟩
  | _ => exact ⟨rfl, rfl, rfl⟩

/-- The parts of a measured node are measured. -/
theorem of_mem_children {n c : Node} (h : Measured n) (hc : c ∈ n.children) : Measured c := by
  cases h with
  | var => cases hc
  | joint _ hparts =>
    rw [children_settleExtent] at hc
    exact hparts c hc
  | reduce harg | scan harg => exact List.mem_singleton.1 hc ▸ harg
  | @named base value v hbase hvalue =>
    rw [children_settleExtent, mem_children_update] at hc
    rcases hc with rfl | rfl | rfl | hc
    · exact hbase
    · exact .var v
    · exact hvalue
    · cases hc
  | @keyed base body value v hbase hbody hvalue _ =>
    rw [children_settleExtent, mem_children_update] at hc
    rcases hc with rfl | rfl | rfl | hc
    · exact hbase
    · exact .var v
    · exact hvalue
    · cases hc
      exact hbody.filter v

/-- Every node of a measured tree is measured. -/
theorem mem_postorder {n m : Node} (h : Measured n) (hm : m ∈ n.postorder) : Measured m := by
  induction n using inductParts with
  | step n ih =>
    rcases Node.mem_postorder.1 hm with rfl | ⟨c, hc, hmc⟩
    · exact h
    · exact ih c hc (h.of_mem_children hc) hmc

end Measured

/-- The variables of a part occur in the whole. -/
theorem vars_settleExtent {n c : Node} (hc : c ∈ n.children) {v : Var} (hv : v ∈ c.info.vars) :
    v ∈ n.settleExtent.info.vars := by
  cases n with
  | input | const | var => cases hc
  | update i base key value filter =>
    simp only [settleExtent, info_setInfo, extent, VarSet.mem_unions_map]
    exact ⟨c, hc, hv⟩
  | reduce i op mode arg | scan i op mode arg =>
    rw [List.mem_singleton.1 hc] at hv
    exact hv
  | _ =>
    rw [info_settleExtent_joint rfl, jointExtent, VarSet.mem_unions_map]
    exact ⟨c, hc, hv⟩

/-- The variables of a node of a measured tree occur in the tree. -/
theorem Measured.vars_subset {root n : Node} (h : Measured root) (hn : n ∈ root.postorder) :
    n.info.vars ⊆ root.info.vars := by
  intro v hv
  induction root using inductParts with
  | step root ih =>
    rcases Node.mem_postorder.1 hn with rfl | ⟨c, hc, hnc⟩
    · exact hv
    · have hcv := ih c hc (h.of_mem_children hc) hnc
      obtain ⟨m, rfl⟩ : ∃ m : Node, root = m.settleExtent := by
        cases h <;> exact ⟨_, rfl⟩
      rw [children_settleExtent] at hc
      exact vars_settleExtent hc hcv

end Node

end StarQuery
