import Mathlib.Data.List.Basic
import StarQuery.Proofs.Node.Parts

/-!
# Trees without their variable sets

The passes fill in the variable sets of the nodes and change nothing else: without these sets, a tree after a pass is the tree
before it.
-/

namespace StarQuery

namespace Node

mutual
/-- A tree with no variable sets. -/
def bare : Node → Node
  | .input _ => .input {}
  | .const _ value => .const {} value
  | .var _ v => .var {} v
  | .get _ base key => .get {} (bare base) (bare key)
  | .pointwise _ op args => .pointwise {} op (listBare args)
  | .hint _ op args => .hint {} op (listBare args)
  | .keySet _ arg => .keySet {} (bare arg)
  | .reduce _ op mode arg => .reduce {} op mode (bare arg)
  | .scan _ op mode arg => .scan {} op mode (bare arg)
  | .update _ base key value filter => .update {} (bare base) (bare key) (bare value) (optionBare filter)
/-- A list of trees with no variable sets. -/
def listBare : List Node → List Node
  | [] => []
  | n :: rest => bare n :: listBare rest
/-- A tree that may be missing, with no variable sets. -/
def optionBare : Option Node → Option Node
  | none => none
  | some n => some (bare n)
end

/-- The trees of a list lose their variable sets one by one. -/
@[simp] theorem listBare_eq (ns : List Node) : listBare ns = ns.map bare := by
  induction ns with
  | nil => rfl
  | cons n rest ih => rw [listBare, ih, List.map_cons]

/-- A tree that may be missing loses its variable sets if it is there. -/
@[simp] theorem optionBare_eq (o : Option Node) : optionBare o = o.map bare := by
  cases o <;> rfl

/-- Which variable sets were set does not matter once they are lost. -/
@[simp] theorem bare_setInfo (n : Node) (i : VarInfo) : (n.setInfo i).bare = n.bare := by
  cases n <;> rfl

/-- A variable stays the variable that it is. -/
theorem asVar?_bare (n : Node) : n.bare.asVar? = n.asVar? := by
  cases n <;> rfl

/-- The parts lose their variable sets with the whole. -/
theorem children_bare (n : Node) : n.bare.children = n.children.map bare := by
  cases n with
  | update i base key value filter => cases filter <;> simp [bare, children]
  | _ => simp [bare, children]

/-- The nodes of a tree with no variable sets are those of the tree, without theirs. -/
theorem postorder_bare (n : Node) : n.bare.postorder = n.postorder.map bare := by
  induction n using inductParts with
  | step n ih =>
    rw [postorder_eq, postorder_eq, children_bare, List.map_append, List.map_flatMap, List.flatMap_map]
    exact congrArg (· ++ [n.bare]) (List.flatMap_congr ih)

/-- A node of a tree is a node of the tree with no variable sets, without its own. -/
theorem bare_mem_postorder {m n : Node} (h : m ∈ n.postorder) : m.bare ∈ n.bare.postorder := by
  rw [postorder_bare]
  exact List.mem_map_of_mem h

/-! ## The passes -/

/-- The bottom-up pass changes the variable sets only. -/
theorem bare_withExtents (n : Node) : n.withExtents.bare = n.bare := by
  induction n using Node.induct with
  | input | const | var => rfl
  | get i base key hbase hkey => simp [withExtents, settleExtent, bare, hbase, hkey]
  | pointwise i op args ih | hint i op args ih =>
    simp only [withExtents, settleExtent, bare_setInfo, bare, listBare_eq, listWithExtents_eq, List.map_map]
    exact congrArg _ (List.map_congr_left ih)
  | keySet i arg ih | reduce i op mode arg ih | scan i op mode arg ih => simp [withExtents, settleExtent, bare, ih]
  | update i base key value filter hbase hkey hvalue hfilter =>
    cases filter with
    | none => simp [withExtents, settleExtent, bare, hbase, hkey, hvalue]
    | some f => simp [withExtents, settleExtent, bare, hbase, hkey, hvalue, hfilter f rfl]

/-- The bound pass changes the variable sets only. -/
theorem bare_withBound (n : Node) (out : VarSet) : (n.withBound out).bare = n.bare := by
  induction n using Node.induct generalizing out with
  | input | const | var => rfl
  | get i base key hbase hkey => simp [withBound, setBound, bare, hbase, hkey]
  | pointwise i op args ih | hint i op args ih =>
    simp only [withBound, setBound, bare_setInfo, bare, listBare_eq, listWithBound_eq, List.map_map]
    exact congrArg _ (List.map_congr_left fun n hn => ih n hn out)
  | keySet i arg ih | reduce i op mode arg ih | scan i op mode arg ih => simp [withBound, setBound, bare, ih]
  | update i base key value filter hbase hkey hvalue hfilter =>
    cases filter with
    | none => simp [withBound, setBound, bare, optionWithBound, hbase, hkey, hvalue]
    | some f => simp [withBound, setBound, bare, optionWithBound, hbase, hkey, hvalue, hfilter f rfl]

/-- The free pass changes the variable sets only. -/
theorem bare_withFree (d : Dependencies) (n : Node) (out : VarSet) (path : List Grouping) :
    (n.withFree d out path).bare = n.bare := by
  induction n using Node.induct generalizing out path with
  | input | const | var => rfl
  | get i base key hbase hkey => simp [withFree, setJointFree, setFree, bare, hbase, hkey]
  | pointwise i op args ih | hint i op args ih =>
    simp only [withFree, setJointFree, setFree, bare_setInfo, bare, listBare_eq, listWithFree_eq, List.map_map]
    exact congrArg _ (List.map_congr_left fun n hn => ih n hn out path)
  | keySet i arg ih | reduce i op mode arg ih | scan i op mode arg ih =>
    simp [withFree, setJointFree, setFree, bare, ih]
  | update i base key value filter hbase hkey hvalue hfilter =>
    cases filter with
    | none => simp [withFree, setFree, bare, optionWithFree, hbase, hkey, hvalue]
    | some f => simp [withFree, setFree, bare, optionWithFree, hbase, hkey, hvalue, hfilter f rfl]

end Node

end StarQuery
