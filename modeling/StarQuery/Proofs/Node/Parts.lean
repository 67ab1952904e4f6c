import StarQuery.Scope.Closing
import StarQuery.Scope.Extent

/-!
# The parts of a node

The two traversals list the same nodes: a node itself and whatever is below one of its parts (`mem_postorder`,
`mem_scopeOrder`). The passes rebuild a tree part by part, so they act on lists of arguments and on filters one by one.
-/

namespace StarQuery

@[simp] theorem VarSet.unions_nil : VarSet.unions [] = ∅ := rfl

theorem VarSet.empty_union (s : VarSet) : ∅ ∪ s = s := VarSet.ext fun v => by simp

/-- A variable is in one of the sets that the members of a list have. -/
theorem VarSet.mem_unions_map {α : Type} {f : α → VarSet} {xs : List α} {v : Var} :
    v ∈ VarSet.unions (xs.map f) ↔ ∃ x ∈ xs, v ∈ f x := by
  rw [mem_unions]
  constructor
  · rintro ⟨s, hs, hv⟩
    obtain ⟨x, hx, rfl⟩ := List.mem_map.1 hs
    exact ⟨x, hx, hv⟩
  · rintro ⟨x, hx, hv⟩
    exact ⟨f x, List.mem_map_of_mem hx, hv⟩

namespace Node

/-! ## Traversals -/

/-- The nodes of a list of trees are those of its trees in order. -/
theorem listPostorder_eq (ns : List Node) : listPostorder ns = ns.flatMap postorder := by
  induction ns with
  | nil => rfl
  | cons n rest ih => rw [listPostorder, ih, List.flatMap_cons]

/-- The nodes of a tree are those of its parts, and itself last. -/
theorem postorder_eq (n : Node) : n.postorder = n.children.flatMap postorder ++ [n] := by
  cases n with
  | update i base key value filter => cases filter <;> simp [postorder, optionPostorder, children]
  | _ => simp [postorder, children, listPostorder_eq]

/-- A node is in a tree if it is the root, or in one of the parts. -/
theorem mem_postorder {m n : Node} : m ∈ n.postorder ↔ m = n ∨ ∃ c ∈ n.children, m ∈ c.postorder := by
  rw [postorder_eq, List.mem_append, List.mem_flatMap, List.mem_singleton, or_comm]

theorem self_mem_postorder (n : Node) : n ∈ n.postorder := mem_postorder.2 (Or.inl rfl)

theorem mem_postorder_of_mem_children {m c n : Node} (hc : c ∈ n.children) (hm : m ∈ c.postorder) : m ∈ n.postorder :=
  mem_postorder.2 (Or.inr ⟨c, hc, hm⟩)

/-- Induction on nodes without regard to their form: what holds of a node whenever it holds of its parts holds of every
node. -/
theorem inductParts {motive : Node → Prop} (step : ∀ n, (∀ c ∈ n.children, motive c) → motive n) (n : Node) : motive n := by
  induction n using Node.induct with
  | input | const | var => exact step _ fun c hc => absurd hc List.not_mem_nil
  | get i base key hbase hkey =>
    refine step _ fun c hc => ?_
    simp only [children, List.mem_cons, List.not_mem_nil, or_false] at hc
    rcases hc with rfl | rfl
    · exact hbase
    · exact hkey
  | pointwise i op args hargs | hint i op args hargs => exact step _ hargs
  | keySet i arg harg | reduce i op mode arg harg | scan i op mode arg harg =>
    exact step _ fun c hc => List.mem_singleton.1 hc ▸ harg
  | update i base key value filter hbase hkey hvalue hfilter =>
    refine step _ fun c hc => ?_
    simp only [children, List.mem_append, List.mem_cons, List.not_mem_nil, or_false, Option.mem_toList] at hc
    rcases hc with (rfl | rfl | rfl) | hc
    · exact hbase
    · exact hkey
    · exact hvalue
    · exact hfilter c hc

/-- The nodes below a node of a tree are nodes of the tree. -/
theorem mem_postorder_trans {l m n : Node} (hl : l ∈ m.postorder) (hm : m ∈ n.postorder) : l ∈ n.postorder := by
  induction n using inductParts with
  | step n ih =>
    rcases mem_postorder.1 hm with rfl | ⟨c, hc, hmc⟩
    · exact hl
    · exact mem_postorder_of_mem_children hc (ih c hc hmc)

/-- The parts of the nodes of a tree are nodes of the tree. -/
theorem mem_postorder_of_part {c m n : Node} (hm : m ∈ n.postorder) (hc : c ∈ m.children) : c ∈ n.postorder :=
  mem_postorder_trans (mem_postorder_of_mem_children hc (self_mem_postorder c)) hm

theorem mem_children_get {i : VarInfo} {base key c : Node} : c ∈ (Node.get i base key).children ↔ c = base ∨ c = key := by
  simp [children]

/-- An update has three parts, and its filter if there is one. -/
theorem mem_children_update {i : VarInfo} {base key value c : Node} {filter : Option Node} :
    c ∈ (Node.update i base key value filter).children ↔ c = base ∨ c = key ∨ c = value ∨ filter = some c := by
  cases filter <;> simp [children, eq_comm]

section
variable {i : VarInfo} {base key value f : Node} {filter : Option Node}

theorem base_mem_children : base ∈ (Node.update i base key value filter).children := mem_children_update.2 (.inl rfl)

theorem key_mem_children : key ∈ (Node.update i base key value filter).children := mem_children_update.2 (.inr (.inl rfl))

theorem value_mem_children : value ∈ (Node.update i base key value filter).children :=
  mem_children_update.2 (.inr (.inr (.inl rfl)))

theorem filter_mem_children : f ∈ (Node.update i base key value (some f)).children :=
  mem_children_update.2 (.inr (.inr (.inr rfl)))

end

/-- The scope passes go through a list of trees in its order. -/
theorem listScopeOrder_eq (ns : List Node) : listScopeOrder ns = ns.flatMap scopeOrder := by
  induction ns with
  | nil => rfl
  | cons n rest ih => rw [listScopeOrder, ih, List.flatMap_cons]

/-- The order in which the scope passes finish the nodes lists the same nodes as the other traversal. -/
theorem mem_scopeOrder {m n : Node} : m ∈ n.scopeOrder ↔ m ∈ n.postorder := by
  induction n using Node.induct with
  | input | const | var => rfl
  | get i base key hbase hkey => simp [scopeOrder, postorder, hbase, hkey]
  | pointwise i op args hargs | hint i op args hargs =>
    simp only [scopeOrder, postorder, listScopeOrder_eq, listPostorder_eq, List.mem_append, List.mem_flatMap]
    exact or_congr (exists_congr fun c => and_congr_right (hargs c)) Iff.rfl
  | keySet i arg harg | reduce i op mode arg harg | scan i op mode arg harg => simp [scopeOrder, postorder, harg]
  | update i base key value filter hbase hkey hvalue hfilter =>
    cases filter with
    | none => simp [scopeOrder, postorder, optionScopeOrder, optionPostorder, hbase, hkey, hvalue]
    | some filter =>
      have hf := hfilter filter rfl
      simp only [scopeOrder, postorder, optionScopeOrder, optionPostorder, List.mem_append, hbase, hkey, hvalue, hf]
      grind

/-! ## Changing the variable sets of a node -/

@[simp] theorem info_input (i : VarInfo) : (Node.input i).info = i := rfl

@[simp] theorem info_const (i : VarInfo) (value : Json) : (Node.const i value).info = i := rfl

@[simp] theorem info_var (i : VarInfo) (v : Var) : (Node.var i v).info = i := rfl

@[simp] theorem info_get (i : VarInfo) (base key : Node) : (Node.get i base key).info = i := rfl

@[simp] theorem info_pointwise (i : VarInfo) (op : Pointwise) (args : List Node) :
    (Node.pointwise i op args).info = i := rfl

@[simp] theorem info_hint (i : VarInfo) (op : String) (args : List Node) : (Node.hint i op args).info = i := rfl

@[simp] theorem info_keySet (i : VarInfo) (arg : Node) : (Node.keySet i arg).info = i := rfl

@[simp] theorem info_reduce (i : VarInfo) (op : Reducer) (mode : Mode) (arg : Node) :
    (Node.reduce i op mode arg).info = i := rfl

@[simp] theorem info_scan (i : VarInfo) (op : Reducer) (mode : Mode) (arg : Node) :
    (Node.scan i op mode arg).info = i := rfl

@[simp] theorem info_update (i : VarInfo) (base key value : Node) (filter : Option Node) :
    (Node.update i base key value filter).info = i := rfl

/-- What was set is what is read. -/
@[simp] theorem info_setInfo (n : Node) (i : VarInfo) : (n.setInfo i).info = i := by cases n <;> rfl

/-- Setting the variable sets of a node leaves its parts. -/
@[simp] theorem children_setInfo (n : Node) (i : VarInfo) : (n.setInfo i).children = n.children := by cases n <;> rfl

/-- Setting the variable sets of a node leaves it the variable that it is. -/
@[simp] theorem asVar?_setInfo (n : Node) (i : VarInfo) : (n.setInfo i).asVar? = n.asVar? := by cases n <;> rfl

/-! ## The passes on lists and filters -/

/-- The bottom-up pass goes through each of a list of nodes. -/
@[simp] theorem listWithExtents_eq (ns : List Node) : listWithExtents ns = ns.map withExtents := by
  induction ns with
  | nil => rfl
  | cons n rest ih => rw [listWithExtents, ih, List.map_cons]

/-- The bottom-up pass goes through a filter if there is one. -/
@[simp] theorem optionWithExtents_eq (o : Option Node) : optionWithExtents o = o.map withExtents := by
  cases o <;> rfl

/-- The pass for bound variables goes through each of a list of nodes, with the same set from outside. -/
@[simp] theorem listWithBound_eq (ns : List Node) (out : VarSet) :
    listWithBound ns out = ns.map (withBound · out) := by
  induction ns with
  | nil => rfl
  | cons n rest ih => rw [listWithBound, ih, List.map_cons]

/-- The pass for free variables goes through each of a list of nodes, in the same surroundings. -/
@[simp] theorem listWithFree_eq (d : Dependencies) (ns : List Node) (out : VarSet) (path : List Grouping) :
    listWithFree d ns out path = ns.map (withFree d · out path) := by
  induction ns with
  | nil => rfl
  | cons n rest ih => rw [listWithFree, ih, List.map_cons]

end Node

end StarQuery
