import Mathlib.Logic.Relation
import StarQuery.Proofs.Naming.Drawn
import StarQuery.Proofs.Node.Bare
import StarQuery.Proofs.Scope.Invariants

/-!
# What the bottom-up pass finds

The sets of the bottom-up pass, said without the pass. The variables of a node are those that occur below it. Its dimensions are
those of them that have an occurrence in its reach: from a node one passes to its parts, but not into a reduction (only a reluctant
one can be passed, for the dimensions that are desired), not to the key or the filter of an update, and not to the value of an
update for a variable that its key holds. One node counts what its parts count (`mem_indexOf_step`), so a tree counts what is in
its reach (`mem_indexOf_withExtents`), whatever sets it had before. The checks of the pass hold of any reach, so the pass never fails.
-/

namespace StarQuery

open Relation

namespace Node

variable {o : Output} {x : Var} {n part : Node}

/-! ## The reach of a node -/

/-- From a node one passes to a part when looking for occurrences of `x` that are dimensions of the node. -/
inductive Passes : Output → Var → Node → Node → Prop where
  | joint {o : Output} {x : Var} {n part : Node} : n.isJoint = true → part ∈ n.children → Passes o x n part
  | base {o : Output} {x : Var} {i : VarInfo} {base key value : Node} {filter : Option Node} :
      Passes o x (.update i base key value filter) base
  /-- The key of an update captures its variables. -/
  | value {o : Output} {x : Var} {i : VarInfo} {base key value : Node} {filter : Option Node} :
      ¬ key.Holds x → Passes o x (.update i base key value filter) value
  | reduce {x : Var} {i : VarInfo} {op : Reducer} {arg : Node} : Passes .desired x (.reduce i op .reluctant arg) arg
  | scan {x : Var} {i : VarInfo} {op : Reducer} {arg : Node} : Passes .desired x (.scan i op .reluctant arg) arg

/-- An occurrence of `x` is in the reach of a node. -/
def Exposes (o : Output) (n : Node) (x : Var) : Prop := ∃ m, ReflTransGen (Passes o x) n m ∧ m.asVar? = some x

/-- An occurrence is in the reach of a node if it is the node, or in the reach of a part that one passes to. -/
theorem exposes_iff : n.Exposes o x ↔ n.asVar? = some x ∨ ∃ part, Passes o x n part ∧ part.Exposes o x := by
  constructor
  · rintro ⟨m, hm, hx⟩
    rcases ReflTransGen.cases_head hm with rfl | ⟨part, hpart, hm⟩
    · exact .inl hx
    · exact .inr ⟨part, hpart, m, hm, hx⟩
  · rintro (hx | ⟨part, hpart, m, hm, hx⟩)
    · exact ⟨n, .refl, hx⟩
    · exact ⟨m, .head hpart hm, hx⟩

/-- One passes to parts only. -/
theorem Passes.mem_children (h : Passes o x n part) : part ∈ n.children := by
  cases h with
  | joint _ hpart => exact hpart
  | base => exact base_mem_children
  | value => exact value_mem_children
  | reduce | scan => exact List.mem_cons_self

/-- What is in reach in any case is in reach where more is desired. -/
theorem Passes.desired (h : Passes o x n part) : Passes .desired x n part := by
  cases h with
  | joint hn hpart => exact .joint hn hpart
  | base => exact .base
  | value hkey => exact .value hkey
  | reduce => exact .reduce
  | scan => exact .scan

/-- An occurrence in reach in any case is in reach where more is desired. -/
theorem Exposes.desired (h : n.Exposes o x) : n.Exposes .desired x := by
  obtain ⟨m, hm, hx⟩ := h
  exact ⟨m, ReflTransGen.mono (fun _ _ hstep => hstep.desired) _ _ hm, hx⟩

/-- Passing from part to part one stays in the tree. -/
theorem mem_postorder_of_passes {m : Node} (h : ReflTransGen (Passes o x) n m) : m ∈ n.postorder := by
  induction h with
  | refl => exact self_mem_postorder n
  | tail _ hstep ih => exact mem_postorder_of_part ih hstep.mem_children

/-- What is in reach of a node occurs below it. -/
theorem Exposes.holds (h : n.Exposes o x) : n.Holds x := by
  obtain ⟨m, hm, hx⟩ := h
  exact ⟨m, mem_postorder_of_passes hm, hx⟩

/-! ## The parts in reach, form by form -/

/-- One passes to all parts of a node that ranges over whatever they range over. -/
theorem passes_iff_of_isJoint (hn : n.isJoint = true) : Passes o x n part ↔ part ∈ n.children :=
  ⟨Passes.mem_children, .joint hn⟩

/-- A node that ranges over whatever its parts range over is no variable. -/
theorem asVar?_of_isJoint (hn : n.isJoint = true) : n.asVar? = none := by
  cases n with
  | var => cases hn
  | _ => rfl

theorem not_passes_var {i : VarInfo} {v : Var} : ¬ Passes o x (.var i v) part :=
  fun h => absurd h.mem_children List.not_mem_nil

/-- One passes into a reduction only if it is reluctant, and more is desired. -/
theorem passes_reduce {i : VarInfo} {op : Reducer} {mode : Mode} {arg : Node} :
    Passes o x (.reduce i op mode arg) part ↔ o = .desired ∧ mode = .reluctant ∧ part = arg := by
  constructor
  · intro h
    cases h with
    | joint hn => cases hn
    | reduce => exact ⟨rfl, rfl, rfl⟩
  · rintro ⟨rfl, rfl, rfl⟩
    exact .reduce

/-- One passes into a scan only if it is reluctant, and more is desired. -/
theorem passes_scan {i : VarInfo} {op : Reducer} {mode : Mode} {arg : Node} :
    Passes o x (.scan i op mode arg) part ↔ o = .desired ∧ mode = .reluctant ∧ part = arg := by
  constructor
  · intro h
    cases h with
    | joint hn => cases hn
    | scan => exact ⟨rfl, rfl, rfl⟩
  · rintro ⟨rfl, rfl, rfl⟩
    exact .scan

/-- One passes to the base of an update, and to its value unless the key holds the variable. -/
theorem passes_update {i : VarInfo} {base key value : Node} {filter : Option Node} :
    Passes o x (.update i base key value filter) part ↔ part = base ∨ part = value ∧ ¬ key.Holds x := by
  constructor
  · intro h
    cases h with
    | joint hn => cases hn
    | base => exact .inl rfl
    | value hkey => exact .inr ⟨rfl, hkey⟩
  · rintro (rfl | ⟨rfl, hkey⟩)
    · exact .base
    · exact .value hkey

/-! ## One node -/

/-- The dimensions of a reduction are those of its argument, if they are desired and it is reluctant. -/
theorem mem_indexOf_reducedExtent {mode : Mode} {arg : Node} (h : n.info = reducedExtent mode arg) :
    x ∈ o.indexOf n ↔ o = .desired ∧ mode = .reluctant ∧ x ∈ o.indexOf arg := by
  cases o <;> cases mode <;> simp [Output.indexOf, h, reducedExtent]

/-- A node with its own extent has the dimensions that it is or that the parts one passes to have. -/
theorem mem_indexOf_step (hinfo : n.info = n.extent) (hvars : ∀ c ∈ n.children, x ∈ c.info.vars ↔ c.Holds x) :
    x ∈ o.indexOf n ↔ n.asVar? = some x ∨ ∃ part, Passes o x n part ∧ x ∈ o.indexOf part := by
  have hjoint : n.isJoint = true → (x ∈ o.indexOf n ↔ n.asVar? = some x ∨ ∃ part, Passes o x n part ∧ x ∈ o.indexOf part) := by
    intro hn
    rw [extent_joint hn] at hinfo
    simp only [asVar?_of_isJoint hn, passes_iff_of_isJoint hn, reduceCtorEq, false_or]
    cases o <;> simp only [Output.indexOf, hinfo, jointExtent, VarSet.mem_unions_map]
  cases n with
  | input | const | get | pointwise | hint | keySet => exact hjoint rfl
  | var i v =>
    simp only [not_passes_var, false_and, exists_false, or_false, asVar?, Option.some.injEq]
    cases o <;> simp only [Output.indexOf, hinfo, extent, VarSet.mem_single, eq_comm]
  | reduce i op mode arg => simp [mem_indexOf_reducedExtent hinfo, passes_reduce, asVar?, and_assoc]
  | scan i op mode arg => simp [mem_indexOf_reducedExtent hinfo, passes_scan, asVar?, and_assoc]
  | update i base key value filter =>
    have hkey := hvars key key_mem_children
    simp only [passes_update, asVar?, reduceCtorEq, false_or, or_and_right, exists_or, exists_eq_left, and_assoc]
    cases o <;> simp [Output.indexOf, hinfo, extent, hkey, and_comm]

/-! ## Trees after the pass -/

/-- The extent of a node is that of its parts, whatever sets it had before. -/
theorem extent_setInfo (n : Node) (i : VarInfo) : (n.setInfo i).extent = n.extent := by cases n <;> rfl

/-- After the pass every node has its own extent. -/
theorem info_withExtents (n : Node) : n.withExtents.info = n.withExtents.extent := by
  cases n <;> simp only [withExtents, settleExtent, info_setInfo, extent_setInfo]

/-- The same variables occur in a tree with no variable sets. -/
theorem holds_bare : n.bare.Holds x ↔ n.Holds x := by
  simp only [Holds, postorder_bare, List.mem_map, exists_exists_and_eq_and, asVar?_bare]

/-- The variables of a node after the pass are those that occur below it. -/
theorem mem_vars_iff_holds_withExtents : x ∈ n.withExtents.info.vars ↔ n.withExtents.Holds x := by
  rw [mem_vars_withExtents, ← holds_bare, ← bare_withExtents, holds_bare]

/-- The dimensions after the pass are the variables in the reach of the tree. -/
theorem mem_indexOf_withExtents : x ∈ o.indexOf n.withExtents ↔ n.withExtents.Exposes o x := by
  induction n using inductParts with
  | step n ih =>
    -- the parts of a tree after the pass are trees after the pass, with the right variables for the keys of updates
    have hparts : ∀ c ∈ n.withExtents.children, ∃ part ∈ n.children, part.withExtents = c := by
      intro c hc
      rwa [children_withExtents, List.mem_map] at hc
    have hvars : ∀ c ∈ n.withExtents.children, x ∈ c.info.vars ↔ c.Holds x := by
      intro c hc
      obtain ⟨part, -, rfl⟩ := hparts c hc
      exact mem_vars_iff_holds_withExtents
    rw [mem_indexOf_step (info_withExtents n) hvars, exposes_iff]
    refine or_congr_right (exists_congr fun c => and_congr_right fun hpass => ?_)
    obtain ⟨part, hpart, rfl⟩ := hparts c hpass.mem_children
    exact ih part hpart

/-- The pass leaves the variables and dimensions of a node, and no other sets. -/
theorem info_withExtents_eq (n : Node) :
    n.withExtents.info =
      { vars := n.withExtents.info.vars, mind := n.withExtents.info.mind, dims := n.withExtents.info.dims } := by
  rw [info_withExtents]
  cases n.withExtents <;> rfl

/-- The checks of the bottom-up pass find no breach, whatever the tree is. -/
theorem extentPass_eq_withExtents (t : NameTable) (n : Node) : n.extentPass t = .ok n.withExtents := by
  have hcheck : checkAll (checkExtent t "dims") n.withExtents.postorder = .ok () := by
    refine checkAll_ok fun m hm => ?_
    obtain ⟨y, -, rfl⟩ := mem_postorder_withExtents hm
    refine checkExtent_ok (fun x hx => ?_) fun x hx => ?_
    · have hmind : y.withExtents.Exposes .minimal x := mem_indexOf_withExtents.1 hx
      exact mem_indexOf_withExtents.2 hmind.desired
    · have hdims : y.withExtents.Exposes .desired x := mem_indexOf_withExtents.1 hx
      exact mem_vars_iff_holds_withExtents.2 hdims.holds
  rw [extentPass, hcheck]
  rfl

end Node

/-- The bottom-up pass succeeds on every tree, keeps it up to the variable sets, and leaves at every node

* the variables that occur anywhere below the node, in a filter too;
* as its dimensions in any case, the variables with an occurrence in reach of the node; as those it would like to have, the
  variables with an occurrence in reach if reluctant reductions are passed;
* and no other sets, whatever there was before. -/
theorem extents_are_occurrences_in_reach (t : NameTable) (n : Node) :
    ∃ root, n.extentPass t = .ok root ∧ root.bare = n.bare ∧ ∀ m ∈ root.postorder,
      (∀ x, (x ∈ m.info.vars ↔ m.Holds x) ∧ (x ∈ m.info.mind ↔ m.Exposes .minimal x) ∧
        (x ∈ m.info.dims ↔ m.Exposes .desired x)) ∧
      m.info = { vars := m.info.vars, mind := m.info.mind, dims := m.info.dims } := by
  refine ⟨n.withExtents, n.extentPass_eq_withExtents t, n.bare_withExtents, fun m hm => ?_⟩
  obtain ⟨y, -, rfl⟩ := Node.mem_postorder_withExtents hm
  exact ⟨fun x => ⟨Node.mem_vars_iff_holds_withExtents, Node.mem_indexOf_withExtents (o := .minimal),
    Node.mem_indexOf_withExtents (o := .desired)⟩, y.info_withExtents_eq⟩

/-- A reluctant sum under a computed key that also occurs in the sum, with sets from elsewhere. -/
def staleTotals : Node :=
  .update { vars := .single 5, free := .single 7 } (.const {} Json.empty) (.var {} 0)
    (.reduce { mind := .single 9 } ⟨.sum, false⟩ .reluctant (.pointwise {} .plus [.var {} 0, .var {} 1]))
    (some (.get {} (.keySet {} (.var {} 2)) (.var {} 0)))

/-- All three variables occur, the key captures the first, the sum folds the second away if it has to, and the third is in the
filter only. -/
theorem extents_of_staleTotals :
    ∃ root, staleTotals.extentPass {} = .ok root ∧ root ∈ root.postorder ∧
      root.info = { vars := .ofList [0, 1, 2], dims := .single 1 } ∧
      root.Exposes .desired 1 ∧ ¬ root.Exposes .minimal 1 ∧ ¬ root.Exposes .desired 0 ∧ root.Holds 2 := by
  obtain ⟨root, hpass, -, hsets⟩ := extents_are_occurrences_in_reach {} staleTotals
  have hroot : root.info = { vars := .ofList [0, 1, 2], dims := .single 1 } := by
    have hrun : staleTotals.extentPass {} = .ok staleTotals.withExtents := rfl
    cases hpass.symm.trans hrun
    rfl
  have hself := root.self_mem_postorder
  have hat := (hsets root hself).1
  rw [hroot] at hat
  exact ⟨root, hpass, hself, hroot, (hat 1).2.2.1 (by decide), mt (hat 1).2.1.2 (by decide), mt (hat 0).2.2.2 (by decide),
    (hat 2).1.1 (by decide)⟩

end StarQuery
