import StarQuery.Proofs.Catalogue
import StarQuery.Proofs.Direct.Draws
import StarQuery.Proofs.Json.Rows
import StarQuery.Proofs.Node.Parts
import StarQuery.Scope.Closing

/-!
# The grouping around a root

A root whose result is indexed by variables is grouped by them. Each binding of these variables gives a row: the texts that the
values of the variables lead along, and the value of the root. The value of the grouping is what the rows make up
(`Direct.aggregateWith_groupedBy`).
-/

namespace StarQuery

/-- A grouping around a root looks up no variable that the root does not. -/
theorem Node.filters_groupedBy (out : VarSet) (root : Node) : (root.groupedBy out).filters = root.filters := by
  have hconst : (Node.const {} Json.empty).filters = [] := rfl
  have hkey : ∀ i, (Node.pointwise i .vars (out.toList.map keyVar)).filters = [] := by
    intro i
    rw [filters_eq, List.append_eq_nil_iff, List.flatMap_eq_nil_iff]
    refine ⟨fun n hn => ?_, rfl⟩
    obtain ⟨v, -, rfl⟩ := List.mem_map.1 hn
    rfl
  rw [filters_eq]
  simp [groupedBy, children, filterVar?, hconst, hkey]

namespace Direct

section
variable (given : Given) (value : Valuation)

/-- The row of a binding in a grouping by some keys; none if a key or the value is undefined. -/
def row? (keys : List Node) (root : Node) (b : Binding) : Option Json.Row :=
  (target? given value b keys).bind fun path => (value b root).map fun x => (path, x)

end

variable {given : Given} {aggregate : Valuation}

/-- The place that variables lead to that are bound to keys. -/
theorem target?_keyVars {vars : List Var} (hdeep : ∀ v ∈ vars, given.table.isDeep v = false) {b : Binding} {keys : List Json}
    (h : vars.map b = keys.map some) :
    target? given (valueWith given aggregate) b (vars.map Node.keyVar) = some (keys.map Json.keyText) := by
  induction vars generalizing keys with
  | nil =>
    rw [List.map_eq_nil_iff.1 h.symm]
    rfl
  | cons v vars ih =>
    rw [List.forall_mem_cons] at hdeep
    obtain ⟨k, keys, rfl, hk, hkeys⟩ := List.map_eq_cons_iff.1 h.symm
    have hparts : keyParts given (Node.keyVar v) k = [k.keyText] := by
      simp [keyParts, Node.keyVar, Node.asVar?, hdeep.1]
    rw [List.map_cons, target?, Node.keyVar, valueWith, ← hk, Option.bind_some, ih hdeep.2 hkeys.symm, ← Node.keyVar, hparts]
    rfl

/-- A binding changes a grouping by its row. -/
theorem change?_groupedBy (value : Valuation) (out : VarSet) (root : Node) (b : Binding) :
    change? given value b (root.groupedBy out) =
      (row? given value (out.toList.map Node.keyVar) root b).map fun row state =>
        some (Json.setAt row.1 row.2 (state.getD Json.empty)) := by
  rw [Node.groupedBy, change?, Program.keyNodes, row?]
  cases target? given value b (out.toList.map Node.keyVar) with
  | none => rfl
  | some path => cases value b root <;> rfl

/-- A grouping by variables puts together the rows of their bindings. -/
theorem aggregateWith_groupedBy (generators : List Generator) (out : VarSet) (root : Node) (b : Binding) :
    aggregateWith given (valueWith given aggregate) generators b (root.groupedBy out) =
      some (Json.assemble ((nestBindings given (valueWith given aggregate) generators out).filterMap
        (row? given (valueWith given aggregate) (out.toList.map Node.keyVar) root))) := by
  have hall : ∀ bs : List Binding, bs.filter (·.agrees b ∅) = bs := fun bs => List.filter_eq_self.2 fun c _ => agrees_empty c b
  have hfold : ∀ (bs : List Binding) (state : Json),
      bs.foldl (fun state c => (change? given (valueWith given aggregate) c (root.groupedBy out)).elim state (· state))
          (some state) =
        some ((bs.filterMap (row? given (valueWith given aggregate) (out.toList.map Node.keyVar) root)).foldl
          (fun state row => Json.setAt row.1 row.2 state) state) := by
    intro bs
    induction bs with
    | nil => exact fun _ => rfl
    | cons c bs ih =>
      intro state
      rw [List.foldl_cons, change?_groupedBy]
      cases hrow : row? given (valueWith given aggregate) (out.toList.map Node.keyVar) root c with
      | none => rw [List.filterMap_cons_none hrow]; exact ih state
      | some row => rw [List.filterMap_cons_some hrow]; exact ih (Json.setAt row.1 row.2 state)
  have hfree : (root.groupedBy out).info.free = ∅ := rfl
  have hbound : (root.groupedBy out).info.bound = out := rfl
  rw [aggregateWith, hfree, hbound, VarSet.empty_union, nestBindings_empty, hall, hall]
  exact hfold _ _

/-- The direct value of a grouping by variables. -/
theorem value_groupedBy (generators : List Generator) (depth : Nat) (out : VarSet) (root : Node) (b : Binding) :
    value given generators (depth + 1) b (root.groupedBy out) =
      some (Json.assemble ((nestBindings given (value given generators depth) generators out).filterMap
        (row? given (value given generators depth) (out.toList.map Node.keyVar) root))) := by
  have hvalue : value given generators (depth + 1) b (root.groupedBy out) =
      aggregateWith given (valueWith given (aggregate given generators depth)) generators b (root.groupedBy out) := rfl
  rw [hvalue, aggregateWith_groupedBy]
  rfl

end Direct

end StarQuery
