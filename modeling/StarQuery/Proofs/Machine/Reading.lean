import StarQuery.Machine.Eval
import StarQuery.Proofs.Program.Nests
import StarQuery.Proofs.Program.Statements

/-!
# What an expression reads

The value of an expression depends on the variables and the slots that occur in it (`Expr.eval_congr`). The variables that occur in
an expression that generation gives are bound where it stands (`Program.Gives.var_mem`).
-/

namespace StarQuery

/-- Two states have the same values of the variables, and the same contents of the slots, that occur among some expressions. -/
structure State.AgreeOn (st st' : State) (xs : List Expr) : Prop where
  values : ∀ v, .var v ∈ xs → st.value? v = st'.value? v
  slots : ∀ slot keys, .slot slot keys ∈ xs → st.slot? slot = st'.slot? slot

theorem State.AgreeOn.mono {st st' : State} {xs ys : List Expr} (h : st.AgreeOn st' ys) (hxs : xs ⊆ ys) : st.AgreeOn st' xs :=
  ⟨fun v hv => h.values v (hxs hv), fun slot keys hslot => h.slots slot keys (hxs hslot)⟩

section
variable (given : Given) {st st' : State}

mutual
/-- The value of an expression depends on the variables and the slots in it. -/
theorem Expr.eval_congr : ∀ x : Expr, st.AgreeOn st' x.parts → x.eval given st = x.eval given st'
  | .input, _ | .const _, _ | .undefined _, _ | .nop, _ => rfl
  | .var v, h => h.values v List.mem_cons_self
  | .get base key, h | .deepGet base key, h => by
    have hbase := eval_congr base (h.mono (List.subset_cons_of_subset _ (List.subset_append_left _ _)))
    have hkey := eval_congr key (h.mono (List.subset_cons_of_subset _ (List.subset_append_right _ _)))
    rw [eval, eval, hbase, hkey]
  | .pointwise op args, h => by
    rw [eval, eval, evalAll_congr args (h.mono (List.subset_cons_self _ _))]
  | .singleton arg, h => by
    rw [eval, eval, eval_congr arg (h.mono (List.subset_cons_self _ _))]
  | .slot id keys, h => by
    have hkeys := fun held => follow_congr held keys (h.mono (List.subset_cons_self _ _))
    rw [eval, eval, h.slots id keys List.mem_cons_self]
    simp only [hkeys]
/-- The values of a list of expressions depend on the variables and the slots in them. -/
theorem Expr.evalAll_congr : ∀ xs : List Expr, st.AgreeOn st' (listParts xs) → evalAll given st xs = evalAll given st' xs
  | [], _ => rfl
  | x :: xs, h => by
    rw [evalAll, evalAll, eval_congr x (h.mono (List.subset_append_left _ _)),
      evalAll_congr xs (h.mono (List.subset_append_right _ _))]
/-- Where keys lead to depends on the variables and the slots in them. -/
theorem Expr.follow_congr (held : Json) : ∀ xs : List Expr, st.AgreeOn st' (listParts xs) →
    follow given st held xs = follow given st' held xs
  | [], _ => rfl
  | x :: xs, h => by
    have hrest := fun part => follow_congr part xs (h.mono (List.subset_append_right _ _))
    rw [follow, follow, eval_congr x (h.mono (List.subset_append_left _ _))]
    simp only [hrest]
end

end

namespace Program

variable {s : Setting}

/-- What generation gives for a variable is the variable, or a report in its place. -/
theorem Gives.varExpr {env : VarSet} {v : Var} {x : Expr} (h : Gives (varExpr s env v) x) : x = varOf s env v := by
  unfold Program.varExpr at h
  unfold varOf
  split at h
  · rename_i hv
    rw [if_pos hv]
    exact h.pure
  · rename_i hv
    obtain ⟨_, -, rfl⟩ := h.map
    rw [if_neg hv]

/-- What generation gives for variables is one such expression for each. -/
theorem Gives.varExprs {env : VarSet} {vs : List Var} {xs : List Expr} (h : Gives (varExprs s env vs) xs) :
    xs = vs.map (varOf s env) := by
  induction vs generalizing xs with
  | nil => exact h.pure
  | cons v vs ih =>
    obtain ⟨x, hx, hafter⟩ := h.bind
    obtain ⟨rest, hrest, rfl⟩ := hafter.map
    rw [hx.varExpr, ih hrest, List.map_cons]

/-- The variables in such expressions are bound. -/
theorem var_mem_listParts_varOf {env : VarSet} {vs : List Var} {v : Var} (h : .var v ∈ Expr.listParts (vs.map (varOf s env))) :
    v ∈ env := by
  induction vs with
  | nil => cases h
  | cons w vs ih => exact (List.mem_append.1 h).elim var_mem_parts_varOf ih

section
variable {slotOf : Node → EmissionM Nat} {env : VarSet} {v : Var}

/-- An aggregate is read by keys that are bound. -/
theorem Gives.var_mem_slotExpr {n : Node} {x : Expr} (h : Gives (slotExpr s slotOf n env) x) (hv : .var v ∈ x.parts) :
    v ∈ env := by
  obtain ⟨slot, -, hafter⟩ := h.bind
  obtain ⟨keys, hkeys, rfl⟩ := hafter.map
  rw [hkeys.varExprs] at hv
  rcases List.mem_cons.1 hv with hv | hv
  · cases hv
  · exact var_mem_listParts_varOf hv

mutual
/-- The variables in the expression of a node are bound, however its aggregates are given their slots. -/
theorem Gives.var_mem_exprWith : ∀ (n : Node) {x : Expr}, Gives (exprWith s slotOf n env) x → .var v ∈ x.parts → v ∈ env
  | .input _, x, h, hv | .const _ _, x, h, hv | .hint _ _ _, x, h, hv => by
    rw [h.pure] at hv
    cases List.mem_singleton.1 hv
  | .var _ w, x, h, hv => by
    have hx : x = varOf s env w := h.varExpr
    rw [hx] at hv
    exact var_mem_parts_varOf hv
  | .get _ base key, x, h, hv => by
    rw [exprWith] at h
    obtain ⟨b, hb, hafter⟩ := h.bind
    obtain ⟨k, hk, rfl⟩ := hafter.map
    have hparts : .var v ∈ b.parts ++ k.parts := by
      split at hv
      · exact (List.mem_cons.1 hv).resolve_left fun h => by cases h
      · exact (List.mem_cons.1 hv).resolve_left fun h => by cases h
    exact (List.mem_append.1 hparts).elim (var_mem_exprWith base hb) (var_mem_exprWith key hk)
  | .pointwise _ op args, x, h, hv => by
    rw [exprWith] at h
    obtain ⟨xs, hxs, rfl⟩ := h.map
    exact var_mem_exprsWith args hxs ((List.mem_cons.1 hv).resolve_left fun h => by cases h)
  | .keySet _ arg, x, h, hv => by
    rw [exprWith] at h
    obtain ⟨a, ha, rfl⟩ := h.map
    exact var_mem_exprWith arg ha ((List.mem_cons.1 hv).resolve_left fun h => by cases h)
  | .reduce _ _ _ _, x, h, hv | .scan _ _ _ _, x, h, hv | .update _ _ _ _ _, x, h, hv => h.var_mem_slotExpr hv
/-- The variables in the expressions of a list of nodes are bound. -/
theorem Gives.var_mem_exprsWith : ∀ (ns : List Node) {xs : List Expr}, Gives (exprsWith s slotOf ns env) xs →
    .var v ∈ Expr.listParts xs → v ∈ env
  | [], xs, h, hv => by
    rw [h.pure] at hv
    cases hv
  | n :: ns, xs, h, hv => by
    rw [exprsWith] at h
    obtain ⟨x, hx, hafter⟩ := h.bind
    obtain ⟨rest, hrest, rfl⟩ := hafter.map
    exact (List.mem_append.1 hv).elim (var_mem_exprWith n hx) (var_mem_exprsWith ns hrest)
end

/-- The variables in an expression that is given for a node are bound where it stands. -/
theorem Gives.var_mem {depth : Nat} {n : Node} {x : Expr} (h : Gives (exprAt s depth n env) x) (hv : .var v ∈ x.parts) : v ∈ env := by
  cases depth with
  | zero => exact Gives.var_mem_exprWith n h hv
  | succ depth => exact Gives.var_mem_exprWith n h hv

end

end Program

end StarQuery
