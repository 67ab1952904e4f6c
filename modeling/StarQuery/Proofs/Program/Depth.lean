import StarQuery.Program.OfNode

/-!
# More depth changes no result

The depth of `exprAt` only bounds how many aggregates may be under way at a time: what is generated within a depth is generated
in the same way within every greater one (`within_exprAt`). There is one lemma for each function that asks for expressions.
-/

namespace StarQuery

namespace Program

/-- Whatever one part of generation gives, another gives as well. -/
def Within {α : Type} (m m' : EmissionM α) : Prop := ∀ e r, m.run e = some r → m'.run e = some r

namespace Within

variable {α β : Type}

theorem refl (m : EmissionM α) : Within m m := fun _ _ h => h

/-- One part after the other gives no less, if neither does. -/
theorem bind {m m' : EmissionM α} {f f' : α → EmissionM β} (hm : Within m m') (hf : ∀ a, Within (f a) (f' a)) :
    Within (m >>= f) (m' >>= f') := by
  intro e r h
  rw [StateT.run_bind, Option.bind_eq_bind, Option.bind_eq_some_iff] at h ⊢
  obtain ⟨⟨a, e'⟩, hrun, hrest⟩ := h
  exact ⟨(a, e'), hm _ _ hrun, hf a _ _ hrest⟩

theorem map {m m' : EmissionM α} (hm : Within m m') (f : α → β) :
    Within (m >>= fun a => Pure.pure (f a)) (m' >>= fun a => Pure.pure (f a)) := hm.bind fun _ => refl _

end Within

variable {s : Setting}

section
variable {slotOf slotOf' : Node → EmissionM Nat}

/-- An aggregate is read in the same way, if it gets its slot in the same way. -/
theorem within_slotExpr (hslot : ∀ n, Within (slotOf n) (slotOf' n)) (n : Node) (env : VarSet) :
    Within (slotExpr s slotOf n env) (slotExpr s slotOf' n env) :=
  (hslot n).bind fun _ => .refl _

mutual
/-- An expression is generated in the same way, if its aggregates get their slots in the same way. -/
theorem within_exprWith (hslot : ∀ n, Within (slotOf n) (slotOf' n)) : ∀ (n : Node) (env : VarSet),
    Within (exprWith s slotOf n env) (exprWith s slotOf' n env)
  | .input _, _ | .const _ _, _ | .var _ _, _ | .hint _ _ _, _ => .refl _
  | .get _ base key, env => by
    rw [exprWith, exprWith]
    exact (within_exprWith hslot base env).bind fun _ => (within_exprWith hslot key env).map _
  | .pointwise _ op args, env => by
    rw [exprWith, exprWith]
    exact (within_exprsWith hslot args env).map _
  | .keySet _ arg, env => by
    rw [exprWith, exprWith]
    exact (within_exprWith hslot arg env).map _
  | .reduce i op mode arg, env | .scan i op mode arg, env | .update i base key value filter, env => by
    rw [exprWith, exprWith]
    exact within_slotExpr hslot _ env
/-- The expressions of a list of nodes are generated in the same way, if their aggregates get their slots in the same way. -/
theorem within_exprsWith (hslot : ∀ n, Within (slotOf n) (slotOf' n)) : ∀ (ns : List Node) (env : VarSet),
    Within (exprsWith s slotOf ns env) (exprsWith s slotOf' ns env)
  | [], _ => .refl _
  | n :: ns, env => by
    rw [exprsWith, exprsWith]
    exact (within_exprWith hslot n env).bind fun _ => (within_exprsWith hslot ns env).map _
end

end

section
variable {emit emit' : Emitter} (hemit : ∀ n env, Within (emit n env) (emit' n env))
include hemit

/-! ## Nests -/

/-- The sources of levels are generated in the same way, if expressions are. -/
theorem within_sourceExprs (levels : List Level) : Within (sourceExprs emit levels) (sourceExprs emit' levels) := by
  induction levels with
  | nil => exact .refl _
  | cons l levels ih => exact (hemit _ _).bind fun _ => ih.map _

section
variable {body body' : VarSet → EmissionM (List Stmt)} (hbody : ∀ env, Within (body env) (body' env))
include hbody

/-- Levels around a body are generated in the same way, if expressions and the body are. -/
theorem within_levelNest (scope vars : VarSet) :
    Within (levelNest s emit scope vars body) (levelNest s emit' scope vars body') :=
  (within_sourceExprs hemit _).bind fun _ => (Within.refl _).bind fun _ => (hbody _).map _

/-- A nest is generated in the same way, if expressions and its body are. -/
theorem within_loopNest (scope vars : VarSet) :
    Within (loopNest s emit scope vars body) (loopNest s emit' scope vars body') := by
  unfold loopNest
  dsimp only
  split
  · exact hbody _
  · split
    · exact within_levelNest hemit hbody _ _
    · refine (Within.refl _).bind fun _ => (within_levelNest hemit (fun _ => .refl _) _ _).bind fun _ => ?_
      exact (hbody _).map _

end

/-! ## Blocks -/

/-- The keys of an update are generated in the same way, if expressions are. -/
theorem within_exprsBy (env : VarSet) (ns : List Node) : Within (exprsBy emit env ns) (exprsBy emit' env ns) := by
  induction ns with
  | nil => exact .refl _
  | cons n ns ih => exact (hemit _ _).bind fun _ => ih.map _

theorem within_actionOf? (env : VarSet) (n : Node) : Within (actionOf? emit env n) (actionOf? emit' env n) := by
  cases n with
  | reduce | scan => exact (hemit _ _).map _
  | update => exact (within_exprsBy hemit _ _).bind fun _ => (hemit _ _).map _
  | _ => exact .refl _

theorem within_startNest (slot : Nat) (n : Node) : Within (startNest s emit slot n) (startNest s emit' slot n) := by
  cases n with
  | reduce i op mode arg =>
    unfold startNest
    simp only [firstState?]
    cases op.start with
    | none => exact .refl _
    | some value => exact within_loopNest hemit (fun _ => .refl _) _ _
  | scan => exact within_loopNest hemit (fun _ => .refl _) _ _
  | update => exact within_loopNest hemit (fun _ => ((hemit _ _).map _).map _) _ _
  | _ => exact .refl _

/-- The block of an aggregate is generated in the same way, if expressions are. -/
theorem within_blockOf (slot : Nat) (n : Node) : Within (blockOf s emit slot n) (blockOf s emit' slot n) := by
  refine (Within.refl _).bind fun _ => (within_startNest hemit slot n).bind fun _ => Within.map ?_ _
  exact within_loopNest hemit (fun env => (within_actionOf? hemit env n).map _) _ _

/-- An aggregate gets its slot in the same way, if expressions are generated in the same way. -/
theorem within_slotWith (n : Node) : Within (slotWith s emit n) (slotWith s emit' n) := by
  refine (Within.refl _).bind fun e => ?_
  split
  · exact .refl _
  · exact (Within.refl _).bind fun slot => (within_blockOf hemit slot n).bind fun _ => .refl _

end

/-- What is generated within a depth is generated in the same way within every greater one. -/
theorem within_exprAt {depth depth' : Nat} (h : depth ≤ depth') (n : Node) (env : VarSet) :
    Within (exprAt s depth n env) (exprAt s depth' n env) := by
  induction depth generalizing depth' n env with
  | zero =>
    cases depth' with
    | zero => exact .refl _
    | succ depth' =>
      have hnone : ∀ m : Node, Within failure (slotWith s (exprAt s depth') m) := by
        intro m e r hrun
        cases hrun
      exact within_exprWith hnone n env
  | succ depth ih =>
    obtain ⟨depth', rfl⟩ := Nat.exists_eq_add_one_of_ne_zero (Nat.ne_of_gt (Nat.lt_of_lt_of_le (Nat.succ_pos depth) h))
    exact within_exprWith (within_slotWith (ih (Nat.le_of_succ_le_succ h))) n env

end Program

end StarQuery
