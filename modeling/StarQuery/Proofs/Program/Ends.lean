import StarQuery.Proofs.Program.Needs

/-!
# Generation ends with a program

Generation fails only where an aggregate is to be finished for which there is no depth left. `Ends` says that a part of
generation has a result whatever was emitted before; there is one lemma for each function. If the aggregates that are needed have
ranks that decrease from an aggregate to what it needs, a depth above the ranks is enough (`exists_generate`).
-/

namespace StarQuery

namespace Program

/-- A part of generation has a result, whatever was emitted before. -/
def Ends {α : Type} (m : EmissionM α) : Prop := ∀ e, ∃ r, m.run e = some r

namespace Ends

variable {α β : Type}

theorem pure (a : α) : Ends (pure a : EmissionM α) := fun e => ⟨(a, e), rfl⟩

theorem modifyGet (f : Emission → α × Emission) : Ends (modifyGet f : EmissionM α) := fun e => ⟨f e, rfl⟩

/-- One part after the other has a result if both have. -/
theorem bind {m : EmissionM α} {f : α → EmissionM β} (hm : Ends m) (hf : ∀ a, Ends (f a)) : Ends (m >>= f) := by
  intro e
  obtain ⟨⟨a, e'⟩, hrun⟩ := hm e
  obtain ⟨r, hr⟩ := hf a e'
  refine ⟨r, ?_⟩
  rw [StateT.run_bind, hrun]
  exact hr

theorem map {m : EmissionM α} (hm : Ends m) (f : α → β) : Ends (m >>= fun a => Pure.pure (f a)) :=
  hm.bind fun a => .pure (f a)

end Ends

variable {s : Setting}

/-! ## Expressions -/

theorem ends_report (severity : Severity) (message subterm : String) : Ends (report s severity message subterm) :=
  .modifyGet _

/-- A variable has an expression, or a report in its place. -/
theorem ends_varExpr (env : VarSet) (v : Var) : Ends (varExpr s env v) := by
  unfold varExpr
  split
  · exact .pure _
  · exact (ends_report _ _ _).map _

theorem ends_varExprs (env : VarSet) (vs : List Var) : Ends (varExprs s env vs) := by
  induction vs with
  | nil => exact .pure _
  | cons v vs ih => exact (ends_varExpr env v).bind fun _ => ih.map _

section
variable {slotOf : Node → EmissionM Nat}

/-- An aggregate is read if it gets its slot. -/
theorem ends_slotExpr {n : Node} (h : Ends (slotOf n)) (env : VarSet) : Ends (slotExpr s slotOf n env) :=
  h.bind fun _ => (ends_varExprs env _).map _

mutual
/-- The expression of a node has a result if the aggregates that it reads get their slots. -/
theorem ends_exprWith : ∀ (n : Node), (∀ m ∈ readsOf n, Ends (slotOf m)) → ∀ env, Ends (exprWith s slotOf n env)
  | .input _, _, _ | .const _ _, _, _ | .hint _ _ _, _, _ => .pure _
  | .var _ v, _, env => ends_varExpr env v
  | .get _ base key, h, env => by
    rw [readsOf, List.forall_mem_append] at h
    rw [exprWith]
    exact (ends_exprWith base h.1 env).bind fun _ => (ends_exprWith key h.2 env).map _
  | .pointwise _ op args, h, env => by
    rw [readsOf] at h
    rw [exprWith]
    exact (ends_exprsWith args h env).map _
  | .keySet _ arg, h, env => by
    rw [readsOf] at h
    rw [exprWith]
    exact (ends_exprWith arg h env).map _
  | .reduce i op mode arg, h, env | .scan i op mode arg, h, env | .update i base key value filter, h, env => by
    rw [exprWith]
    exact ends_slotExpr (h _ List.mem_cons_self) env
/-- The expressions of a list of nodes have results if the aggregates that they read get their slots. -/
theorem ends_exprsWith : ∀ (ns : List Node), (∀ m ∈ listReadsOf ns, Ends (slotOf m)) → ∀ env, Ends (exprsWith s slotOf ns env)
  | [], _, _ => .pure _
  | n :: ns, h, env => by
    rw [listReadsOf, List.forall_mem_append] at h
    rw [exprsWith]
    exact (ends_exprWith n h.1 env).bind fun _ => (ends_exprsWith ns h.2 env).map _
end

end

/-! ## Nests -/

section
variable {emit : Emitter}

/-- The sources of levels have results if their expressions have. -/
theorem ends_sourceExprs {levels : List Level} (h : ∀ l ∈ levels, ∀ env, Ends (emit l.generator.source env)) :
    Ends (sourceExprs emit levels) := by
  induction levels with
  | nil => exact .pure _
  | cons l levels ih =>
    rw [List.forall_mem_cons] at h
    exact (h.1 l.seen).bind fun _ => (ih h.2).map _

theorem ends_unsolvedStmts (gs : List Generator) : Ends (unsolvedStmts s gs) := by
  induction gs with
  | nil => exact .pure _
  | cons g gs ih => exact (ends_report _ _ _).bind fun _ => ih.map _

/-- Levels around a body have a result if their sources and the body have. -/
theorem ends_levelNest {scope vars : VarSet} {body : VarSet → EmissionM (List Stmt)}
    (h : ∀ l ∈ (Plan.ofGenerators s.generators scope vars).levels, ∀ env, Ends (emit l.generator.source env))
    (hbody : ∀ env, Ends (body env)) : Ends (levelNest s emit scope vars body) :=
  (ends_sourceExprs h).bind fun _ => (ends_unsolvedStmts _).bind fun _ => (hbody _).map _

/-- A nest has a result if the sources that it may draw from and its body have. -/
theorem ends_loopNest {vars : VarSet} {body : VarSet → EmissionM (List Stmt)}
    (h : ∀ n ∈ nestNodes s vars, ∀ env, Ends (emit n env)) (hbody : ∀ env, Ends (body env)) :
    Ends (loopNest s emit ∅ vars body) := by
  unfold loopNest
  simp only [sdiff_empty, VarSet.empty_union, VarSet.isEmpty_iff]
  split
  · exact hbody _
  · rename_i hvars
    have hlevels : ∀ l ∈ (nestPlan s vars).levels, ∀ env, Ends (emit l.generator.source env) := by
      intro l hl
      refine h _ ?_
      rw [nestNodes, if_neg hvars]
      exact List.mem_map_of_mem hl
    split
    · rename_i hclosure
      rw [nestPlan, hclosure] at hlevels
      exact ends_levelNest hlevels hbody
    · refine Ends.bind (.modifyGet _) fun id => ?_
      exact (ends_levelNest hlevels fun _ => .pure _).bind fun _ => (hbody _).map _

/-! ## Blocks -/

/-- The comparison of the loops with those that the analysis found always has a result. -/
theorem ends_disagreementStmts (slot : Nat) (n : Node) : Ends (disagreementStmts s slot n) := by
  unfold disagreementStmts
  split
  · exact .pure _
  · exact (ends_report _ _ _).map _

/-- The keys of an update have results if their expressions have. -/
theorem ends_exprsBy {ns : List Node} {env : VarSet} (h : ∀ n ∈ ns, Ends (emit n env)) : Ends (exprsBy emit env ns) := by
  induction ns with
  | nil => exact .pure _
  | cons n ns ih =>
    rw [List.forall_mem_cons] at h
    exact h.1.bind fun _ => (ih h.2).map _

/-- The action of an aggregate has a result if the parts that step it have. -/
theorem ends_actionOf? {n : Node} {env : VarSet} (h : ∀ c ∈ actionNodes n, Ends (emit c env)) : Ends (actionOf? emit env n) := by
  cases n with
  | reduce i op mode arg | scan i op mode arg => exact (h arg List.mem_cons_self).map _
  | update i base key value filter =>
    rw [actionNodes, List.forall_mem_append] at h
    exact (ends_exprsBy h.1).bind fun _ => (h.2 value List.mem_cons_self).map _
  | _ => exact .pure _

/-- The nest of the first states has a result if its sources and the parts that give the first state have. -/
theorem ends_startNest {n : Node} {slot : Nat}
    (hnest : hasFirst n = true → ∀ c ∈ nestNodes s n.info.free, ∀ env, Ends (emit c env))
    (hfirst : ∀ c ∈ firstNodes n, ∀ env, Ends (emit c env)) : Ends (startNest s emit slot n) := by
  unfold startNest
  cases hstate : firstState? emit n with
  | none => exact .pure _
  | some state =>
    have hends : hasFirst n = true ∧ ∀ env, Ends (state env) := by
      cases n with
      | reduce i op mode arg =>
        rw [firstState?, Option.map_eq_some_iff] at hstate
        obtain ⟨value, hop, rfl⟩ := hstate
        exact ⟨by simp [hasFirst, hop], fun _ => .pure _⟩
      | scan =>
        cases hstate
        exact ⟨rfl, fun _ => .pure _⟩
      | update i base key value filter =>
        cases hstate
        exact ⟨rfl, fun env => (hfirst base List.mem_cons_self env).map _⟩
      | _ => cases hstate
    exact ends_loopNest (hnest hends.1) fun env => (hends.2 env).map _

/-- The block of an aggregate has a result if the expressions that it holds have. -/
theorem ends_blockOf {n : Node} {slot : Nat} (h : ∀ c ∈ blockNodes s n, ∀ env, Ends (emit c env)) :
    Ends (blockOf s emit slot n) := by
  simp only [blockNodes, List.forall_mem_append] at h
  obtain ⟨⟨hstart, hfirst⟩, hsteps, haction⟩ := h
  refine (ends_disagreementStmts slot n).bind fun _ => (ends_startNest (fun hn => ?_) hfirst).bind fun _ => ?_
  · rwa [if_pos hn] at hstart
  · exact (ends_loopNest hsteps fun env => (ends_actionOf? fun c hc => haction c hc env).map _).map _

/-- An aggregate gets its slot if the expressions that its block holds have results. -/
theorem ends_slotWith {n : Node} (h : ∀ c ∈ blockNodes s n, ∀ env, Ends (emit c env)) : Ends (slotWith s emit n) := by
  intro e
  unfold slotWith
  simp only [StateT.run_bind, StateT.run_get, Option.pure_def, Option.bind_eq_bind, Option.bind_some]
  cases e.assigned.lookup n.fingerprint with
  | some slot => exact ⟨(slot, e), rfl⟩
  | none =>
    have hnew : Ends (do
        let slot ← newSlot
        let block ← blockOf s emit slot n
        modify fun e => { e with assigned := (n.fingerprint, slot) :: e.assigned, stmts := e.stmts ++ block }
        return slot) :=
      Ends.bind (.modifyGet _) fun _ => (ends_blockOf h).bind fun _ => Ends.bind (.modifyGet _) fun _ => .pure _
    exact hnew e

end

/-! ## Depth -/

/-- If needs go down in rank, a depth above the ranks of the aggregates that an expression reads is enough. -/
theorem ends_exprAt {U : Node → Prop} {rank : Node → Nat} (hU : ∀ n m, U n → Needs s n m → U m ∧ rank m < rank n)
    (depth : Nat) {n : Node} (h : ∀ m ∈ readsOf n, U m ∧ rank m < depth) (env : VarSet) : Ends (exprAt s depth n env) := by
  induction depth generalizing n env with
  | zero => exact ends_exprWith n (fun m hm => absurd (h m hm).2 (Nat.not_lt_zero _)) env
  | succ depth ih =>
    refine ends_exprWith n (fun m hm => ends_slotWith fun c hc env => ih (fun l hl => ?_) env) env
    obtain ⟨hm, hrank⟩ := h m hm
    obtain ⟨hl, hlt⟩ := hU m l hm (List.mem_flatMap.2 ⟨c, hc, hl⟩)
    exact ⟨hl, Nat.lt_of_lt_of_le hlt (Nat.le_of_lt_succ hrank)⟩

/-- A tree has a program if needs go down in rank, and there are more aggregates than ranks. -/
theorem exists_generate {U : Node → Prop} {rank : Node → Nat} (hU : ∀ n m, U n → Needs s n m → U m ∧ rank m < rank n)
    {root : Node} (h : ∀ m ∈ readsOf root, U m ∧ rank m < maxDepth s root) : ∃ r, generate s root = some r := by
  obtain ⟨⟨result, e⟩, hrun⟩ := ends_exprAt hU (maxDepth s root) h ∅ {}
  refine ⟨(⟨e.stmts, result, e.slots, e.projections, s.table⟩, e.diagnostics), ?_⟩
  rw [generate, hrun]
  rfl

end Program

end StarQuery
