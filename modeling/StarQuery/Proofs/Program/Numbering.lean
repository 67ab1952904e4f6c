import StarQuery.Proofs.Program.Needs
import StarQuery.Proofs.Program.Statements

/-!
# How numbers are given out

Every part of generation gives out as many slots as it finishes aggregates, and finishes only aggregates that it reads or that
these need. The numbers of the projections that it gives out are those of the projections in the blocks that it finishes, and
in the statements that it hands on. `Numbers` says this of a part of generation; there is one lemma for each function, and
`numbers_exprAt` says it of a whole run.
-/

namespace StarQuery

namespace Program

section
variable (s : Setting)

/-- The aggregates that were finished, the last one first. When an aggregate was begun, no equal one was finished, and whatever
was finished before it and after that it needs. -/
inductive Finished : List (String × Nat) → Prop where
  | nil : Finished []
  | cons {n : Node} {slot : Nat} {new old : List (String × Nat)} : Finished (new ++ old) →
      ¬ n.fingerprint ∈ old.map Prod.fst →
      (∀ x ∈ new, ∃ m, Relation.TransGen (Needs s) n m ∧ x.1 = m.fingerprint) →
      Finished ((n.fingerprint, slot) :: (new ++ old))

/-- An aggregate is one of some, or needed by one of them at any distance. -/
def Under (ns : List Node) (m : Node) : Prop := ∃ n ∈ ns, Relation.ReflTransGen (Needs s) n m

/-- What a part of generation does that reads aggregates of `ns`: it finishes aggregates with a slot each, and the numbers of
projections that were handed to it and that it gives out are those in its blocks and those that it hands on. -/
structure Advance (ns : List Node) (due held : List Nat) (e e' : Emission) : Prop where
  finished : Finished s e.assigned → Finished s e'.assigned
  assigned : ∃ new, e'.assigned = new ++ e.assigned ∧ e'.slots = e.slots + new.length ∧
    ∀ x ∈ new, ∃ m, Under s ns m ∧ x.1 = m.fingerprint
  projected : ∃ blocks count, e'.stmts = e.stmts ++ blocks ∧ e'.projections = e.projections + count ∧
    (Stmt.select Stmt.projection? blocks ++ held).Perm (due ++ List.range' e.projections count)

/-- A part of generation numbers as it should, if the numbers of the projections in `due` are handed to it and those in `held`
of its result are handed on. -/
def Numbers {α : Type} (ns : List Node) (m : EmissionM α) (due : List Nat) (held : α → List Nat) : Prop :=
  ∀ e a e', m.run e = some (a, e') → Advance s ns due (held a) e e'

end

variable {s : Setting}

/-- What is needed by some aggregates is needed by more. -/
theorem Under.mono {ns ns' : List Node} (h : ns ⊆ ns') {m : Node} (hm : Under s ns m) : Under s ns' m := by
  obtain ⟨n, hn, hreach⟩ := hm
  exact ⟨n, h hn, hreach⟩

namespace Advance

variable {ns ns' : List Node} {due held : List Nat} {e e' e'' : Emission}

/-- Nothing but what is reported has changed. -/
theorem of_same (hassigned : e'.assigned = e.assigned) (hslots : e'.slots = e.slots) (hstmts : e'.stmts = e.stmts)
    (hprojections : e'.projections = e.projections) (hheld : held.Perm due) : Advance s ns due held e e' where
  finished h := by
    rw [hassigned]
    exact h
  assigned := ⟨[], hassigned, hslots, by simp⟩
  projected := by
    refine ⟨[], 0, ?_, hprojections, ?_⟩
    · rw [hstmts, List.append_nil]
    · simpa [Stmt.select, Stmt.listNested] using hheld

/-- One part after the other finishes what both finish, and hands on what the second hands on. -/
theorem trans {between : List Nat} (h : Advance s ns due between e e') (h' : Advance s ns' between held e' e'') :
    Advance s (ns ++ ns') due held e e'' where
  finished he := h'.finished (h.finished he)
  assigned := by
    obtain ⟨new, hnew, hslots, hunder⟩ := h.assigned
    obtain ⟨new', hnew', hslots', hunder'⟩ := h'.assigned
    refine ⟨new' ++ new, ?_, ?_, fun x hx => ?_⟩
    · rw [hnew', hnew, List.append_assoc]
    · rw [hslots', hslots, List.length_append]
      omega
    · rcases List.mem_append.1 hx with hx | hx
      · obtain ⟨m, hm, hfp⟩ := hunder' x hx
        exact ⟨m, hm.mono (List.subset_append_right _ _), hfp⟩
      · obtain ⟨m, hm, hfp⟩ := hunder x hx
        exact ⟨m, hm.mono (List.subset_append_left _ _), hfp⟩
  projected := by
    obtain ⟨blocks, count, hstmts, hcount, hperm⟩ := h.projected
    obtain ⟨blocks', count', hstmts', hcount', hperm'⟩ := h'.projected
    refine ⟨blocks ++ blocks', count + count', ?_, ?_, ?_⟩
    · rw [hstmts', hstmts, List.append_assoc]
    · rw [hcount', hcount, Nat.add_assoc]
    · rw [Stmt.select_append, List.append_assoc, ← List.range'_append_1, ← hcount, ← List.append_assoc due]
      refine (hperm'.append_left _).trans ?_
      rw [← List.append_assoc]
      exact hperm.append_right _

end Advance

namespace Numbers

variable {α β : Type} {ns ns' : List Node} {due : List Nat}

/-- A result without a run hands on what was handed to it. -/
theorem pure {a : α} {held : α → List Nat} (h : (held a).Perm due) : Numbers s ns (pure a) due held := by
  intro e b e' hrun
  cases hrun
  exact .of_same rfl rfl rfl rfl h

/-- One part after the other numbers as it should, if the first hands to the second what it takes. -/
theorem bind {m : EmissionM α} {f : α → EmissionM β} {between : α → List Nat} {held : β → List Nat}
    (hm : Numbers s ns m due between) (hf : ∀ a, Numbers s ns' (f a) (between a) held) :
    Numbers s (ns ++ ns') (m >>= f) due held := by
  intro e b e'' hrun
  rw [StateT.run_bind, Option.bind_eq_bind, Option.bind_eq_some_iff] at hrun
  obtain ⟨⟨a, e'⟩, hmrun, hfrun⟩ := hrun
  exact (hm e a e' hmrun).trans (hf a e' b e'' hfrun)

/-- A change of one result into another that holds the same numbers. -/
theorem map {m : EmissionM α} {f : α → β} {held : α → List Nat} {held' : β → List Nat} (hm : Numbers s ns m due held)
    (h : ∀ a, (held' (f a)).Perm (held a)) : Numbers s ns (m >>= fun a => Pure.pure (f a)) due held' := by
  have hbind : Numbers s (ns ++ []) (m >>= fun a => Pure.pure (f a)) due held' := hm.bind fun a => .pure (h a)
  rw [List.append_nil] at hbind
  exact hbind

end Numbers

/-! ## Reports and numbers -/

/-- A report gives out no numbers. -/
theorem numbers_report (severity : Severity) (message subterm : String) (due : List Nat) :
    Numbers s [] (report s severity message subterm) due fun _ => due := by
  intro e a e' hrun
  cases hrun
  exact .of_same rfl rfl rfl rfl (List.Perm.refl _)

/-- A new projection gives out its number. -/
theorem numbers_newProjection (due : List Nat) : Numbers s [] newProjection due fun id => id :: due := by
  intro e a e' hrun
  cases hrun
  refine ⟨id, ⟨[], rfl, rfl, by simp⟩, [], 1, ?_, rfl, ?_⟩
  · exact (List.append_nil _).symm
  · exact (List.perm_append_singleton _ due).symm

/-! ## Expressions -/

/-- A variable gives out no numbers. -/
theorem numbers_varExpr (env : VarSet) (v : Var) (due : List Nat) : Numbers s [] (varExpr s env v) due fun _ => due := by
  unfold varExpr
  split
  · exact .pure (List.Perm.refl _)
  · exact (numbers_report _ _ _ due).map fun _ => List.Perm.refl _

/-- Variables give out no numbers. -/
theorem numbers_varExprs (env : VarSet) (vs : List Var) (due : List Nat) :
    Numbers s [] (varExprs s env vs) due fun _ => due := by
  induction vs with
  | nil => exact .pure (List.Perm.refl _)
  | cons v vs ih => exact (numbers_varExpr env v due).bind fun x => ih.map fun _ => List.Perm.refl _

/-- Slots are given to aggregates as they should be. -/
def SlotsNumber (s : Setting) (slotOf : Node → EmissionM Nat) : Prop :=
  ∀ n due, n.gathers = true → Numbers s [n] (slotOf n) due fun _ => due

/-- Expressions are emitted as they should be. -/
def EmitterNumbers (s : Setting) (emit : Emitter) : Prop :=
  ∀ n env due, Numbers s (readsOf n) (emit n env) due fun _ => due

/-- Reading an aggregate finishes the aggregate and what it needs. -/
theorem numbers_slotExpr {slotOf : Node → EmissionM Nat} (hslot : SlotsNumber s slotOf) {n : Node} (hn : n.gathers = true)
    (env : VarSet) (due : List Nat) : Numbers s (readsOf n) (slotExpr s slotOf n env) due fun _ => due := by
  rw [readsOf_gathers hn]
  exact (hslot n due hn).bind fun slot => (numbers_varExprs env _ due).map fun _ => List.Perm.refl _

mutual
/-- An expression finishes the aggregates that it reads and what they need. -/
theorem numbers_exprWith {slotOf : Node → EmissionM Nat} (hslot : SlotsNumber s slotOf) : ∀ (n : Node) (env : VarSet)
    (due : List Nat), Numbers s (readsOf n) (exprWith s slotOf n env) due fun _ => due
  | .input _, _, due => .pure (List.Perm.refl _)
  | .const _ _, _, due => .pure (List.Perm.refl _)
  | .var _ v, env, due => numbers_varExpr env v due
  | .get _ base key, env, due => by
    rw [exprWith, readsOf]
    refine (numbers_exprWith hslot base env due).bind fun b => ?_
    exact (numbers_exprWith hslot key env due).map fun _ => List.Perm.refl _
  | .pointwise _ op args, env, due => by
    rw [exprWith, readsOf]
    exact (numbers_exprsWith hslot args env due).map fun _ => List.Perm.refl _
  | .hint _ _ _, _, due => .pure (List.Perm.refl _)
  | .keySet _ arg, env, due => by
    rw [exprWith, readsOf]
    exact (numbers_exprWith hslot arg env due).map fun _ => List.Perm.refl _
  | .reduce _ _ _ _, env, due => numbers_slotExpr hslot rfl env due
  | .scan _ _ _ _, env, due => numbers_slotExpr hslot rfl env due
  | .update _ _ _ _ _, env, due => numbers_slotExpr hslot rfl env due
/-- The expressions of a list of nodes finish what they read and need. -/
theorem numbers_exprsWith {slotOf : Node → EmissionM Nat} (hslot : SlotsNumber s slotOf) : ∀ (ns : List Node) (env : VarSet)
    (due : List Nat), Numbers s (listReadsOf ns) (exprsWith s slotOf ns env) due fun _ => due
  | [], _, due => .pure (List.Perm.refl _)
  | n :: ns, env, due => by
    rw [exprsWith, listReadsOf]
    refine (numbers_exprWith hslot n env due).bind fun x => ?_
    exact (numbers_exprsWith hslot ns env due).map fun _ => List.Perm.refl _
end

/-! ## Nests -/

variable {emit : Emitter} (hemit : EmitterNumbers s emit)
include hemit

/-- The sources of levels finish what they read and need. -/
theorem numbers_sourceExprs (levels : List Level) (due : List Nat) :
    Numbers s ((levels.map fun l => l.generator.source).flatMap readsOf) (sourceExprs emit levels) due fun _ => due := by
  induction levels with
  | nil => exact .pure (List.Perm.refl _)
  | cons l levels ih => exact (hemit _ l.seen due).bind fun x => ih.map fun _ => List.Perm.refl _

omit hemit in
/-- The statements for generators that cannot be ordered hold no projections. -/
theorem numbers_unsolvedStmts (gs : List Generator) (due : List Nat) :
    Numbers s [] (unsolvedStmts s gs) due fun stmts => Stmt.select Stmt.projection? stmts ++ due := by
  induction gs with
  | nil => exact .pure (List.Perm.refl _)
  | cons g gs ih => exact (numbers_report _ _ _ due).bind fun _ => ih.map fun _ => List.Perm.refl _

/-- What a nest hands on to its body and takes from it. -/
theorem numbers_levelNest {ns : List Node} {vars : VarSet} {body : VarSet → EmissionM (List Stmt)}
    (hbody : ∀ env due, Numbers s ns (body env) due fun inner => Stmt.select Stmt.projection? inner ++ due)
    (due : List Nat) :
    Numbers s (((planOf s vars).levels.map fun l => l.generator.source).flatMap readsOf ++ ns) (levelNest s emit ∅ vars body)
      due fun stmts => Stmt.select Stmt.projection? stmts ++ due := by
  refine (numbers_sourceExprs hemit _ due).bind fun levels => ?_
  refine (numbers_unsolvedStmts _ due).bind fun errors => (hbody _ _).map fun inner => ?_
  rw [select_wrap (fun _ _ _ _ => rfl) (fun _ _ _ _ => rfl), Stmt.select_append, ← List.append_assoc]
  exact List.perm_append_comm.append_right due

/-- A nest hands on its own projection, if it has one, and those of its body. -/
theorem numbers_loopNest {ns : List Node} {vars : VarSet} {body : VarSet → EmissionM (List Stmt)}
    (hbody : ∀ env due, Numbers s ns (body env) due fun inner => Stmt.select Stmt.projection? inner ++ due)
    (due : List Nat) :
    Numbers s ((nestNodes s vars).flatMap readsOf ++ ns) (loopNest s emit ∅ vars body) due fun stmts =>
      Stmt.select Stmt.projection? stmts ++ due := by
  unfold loopNest nestNodes
  simp only [sdiff_empty, VarSet.empty_union, VarSet.isEmpty_iff]
  split
  · exact hbody ∅ due
  · split
    · rename_i hclosure
      have hplan : nestPlan s vars = planOf s vars := congrArg (planOf s) hclosure
      rw [hplan]
      exact numbers_levelNest hemit hbody due
    · have hfill : ∀ id due, Numbers s (((nestPlan s vars).levels.map fun l => l.generator.source).flatMap readsOf ++ [])
          (levelNest s emit ∅ (Generator.closure s.generators vars) fun _ => return [.mark id vars.toList]) due
          fun stmts => Stmt.select Stmt.projection? stmts ++ due := fun id due =>
        numbers_levelNest hemit (fun _ _ => .pure (List.Perm.refl _)) due
      simp only [List.append_nil] at hfill
      refine (numbers_newProjection due).bind fun id => (hfill id _).bind fun fill => (hbody _ _).map fun inner => ?_
      simp only [Stmt.select, Stmt.listNested, Stmt.nested, List.append_nil, List.filterMap_cons, Stmt.projection?,
        List.filterMap_append]
      grind

/-! ## Blocks -/

omit hemit in
/-- The comment on loops holds no projection. -/
theorem numbers_disagreementStmts (slot : Nat) (n : Node) (due : List Nat) :
    Numbers s [] (disagreementStmts s slot n) due fun stmts => Stmt.select Stmt.projection? stmts ++ due := by
  unfold disagreementStmts
  split
  · exact .pure (List.Perm.refl _)
  · exact (numbers_report _ _ _ due).map fun _ => List.Perm.refl _

/-- The keys of an update finish what they read and need. -/
theorem numbers_exprsBy (env : VarSet) (ns : List Node) (due : List Nat) :
    Numbers s (ns.flatMap readsOf) (exprsBy emit env ns) due fun _ => due := by
  induction ns with
  | nil => exact .pure (List.Perm.refl _)
  | cons n ns ih => exact (hemit n env due).bind fun x => ih.map fun _ => List.Perm.refl _

/-- An action finishes what it reads and needs. -/
theorem numbers_actionOf? (n : Node) (env : VarSet) (due : List Nat) :
    Numbers s ((actionNodes n).flatMap readsOf) (actionOf? emit env n) due fun _ => due := by
  cases n with
  | reduce i op mode arg | scan i op mode arg =>
    simp only [actionNodes, List.flatMap_cons, List.flatMap_nil, List.append_nil]
    exact (hemit arg env due).map fun _ => List.Perm.refl _
  | update i base key value filter =>
    simp only [actionNodes, List.flatMap_append, List.flatMap_cons, List.flatMap_nil, List.append_nil]
    refine (numbers_exprsBy hemit env (keyNodes key) due).bind fun keys => ?_
    exact (hemit value env due).map fun _ => List.Perm.refl _
  | _ => exact .pure (List.Perm.refl _)

/-- The nest of the first states hands on its projections. -/
theorem numbers_startNest (slot : Nat) (n : Node) (due : List Nat) :
    Numbers s (((if hasFirst n then nestNodes s n.info.free else []) ++ firstNodes n).flatMap readsOf)
      (startNest s emit slot n) due fun stmts => Stmt.select Stmt.projection? stmts ++ due := by
  rw [List.flatMap_append]
  unfold startNest
  cases n with
  | reduce i op mode arg =>
    cases hop : op.start with
    | none =>
      simp only [firstState?, hop, Option.map_none]
      exact .pure (List.Perm.refl _)
    | some value =>
      have hfirst : hasFirst (.reduce i op mode arg) = true := by simp [hasFirst, hop]
      simp only [firstState?, hop, Option.map_some, hfirst, if_true]
      exact numbers_loopNest hemit (fun _ _ => .pure (List.Perm.refl _)) due
  | scan i op mode arg => exact numbers_loopNest hemit (fun _ _ => .pure (List.Perm.refl _)) due
  | update i base key value filter =>
    refine numbers_loopNest hemit (fun env due => ?_) due
    simp only [firstNodes, List.flatMap_cons, List.flatMap_nil, List.append_nil]
    have hbase : Numbers s (readsOf base) (emit base env >>= fun x => Pure.pure (x, true)) due fun _ => due :=
      (hemit base env due).map fun _ => List.Perm.refl _
    exact hbase.map fun _ => List.Perm.refl _
  | _ => exact .pure (List.Perm.refl _)

/-- The nest of the steps hands on its projections. -/
theorem numbers_stepNest (slot : Nat) (n : Node) (due : List Nat) :
    Numbers s ((nestNodes s (n.info.free ∪ n.info.bound) ++ actionNodes n).flatMap readsOf) (stepNest s emit slot n) due
      fun stmts => Stmt.select Stmt.projection? stmts ++ due := by
  rw [List.flatMap_append]
  refine numbers_loopNest hemit (fun env due => (numbers_actionOf? hemit n env due).map fun action => ?_) due
  cases action <;> exact List.Perm.refl _

/-- The block of an aggregate finishes what the aggregate needs. -/
theorem numbers_blockOf (slot : Nat) (n : Node) (due : List Nat) :
    Numbers s (needsOf s n) (blockOf s emit slot n) due fun block => Stmt.select Stmt.projection? block ++ due := by
  rw [needsOf, blockNodes, List.flatMap_append]
  refine (numbers_disagreementStmts slot n due).bind fun warning => ?_
  refine (numbers_startNest hemit slot n _).bind fun start => (numbers_stepNest hemit slot n _).map fun steps => ?_
  have htitle : Stmt.select Stmt.projection? (titleStmts s slot n) = [] := by
    unfold titleStmts
    split <;> rfl
  simp only [Stmt.select_append, htitle, List.nil_append]
  grind

/-- An aggregate that has no slot yet gets one, after all that it needs has been finished. -/
theorem slotsNumber_slotWith : SlotsNumber s (slotWith s emit) := by
  intro n due _ e a e' hrun
  obtain ⟨-, rfl⟩ | ⟨hlookup, rfl, block, e2, hblock, rfl⟩ := slotWith_cases hrun
  · exact .of_same rfl rfl rfl rfl (List.Perm.refl _)
  · have hadvance := numbers_blockOf hemit e.slots n due _ _ _ hblock
    obtain ⟨new, hnew, hslots, hunder⟩ := hadvance.assigned
    obtain ⟨blocks, count, hstmts, hcount, hperm⟩ := hadvance.projected
    -- what was finished on the way is needed by one of the aggregates that this one needs
    have hneeds : ∀ x ∈ new, ∃ m, Relation.TransGen (Needs s) n m ∧ x.1 = m.fingerprint := by
      intro x hx
      obtain ⟨m, ⟨k, hk, hreach⟩, hfp⟩ := hunder x hx
      exact ⟨m, Relation.TransGen.head' hk hreach, hfp⟩
    refine ⟨fun he => ?_, ⟨(n.fingerprint, e.slots) :: new, ?_, ?_, fun x hx => ?_⟩, blocks ++ block, count, ?_, hcount, ?_⟩
    · have hbegun : ¬ n.fingerprint ∈ e.assigned.map Prod.fst := by
        intro hmem
        obtain ⟨x, hx, hfp⟩ := List.mem_map.1 hmem
        have hnone := List.lookup_eq_none_iff.1 hlookup x hx
        simp [hfp] at hnone
      have hfinished := hadvance.finished he
      rw [hnew] at hfinished
      change Finished s ((n.fingerprint, e.slots) :: e2.assigned)
      rw [hnew]
      exact .cons hfinished hbegun hneeds
    · exact congrArg ((n.fingerprint, e.slots) :: ·) hnew
    · rw [List.length_cons]
      change e2.slots = _
      rw [hslots]
      change e.slots + 1 + new.length = _
      omega
    · rcases List.mem_cons.1 hx with rfl | hx
      · exact ⟨n, ⟨n, List.mem_singleton_self n, .refl⟩, rfl⟩
      · obtain ⟨m, hm, hfp⟩ := hneeds x hx
        exact ⟨m, ⟨n, List.mem_singleton_self n, hm.to_reflTransGen⟩, hfp⟩
    · change e2.stmts ++ block = _
      rw [hstmts, List.append_assoc]
    · rw [Stmt.select_append, List.append_assoc]
      exact hperm

omit hemit in
/-- Expressions are emitted as they should be, however deep aggregates are nested. -/
theorem numbers_exprAt (depth : Nat) : EmitterNumbers s (exprAt s depth) := by
  induction depth with
  | zero =>
    have hslot : SlotsNumber s fun _ => failure := fun _ _ _ _ _ _ hrun => nomatch hrun
    exact numbers_exprWith hslot
  | succ depth ih => exact numbers_exprWith (slotsNumber_slotWith ih)

end Program

end StarQuery
