import StarQuery.Proofs.Node.Parts
import StarQuery.Proofs.Plan.Chain
import StarQuery.Proofs.Program.Shape

/-!
# What generation can give

`Gives` says that a result is one that a part of generation has after something was emitted or other. A nest that generation
gives consists of the levels of its plan, with sources that the emitter gives, around the reports on what the plan leaves over and
a body (`Gives.levelNest`). If the variables of the nest need others, the levels fill a projection, and the body is run for that
(`Gives.loopNest`).
-/

namespace StarQuery

namespace Program

/-- A part of generation has a result after something was emitted or other. -/
def Gives {α : Type} (m : EmissionM α) (a : α) : Prop := ∃ e e', m.run e = some (a, e')

variable {s : Setting} {emit : Emitter}

namespace Gives

variable {α β : Type}

/-- A result without a run is the only one that is given. -/
theorem pure {a b : α} (h : Gives (Pure.pure a : EmissionM α) b) : b = a := by
  obtain ⟨e, e', hrun⟩ := h
  cases hrun
  rfl

/-- What is given by one part after the other is given by the second, from what is given by the first. -/
theorem bind {m : EmissionM α} {f : α → EmissionM β} {b : β} (h : Gives (m >>= f) b) : ∃ a, Gives m a ∧ Gives (f a) b := by
  obtain ⟨e, e'', hrun⟩ := h
  rw [StateT.run_bind, Option.bind_eq_bind, Option.bind_eq_some_iff] at hrun
  obtain ⟨⟨a, e'⟩, hm, hf⟩ := hrun
  exact ⟨a, ⟨e, e', hm⟩, e', e'', hf⟩

/-- What is given after a change of the result is the change of what is given. -/
theorem map {m : EmissionM α} {f : α → β} {b : β} (h : Gives (m >>= fun a => Pure.pure (f a)) b) : ∃ a, Gives m a ∧ b = f a := by
  obtain ⟨a, hm, hf⟩ := h.bind
  exact ⟨a, hm, hf.pure⟩

end Gives

/-- Levels with sources that an emitter gives. -/
def Sourced (emit : Emitter) (levels : List Level) (xs : List (Level × Expr)) : Prop :=
  xs.map Prod.fst = levels ∧ ∀ x ∈ xs, Gives (emit x.1.generator.source x.1.seen) x.2

/-- What is given for the sources of levels is a source for each, given by the emitter. -/
theorem Gives.sourced {levels : List Level} {xs : List (Level × Expr)} (h : Gives (sourceExprs emit levels) xs) :
    Sourced emit levels xs := by
  induction levels generalizing xs with
  | nil =>
    rw [h.pure]
    exact ⟨rfl, fun _ hx => absurd hx List.not_mem_nil⟩
  | cons l levels ih =>
    obtain ⟨source, hsource, hafter⟩ := h.bind
    obtain ⟨rest, hrest, rfl⟩ := hafter.map
    obtain ⟨hlevels, hsources⟩ := ih hrest
    exact ⟨congrArg (l :: ·) hlevels, List.forall_mem_cons.2 ⟨hsource, hsources⟩⟩

/-- What is given for generators that cannot be ordered is a statement for each. -/
theorem Gives.unsolved {gs : List Generator} {stmts : List Stmt} (h : Gives (unsolvedStmts s gs) stmts) :
    stmts = gs.map (unsolvedStmt s) := by
  induction gs generalizing stmts with
  | nil => exact h.pure
  | cons g gs ih =>
    obtain ⟨_, -, hafter⟩ := h.bind
    obtain ⟨rest, hrest, rfl⟩ := hafter.map
    rw [ih hrest]
    rfl

/-- The levels of a plan, the reports on what it leaves over, and a body. -/
theorem Gives.levelNest {scope vars : VarSet} {body : VarSet → EmissionM (List Stmt)} {stmts : List Stmt}
    (h : Gives (levelNest s emit scope vars body) stmts) :
    ∃ xs inner, Sourced emit (Plan.ofGenerators s.generators scope vars).levels xs ∧
      Gives (body (Plan.ofGenerators s.generators scope vars).bound) inner ∧
      stmts = wrap s xs ((Plan.ofGenerators s.generators scope vars).unsolved.map (unsolvedStmt s) ++ inner) := by
  obtain ⟨xs, hxs, hafter⟩ := h.bind
  obtain ⟨errors, herrors, hbody⟩ := hafter.bind
  obtain ⟨inner, hinner, rfl⟩ := hbody.map
  exact ⟨xs, inner, hxs.sourced, hinner, by rw [herrors.unsolved]⟩

/-- There is nothing to plan for no variables. -/
theorem nestPlan_empty : nestPlan s ∅ = ⟨[], [], ∅⟩ := by
  have hpending : s.generators.filter (fun g => decide (g.var ∈ (∅ : VarSet))) = [] :=
    List.filter_eq_nil_iff.2 fun g _ => by simp
  rw [nestPlan, Generator.closure_empty, planOf, Plan.ofGenerators, hpending]
  rfl

/-- The levels of the plan for all that the variables need, with the body inside them, or with a mark inside them and the body in a
projection. -/
theorem Gives.loopNest {vars : VarSet} {body : VarSet → EmissionM (List Stmt)} {stmts : List Stmt}
    (h : Gives (loopNest s emit ∅ vars body) stmts) :
    ∃ xs inner, Sourced emit (nestPlan s vars).levels xs ∧ Gives (body (nestEnv s vars)) inner ∧
      ((Generator.closure s.generators vars = vars ∧
          stmts = wrap s xs ((nestPlan s vars).unsolved.map (unsolvedStmt s) ++ inner)) ∨
        (Generator.closure s.generators vars ≠ vars ∧ ∃ id,
          stmts = [.project id vars.toList
            (wrap s xs ((nestPlan s vars).unsolved.map (unsolvedStmt s) ++ [.mark id vars.toList])) inner])) := by
  unfold Program.loopNest at h
  simp only [sdiff_empty, VarSet.empty_union, VarSet.isEmpty_iff] at h
  unfold nestEnv
  split at h
  · rename_i hvars
    subst hvars
    rw [nestPlan_empty, if_pos rfl]
    exact ⟨[], stmts, ⟨rfl, fun _ hx => absurd hx List.not_mem_nil⟩, h, .inl ⟨Generator.closure_empty _, rfl⟩⟩
  · rename_i hvars
    rw [if_neg hvars]
    split at h
    · rename_i hclosure
      obtain ⟨xs, inner, hxs, hinner, rfl⟩ := h.levelNest
      have hplan : nestPlan s vars = Plan.ofGenerators s.generators ∅ vars := by rw [nestPlan, hclosure, planOf]
      rw [if_pos hclosure, hplan]
      exact ⟨xs, inner, hxs, hinner, .inl ⟨hclosure, rfl⟩⟩
    · rename_i hclosure
      obtain ⟨id, -, hafter⟩ := h.bind
      obtain ⟨fill, hfill, hbody⟩ := hafter.bind
      obtain ⟨inner, hinner, rfl⟩ := hbody.map
      obtain ⟨xs, marks, hxs, hmarks, rfl⟩ := hfill.levelNest
      rw [hmarks.pure, if_neg hclosure]
      exact ⟨xs, inner, hxs, hinner, .inr ⟨hclosure, id, rfl⟩⟩

end Program

end StarQuery
