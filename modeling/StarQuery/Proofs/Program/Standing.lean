import StarQuery.Proofs.Plan.Levels
import StarQuery.Proofs.Program.Statements

/-!
# Where statements stand

All statements of a program, each with the variables that are bound where it stands: the body of a loop has the variable of the
loop, the body of a projection its keys. The levels of a nest bind one variable after the other, so what holds of the loops and
tests of a plan where their sources are evaluated, and of a body where the plan has bound its variables, holds of the whole nest
(`NestOf.everyIn`), and so of a block (`BlockOf.everyIn`).
-/

namespace StarQuery

namespace Stmt

mutual
/-- A statement and all statements in it, with what is bound where each stands, if `scope` is bound around. -/
def placed (scope : VarSet) : Stmt → List (VarSet × Stmt)
  | .loop deep v source body => (scope, .loop deep v source body) :: listPlaced (scope.insert v) body
  | .test deep v source body => (scope, .test deep v source body) :: listPlaced scope body
  | .project id keys fill body =>
    (scope, .project id keys fill body) :: (listPlaced scope fill ++ listPlaced (scope ∪ .ofList keys) body)
  | .comment text => [(scope, .comment text)]
  | .error text => [(scope, .error text)]
  | .mark id keys => [(scope, .mark id keys)]
  | .start slot keys value copy => [(scope, .start slot keys value copy)]
  | .step slot keys action => [(scope, .step slot keys action)]
/-- The statements of a list and all statements in them, with what is bound where each stands. -/
def listPlaced (scope : VarSet) : List Stmt → List (VarSet × Stmt)
  | [] => []
  | s :: rest => placed scope s ++ listPlaced scope rest
end

/-- The statements of two lists stand where they stand in the one and in the other. -/
@[simp] theorem listPlaced_append (scope : VarSet) (a b : List Stmt) :
    listPlaced scope (a ++ b) = listPlaced scope a ++ listPlaced scope b := by
  induction a with
  | nil => rfl
  | cons s a ih => rw [List.cons_append, listPlaced, listPlaced, ih, List.append_assoc]

mutual
/-- All statements stand somewhere. -/
theorem map_snd_placed (scope : VarSet) : ∀ s : Stmt, (placed scope s).map Prod.snd = nested s
  | .loop deep v source body => by rw [placed, nested, List.map_cons, map_snd_listPlaced]
  | .test deep v source body => by rw [placed, nested, List.map_cons, map_snd_listPlaced]
  | .project id keys fill body => by
    rw [placed, nested, List.map_cons, List.map_append, map_snd_listPlaced, map_snd_listPlaced]
  | .comment _ | .error _ | .mark _ _ | .start _ _ _ _ | .step _ _ _ => rfl
/-- All statements of a list stand somewhere. -/
theorem map_snd_listPlaced (scope : VarSet) : ∀ stmts : List Stmt, (listPlaced scope stmts).map Prod.snd = listNested stmts
  | [] => rfl
  | s :: rest => by rw [listPlaced, listNested, List.map_append, map_snd_placed, map_snd_listPlaced]
end

/-- Every statement of a list, nested ones included, is as `p` says of it where it stands. -/
def EveryIn (p : VarSet → Stmt → Prop) (scope : VarSet) (stmts : List Stmt) : Prop :=
  ∀ x ∈ listPlaced scope stmts, p x.1 x.2

/-- What does not depend on where a statement stands. -/
theorem every_of_everyIn {p : Stmt → Prop} {scope : VarSet} {stmts : List Stmt} (h : EveryIn (fun _ => p) scope stmts) :
    Every p stmts := by
  intro st hst
  rw [← map_snd_listPlaced scope] at hst
  obtain ⟨x, hx, rfl⟩ := List.mem_map.1 hst
  exact h x hx

variable {p : VarSet → Stmt → Prop} {scope : VarSet}

/-- No statement stands in an empty list. -/
theorem everyIn_nil : EveryIn p scope [] := by
  intro x hx
  cases hx

theorem everyIn_append {a b : List Stmt} : EveryIn p scope (a ++ b) ↔ EveryIn p scope a ∧ EveryIn p scope b := by
  simp only [EveryIn, listPlaced_append, List.forall_mem_append]

/-- What holds of every statement of each list where it stands holds of all lists together. -/
theorem everyIn_flatMap {α : Type} {f : α → List Stmt} {xs : List α} (h : ∀ x ∈ xs, EveryIn p scope (f x)) :
    EveryIn p scope (xs.flatMap f) := by
  induction xs with
  | nil => exact everyIn_nil
  | cons x xs ih =>
    rw [List.forall_mem_cons] at h
    exact everyIn_append.2 ⟨h.1, ih h.2⟩

theorem everyIn_comment {text : String} (h : p scope (.comment text)) : EveryIn p scope [.comment text] := by
  simpa [EveryIn, listPlaced, placed] using h

theorem everyIn_error {text : String} (h : p scope (.error text)) : EveryIn p scope [.error text] := by
  simpa [EveryIn, listPlaced, placed] using h

theorem everyIn_mark {id : Nat} {keys : List Var} (h : p scope (.mark id keys)) : EveryIn p scope [.mark id keys] := by
  simpa [EveryIn, listPlaced, placed] using h

theorem everyIn_start {slot : Nat} {keys : List Var} {value : Expr} {copy : Bool}
    (h : p scope (.start slot keys value copy)) : EveryIn p scope [.start slot keys value copy] := by
  simpa [EveryIn, listPlaced, placed] using h

theorem everyIn_step {slot : Nat} {keys : List Var} {action : Action} (h : p scope (.step slot keys action)) :
    EveryIn p scope [.step slot keys action] := by
  simpa [EveryIn, listPlaced, placed] using h

theorem everyIn_cons {s : Stmt} {rest : List Stmt} :
    EveryIn p scope (s :: rest) ↔ EveryIn p scope [s] ∧ EveryIn p scope rest := everyIn_append (a := [s])

/-- In a loop its variable is bound besides. -/
theorem everyIn_loop {deep : Bool} {v : Var} {source : Expr} {body : List Stmt} :
    EveryIn p scope [.loop deep v source body] ↔
      p scope (.loop deep v source body) ∧ EveryIn p (scope.insert v) body := by
  simp only [EveryIn, listPlaced, placed, List.append_nil, List.forall_mem_cons]

/-- In a test nothing more is bound. -/
theorem everyIn_test {deep : Bool} {v : Var} {source : Expr} {body : List Stmt} :
    EveryIn p scope [.test deep v source body] ↔ p scope (.test deep v source body) ∧ EveryIn p scope body := by
  simp only [EveryIn, listPlaced, placed, List.append_nil, List.forall_mem_cons]

/-- In the body of a projection its keys are bound besides, where it is filled they are not. -/
theorem everyIn_project {id : Nat} {keys : List Var} {fill body : List Stmt} :
    EveryIn p scope [.project id keys fill body] ↔
      p scope (.project id keys fill body) ∧ EveryIn p scope fill ∧ EveryIn p (scope ∪ .ofList keys) body := by
  simp only [EveryIn, listPlaced, placed, List.append_nil, List.forall_mem_cons, List.forall_mem_append]

end Stmt

namespace Program

variable {s : Setting} {entries : List Entry} {p : VarSet → Stmt → Prop}

/-! ## Nests -/

/-- A body inside levels stands where the levels lead to. -/
theorem everyIn_wrap {xs : List (Level × Expr)} {seen bound : VarSet} (hchain : Plan.Chained seen (xs.map Prod.fst) bound)
    {body : List Stmt} (hbody : Stmt.EveryIn p bound body)
    (hloop : ∀ x ∈ xs, ¬ x.1.generator.var ∈ x.1.seen → ∀ deep inner, p x.1.seen (.loop deep x.1.generator.var x.2 inner))
    (htest : ∀ x ∈ xs, x.1.generator.var ∈ x.1.seen → ∀ deep inner, p x.1.seen (.test deep x.1.generator.var x.2 inner)) :
    Stmt.EveryIn p seen (wrap s xs body) := by
  induction xs generalizing seen with
  | nil =>
    have hseen : seen = bound := hchain
    rw [hseen]
    exact hbody
  | cons x xs ih =>
    rw [List.forall_mem_cons] at hloop htest
    obtain ⟨l, source⟩ := x
    obtain ⟨hseen, hrest⟩ := hchain
    have hinner := ih hrest hloop.2 htest.2
    change l.seen = seen at hseen
    rw [wrap]
    by_cases hfresh : l.generator.var ∈ l.seen
    · -- a variable that is bound already is tested, and the body stands where the test does
      have hsame : seen.insert l.generator.var = seen := by
        refine VarSet.ext fun v => ?_
        rw [VarSet.mem_insert]
        refine ⟨fun hv => hv.elim (fun h => ?_) id, .inr⟩
        rw [h, ← hseen]
        exact hfresh
      rw [if_neg (by simpa [Level.fresh] using hfresh)]
      refine Stmt.everyIn_test.2 ⟨?_, ?_⟩
      · rw [← hseen]
        exact htest.1 hfresh _ _
      · rw [← hsame]
        exact hinner
    · rw [if_pos (by simpa [Level.fresh] using hfresh)]
      refine Stmt.everyIn_loop.2 ⟨?_, hinner⟩
      rw [← hseen]
      exact hloop.1 hfresh _ _

/-- What has to hold of the loops and tests of a nest, and of its projection, for all its statements to be as `p` says. -/
structure NestIn (s : Setting) (entries : List Entry) (p : VarSet → Stmt → Prop) (vars : VarSet) : Prop where
  loop : ∀ l ∈ (nestPlan s vars).levels, ∀ x, ExprOf s entries l.seen l.generator.source x →
    ¬ l.generator.var ∈ l.seen → ∀ deep inner, p l.seen (.loop deep l.generator.var x inner)
  test : ∀ l ∈ (nestPlan s vars).levels, ∀ x, ExprOf s entries l.seen l.generator.source x →
    l.generator.var ∈ l.seen → ∀ deep inner, p l.seen (.test deep l.generator.var x inner)
  unsolved : ∀ g ∈ (nestPlan s vars).unsolved, p (nestPlan s vars).bound (unsolvedStmt s g)
  project : ∀ id xs inner, p ∅ (.project id vars.toList
    (wrap s xs ((nestPlan s vars).unsolved.map (unsolvedStmt s) ++ [.mark id vars.toList])) inner)
  mark : ∀ id, p (nestPlan s vars).bound (.mark id vars.toList)

/-- All statements of levels around a body are as `p` says, if the body is where the levels lead to. -/
theorem NestIn.wrap {vars : VarSet} (h : NestIn s entries p vars) {xs : List (Level × Expr)}
    (hxs : LevelsOf s entries (nestPlan s vars).levels xs) {body : List Stmt}
    (hbody : Stmt.EveryIn p (nestPlan s vars).bound body) :
    Stmt.EveryIn p ∅ (wrap s xs ((nestPlan s vars).unsolved.map (unsolvedStmt s) ++ body)) := by
  have hlevel : ∀ x ∈ xs, x.1 ∈ (nestPlan s vars).levels := by
    intro x hx
    rw [← hxs.1]
    exact List.mem_map_of_mem hx
  have hunsolved : Stmt.EveryIn p (nestPlan s vars).bound ((nestPlan s vars).unsolved.map (unsolvedStmt s)) := by
    have herror := fun g hg => Stmt.everyIn_error (h.unsolved g hg)
    rw [List.map_eq_flatMap]
    exact Stmt.everyIn_flatMap herror
  refine everyIn_wrap ?_ (Stmt.everyIn_append.2 ⟨hunsolved, hbody⟩) ?_ ?_
  · rw [hxs.1]
    exact Plan.chained_ofGenerators _ _ _
  · intro x hx
    exact h.loop x.1 (hlevel x hx) x.2 (hxs.2 x hx)
  · intro x hx
    exact h.test x.1 (hlevel x hx) x.2 (hxs.2 x hx)

/-- What holds of the loops of a nest, and of its body where all of them are around it, holds of all its statements. -/
theorem NestOf.everyIn {limit : Nat} {vars : VarSet} {body : List Stmt → Prop} {stmts : List Stmt}
    (h : NestOf s entries limit vars body stmts) (hnest : NestIn s entries p vars)
    (hbody : ∀ inner, body inner → Stmt.EveryIn p (nestEnv s vars) inner) : Stmt.EveryIn p ∅ stmts := by
  unfold nestEnv at hbody
  cases h with
  | plain hvars hinner =>
    rw [if_pos hvars] at hbody
    exact hbody _ hinner
  | levels hvars hclosure hxs hinner =>
    rw [if_neg hvars, if_pos hclosure] at hbody
    exact hnest.wrap hxs (hbody _ hinner)
  | @projected id _ _ hvars hclosure _ hxs hinner =>
    rw [if_neg hvars, if_neg hclosure] at hbody
    have hkeys : ∅ ∪ VarSet.ofList vars.toList = vars := by
      refine VarSet.ext fun v => ?_
      simp [VarSet.mem_toList]
    refine Stmt.everyIn_project.2 ⟨hnest.project _ _ _, hnest.wrap hxs (Stmt.everyIn_mark (hnest.mark id)), ?_⟩
    rw [hkeys]
    exact hbody _ hinner

/-! ## Blocks -/

/-- What holds of comments, of the nests of a block and of the statements in them holds of all statements of the block. -/
theorem BlockOf.everyIn {limit slot : Nat} {n : Node} {block : List Stmt} (h : BlockOf s entries limit slot n block)
    (hcomment : ∀ text, p ∅ (.comment text)) (hfree : NestIn s entries p n.info.free)
    (hloops : NestIn s entries p (n.info.free ∪ n.info.bound))
    (hstart : ∀ x copy, FirstOf s entries (nestEnv s n.info.free) n x copy →
      p (nestEnv s n.info.free) (.start slot n.info.free.toList x copy))
    (hstep : ∀ action, ActionOf s entries (nestEnv s (n.info.free ∪ n.info.bound)) n action →
      p (nestEnv s (n.info.free ∪ n.info.bound)) (.step slot n.info.free.toList action)) : Stmt.EveryIn p ∅ block := by
  obtain ⟨start, steps, hstarts, hsteps, rfl⟩ := h
  rw [Stmt.everyIn_append, Stmt.everyIn_append, Stmt.everyIn_append]
  refine ⟨⟨⟨?_, ?_⟩, ?_⟩, ?_⟩
  · unfold titleStmts
    split
    · exact Stmt.everyIn_comment (hcomment _)
    · exact Stmt.everyIn_nil
  · unfold warningStmts
    split
    · exact Stmt.everyIn_nil
    · exact Stmt.everyIn_comment (hcomment _)
  · rcases hstarts with ⟨-, rfl⟩ | ⟨-, hnest⟩
    · exact Stmt.everyIn_nil
    · refine hnest.everyIn hfree ?_
      rintro _ ⟨x, copy, hx, rfl⟩
      exact Stmt.everyIn_start (hstart x copy hx)
  · refine NestOf.everyIn hsteps hloops ?_
    rintro _ ⟨action, haction, rfl⟩
    exact Stmt.everyIn_step (hstep action haction)

end Program

end StarQuery
