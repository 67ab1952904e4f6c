import StarQuery.Proofs.Program.Shape

/-!
# The statements of a program

All statements of a program, nested ones included, and all expressions in them. What holds of the statements of a body and of
the loops around it holds of a nest (`NestOf.every`). What is selected from statements that are neither loops nor tests is
selected from the body of a nest (`select_wrap`).
-/

namespace StarQuery

/-! ## All statements and expressions -/

mutual
/-- An expression and all expressions in it. -/
def Expr.parts : Expr → List Expr
  | .input => [.input]
  | .const value => [.const value]
  | .var v => [.var v]
  | .undefined name => [.undefined name]
  | .get base key => .get base key :: (parts base ++ parts key)
  | .deepGet base path => .deepGet base path :: (parts base ++ parts path)
  | .pointwise op args => .pointwise op args :: listParts args
  | .singleton arg => .singleton arg :: parts arg
  | .nop => [.nop]
  | .slot id keys => .slot id keys :: listParts keys
/-- The expressions of a list and all expressions in them. -/
def Expr.listParts : List Expr → List Expr
  | [] => []
  | x :: rest => Expr.parts x ++ Expr.listParts rest
end

/-- The expressions of an action. -/
def Action.exprs : Action → List Expr
  | .reduce _ arg | .scan _ arg => [arg]
  | .update keys value => keys ++ [value]

namespace Stmt

/-- The expressions of a statement, apart from those of the statements in it. -/
def exprs : Stmt → List Expr
  | .loop _ _ source _ | .test _ _ source _ => [source]
  | .start _ _ value _ => [value]
  | .step _ _ action => action.exprs
  | .comment _ | .error _ | .project .. | .mark .. => []

mutual
/-- A statement and all statements in it. -/
def nested : Stmt → List Stmt
  | .loop deep v source body => .loop deep v source body :: listNested body
  | .test deep v source body => .test deep v source body :: listNested body
  | .project id keys fill body => .project id keys fill body :: (listNested fill ++ listNested body)
  | .comment text => [.comment text]
  | .error text => [.error text]
  | .mark id keys => [.mark id keys]
  | .start slot keys value copy => [.start slot keys value copy]
  | .step slot keys action => [.step slot keys action]
/-- The statements of a list and all statements in them. -/
def listNested : List Stmt → List Stmt
  | [] => []
  | s :: rest => nested s ++ listNested rest
end

/-- The statements of two lists are those of the one and of the other. -/
@[simp] theorem listNested_append (a b : List Stmt) : listNested (a ++ b) = listNested a ++ listNested b := by
  induction a with
  | nil => rfl
  | cons s a ih => rw [List.cons_append, listNested, listNested, ih, List.append_assoc]

/-- Every statement of a list, nested ones included, is as `p` says. -/
def Every (p : Stmt → Prop) (stmts : List Stmt) : Prop := ∀ st ∈ listNested stmts, p st

theorem every_nil (p : Stmt → Prop) : Every p [] := fun _ h => absurd h List.not_mem_nil

theorem every_append {p : Stmt → Prop} {a b : List Stmt} : Every p (a ++ b) ↔ Every p a ∧ Every p b := by
  simp only [Every, listNested_append, List.forall_mem_append]

/-- What holds of every statement of each list holds of all lists together. -/
theorem every_flatMap {p : Stmt → Prop} {α : Type} {f : α → List Stmt} {xs : List α} (h : ∀ x ∈ xs, Every p (f x)) :
    Every p (xs.flatMap f) := by
  induction xs with
  | nil => exact every_nil p
  | cons x xs ih =>
    rw [List.forall_mem_cons] at h
    exact every_append.2 ⟨h.1, ih h.2⟩

/-! ## Selected statements -/

/-- What `f` selects from the statements of a list, nested ones included. -/
def select {α : Type} (f : Stmt → Option α) (stmts : List Stmt) : List α := (listNested stmts).filterMap f

section
variable {α : Type} {f : Stmt → Option α}

/-- What is selected from two lists is selected from the one and from the other. -/
@[simp] theorem select_append (a b : List Stmt) : select f (a ++ b) = select f a ++ select f b := by
  simp only [select, listNested_append, List.filterMap_append]

/-- What is selected from lists one after the other is selected from each. -/
theorem select_flatMap {β : Type} (g : β → List Stmt) (xs : List β) :
    select f (xs.flatMap g) = xs.flatMap fun x => select f (g x) := by
  induction xs with
  | nil => rfl
  | cons x xs ih => rw [List.flatMap_cons, select_append, ih, List.flatMap_cons]

end

/-- The slot and the keys of a step. -/
def step? : Stmt → Option (Nat × List Var)
  | .step slot keys _ => some (slot, keys)
  | _ => none

/-- The slot and the keys of a first state. -/
def start? : Stmt → Option (Nat × List Var)
  | .start slot keys _ _ => some (slot, keys)
  | _ => none

/-- The projection and the keys of a mark. -/
def mark? : Stmt → Option (Nat × List Var)
  | .mark id keys => some (id, keys)
  | _ => none

/-- The number of a projection. -/
def projection? : Stmt → Option Nat
  | .project id _ _ _ => some id
  | _ => none

end Stmt

/-- All expressions of a program: those of its statements and its result, and all expressions in them. -/
def Program.exprs (p : Program) : List Expr :=
  Expr.listParts ((Stmt.listNested p.body).flatMap Stmt.exprs ++ [p.result])

namespace Program

variable {s : Setting} {entries : List Entry}

/-- Where a variable is read as itself, it is bound. -/
theorem var_mem_parts_varOf {env : VarSet} {v w : Var} (h : .var w ∈ (varOf s env v).parts) : w ∈ env := by
  unfold varOf at h
  split at h
  · rename_i hv
    cases List.mem_singleton.1 h
    exact hv
  · cases List.mem_singleton.1 h

/-! ## Nests -/

/-- What holds of a body, and of loops and tests of the variables of levels, holds of the body inside the levels. -/
theorem every_wrap {p : Stmt → Prop} {xs : List (Level × Expr)} {body : List Stmt} (hbody : Stmt.Every p body)
    (hlevel : ∀ x ∈ xs, ∀ deep inner, p (.loop deep x.1.generator.var x.2 inner) ∧
      p (.test deep x.1.generator.var x.2 inner)) : Stmt.Every p (wrap s xs body) := by
  induction xs with
  | nil => exact hbody
  | cons x xs ih =>
    rw [List.forall_mem_cons] at hlevel
    have hrest := ih hlevel.2
    obtain ⟨l, source⟩ := x
    rw [wrap]
    split
    · simp only [Stmt.Every, Stmt.listNested, Stmt.nested, List.append_nil, List.forall_mem_cons]
      exact ⟨(hlevel.1 _ _).1, hrest⟩
    · simp only [Stmt.Every, Stmt.listNested, Stmt.nested, List.append_nil, List.forall_mem_cons]
      exact ⟨(hlevel.1 _ _).2, hrest⟩

/-- The statements for generators that cannot be ordered have no others in them. -/
theorem mem_listNested_unsolved {gs : List Generator} {st : Stmt} (h : st ∈ Stmt.listNested (gs.map (unsolvedStmt s))) :
    ∃ g ∈ gs, st = unsolvedStmt s g := by
  induction gs with
  | nil => exact absurd h List.not_mem_nil
  | cons g gs ih =>
    rcases List.mem_append.1 h with h | h
    · exact ⟨g, List.mem_cons_self, List.mem_singleton.1 h⟩
    · obtain ⟨g', hg', rfl⟩ := ih h
      exact ⟨g', List.mem_cons_of_mem _ hg', rfl⟩

/-- Loops and tests around a body leave what is selected from it, if none of them is selected. -/
theorem select_wrap {α : Type} {f : Stmt → Option α} (hloop : ∀ deep v x inner, f (.loop deep v x inner) = none)
    (htest : ∀ deep v x inner, f (.test deep v x inner) = none) (xs : List (Level × Expr)) (body : List Stmt) :
    Stmt.select f (wrap s xs body) = Stmt.select f body := by
  induction xs with
  | nil => rfl
  | cons x xs ih =>
    obtain ⟨l, source⟩ := x
    rw [wrap]
    split
    · simp only [Stmt.select, Stmt.listNested, Stmt.nested, List.append_nil, List.filterMap_cons, hloop]
      exact ih
    · simp only [Stmt.select, Stmt.listNested, Stmt.nested, List.append_nil, List.filterMap_cons, htest]
      exact ih

/-- Nothing is selected from the statements for generators that cannot be ordered, if no report is. -/
theorem select_unsolved {α : Type} {f : Stmt → Option α} (herror : ∀ text, f (.error text) = none) (gs : List Generator) :
    Stmt.select f (gs.map (unsolvedStmt s)) = [] := by
  rw [Stmt.select, List.filterMap_eq_nil_iff]
  intro st hst
  obtain ⟨g, -, rfl⟩ := mem_listNested_unsolved hst
  exact herror _

/-- What holds of the loops, the reports and the projections of a nest, and of its body, holds of all its statements. -/
theorem NestOf.every {p : Stmt → Prop} {limit : Nat} {vars : VarSet} {body : List Stmt → Prop} {stmts : List Stmt}
    (h : NestOf s entries limit vars body stmts) (hbody : ∀ inner, body inner → Stmt.Every p inner)
    (hlevel : vars ≠ ∅ → ∀ l ∈ (nestPlan s vars).levels, ∀ x, ExprOf s entries l.seen l.generator.source x →
      ∀ deep inner, p (.loop deep l.generator.var x inner) ∧ p (.test deep l.generator.var x inner))
    (hunsolved : vars ≠ ∅ → ∀ g ∈ (nestPlan s vars).unsolved, p (unsolvedStmt s g))
    (hproject : ∀ id keys fill inner, p (.project id keys fill inner)) (hmark : ∀ id keys, p (.mark id keys)) :
    Stmt.Every p stmts := by
  have hnest : vars ≠ ∅ → ∀ {xs : List (Level × Expr)} {inner : List Stmt},
      LevelsOf s entries (nestPlan s vars).levels xs → Stmt.Every p inner →
      Stmt.Every p (wrap s xs ((nestPlan s vars).unsolved.map (unsolvedStmt s) ++ inner)) := by
    intro hvars xs inner hxs hinner
    refine every_wrap (Stmt.every_append.2 ⟨?_, hinner⟩) fun x hx deep inner => ?_
    · intro st hst
      obtain ⟨g, hg, rfl⟩ := mem_listNested_unsolved hst
      exact hunsolved hvars g hg
    · exact hlevel hvars x.1 (hxs.1 ▸ List.mem_map_of_mem hx) x.2 (hxs.2 x hx) deep inner
  cases h with
  | plain _ hinner => exact hbody _ hinner
  | levels hvars _ hxs hinner => exact hnest hvars hxs (hbody _ hinner)
  | @projected id _ _ hvars _ _ hxs hinner =>
    have hlast : Stmt.Every p [.mark id vars.toList] := by
      intro st hst
      rw [List.mem_singleton.1 hst]
      exact hmark _ _
    have hfill := hnest hvars hxs hlast
    intro st hst
    simp only [Stmt.listNested, Stmt.nested, List.append_nil, List.mem_cons, List.mem_append] at hst
    rcases hst with rfl | hst | hst
    · exact hproject _ _ _ _
    · exact hfill st hst
    · exact hbody _ hinner st hst

end Program

end StarQuery
