import StarQuery.Proofs.Machine.Blocks
import StarQuery.Proofs.Program.View

/-!
# Running what is seen

Comments, the texts of reports and the names of variables have no part in a run: what is seen of a program runs like the
program, under any view (`Stmt.execAll_view`). So programs that are alike under a view and have the same deep variables have
the same result on every input (`run_eq_of_view`).
-/

namespace StarQuery

/-- Two runs are given the same, but for the names of their variables. -/
structure Given.Alike (given given' : Given) : Prop where
  input : given.input = given'.input
  functions : given.functions = given'.functions
  deep : ∀ v, given.table.isDeep v = given'.table.isDeep v

theorem Given.Alike.refl (given : Given) : given.Alike given := ⟨rfl, rfl, fun _ => rfl⟩

variable {given given' : Given} (w : View)

/-! ## Expressions and actions -/

mutual
/-- What is seen of an expression has the value of the expression. -/
theorem Expr.eval_view (h : given.Alike given') (st : State) : ∀ x : Expr, (w.expr x).eval given' st = x.eval given st
  | .input => congrArg some h.input.symm
  | .const _ | .var _ | .undefined _ | .nop => rfl
  | .get base key => by rw [View.expr, eval, eval, eval_view h st base, eval_view h st key]
  | .deepGet base path => by rw [View.expr, eval, eval, eval_view h st base, eval_view h st path]
  | .pointwise op args => by rw [View.expr, eval, eval, evalAll_view h st args, h.functions]
  | .singleton arg => by rw [View.expr, eval, eval, eval_view h st arg]
  | .slot id keys => by
    rw [View.expr, eval, eval]
    exact congrArg _ (funext fun held => follow_view h st held keys)
/-- What is seen of a list of expressions has their values. -/
theorem Expr.evalAll_view (h : given.Alike given') (st : State) : ∀ xs : List Expr,
    Expr.evalAll given' st (w.exprs xs) = Expr.evalAll given st xs
  | [] => rfl
  | x :: xs => by rw [View.exprs, evalAll, evalAll, eval_view h st x, evalAll_view h st xs]
/-- What is seen of keys leads where the keys lead. -/
theorem Expr.follow_view (h : given.Alike given') (st : State) (held : Json) : ∀ xs : List Expr,
    Expr.follow given' st held (w.exprs xs) = Expr.follow given st held xs
  | [] => rfl
  | x :: xs => by
    rw [View.exprs, follow, follow, eval_view h st x]
    exact congrArg _ (funext fun key => congrArg _ (funext fun part => follow_view h st part xs))
end

namespace Action

/-- What is seen of a key has the same parts. -/
theorem keyParts_view (h : given.Alike given') (key : Expr) (value : Json) :
    keyParts given' (w.expr key) value = keyParts given key value := by
  cases key with
  | var v => simp only [View.expr, keyParts, h.deep v]
  | _ => rfl

/-- What is seen of the keys of an update leads to the same place. -/
theorem target?_view (h : given.Alike given') (st : State) (keys : List Expr) :
    target? given' st (w.exprs keys) = target? given st keys := by
  induction keys with
  | nil => rfl
  | cons key keys ih =>
    rw [View.exprs, target?, target?, key.eval_view w h st, ih]
    simp only [keyParts_view w h]

/-- What is seen of an action makes the same change. -/
theorem change?_view (h : given.Alike given') (st : State) (a : Action) :
    (w.action a).change? given' st = a.change? given st := by
  cases a with
  | reduce op arg | scan op arg => rw [View.action, change?, change?, arg.eval_view w h st]
  | update keys value => rw [View.action, change?, change?, target?_view w h st, value.eval_view w h st]

end Action

/-! ## Statements -/

namespace Stmt

mutual
/-- What is seen of a statement runs like the statement. -/
theorem exec_view (h : given.Alike given') : ∀ (s : Stmt) (st : State), execAll given' (w.stmt s) st = exec given s st
  | .comment t, st => by
    rw [View.stmt]
    split <;> rfl
  | .error _, _ | .mark _ _, _ => rfl
  | .loop deep v source body, st => by
    have hbody : execAll given' (w.stmts body) = execAll given body := funext (execAll_view h body)
    rw [View.stmt, execAll, execAll, exec, exec, source.eval_view w h st, hbody]
  | .test deep v source body, st => by
    have hbody : execAll given' (w.stmts body) = execAll given body := funext (execAll_view h body)
    rw [View.stmt, execAll, execAll, exec, exec, source.eval_view w h st, hbody]
  | .project id keys fill body, st => by
    have hbody : execAll given' (w.stmts body) = execAll given body := funext (execAll_view h body)
    rw [View.stmt, execAll, execAll, exec, exec, execAll_view h fill, hbody]
  | .start slot keys value copy, st => by
    rw [View.stmt, execAll, execAll, exec, exec, value.eval_view w h st]
  | .step slot keys action, st => by
    rw [View.stmt, execAll, execAll, exec, exec, action.change?_view w h st]
/-- What is seen of statements runs like the statements. -/
theorem execAll_view (h : given.Alike given') : ∀ (ss : List Stmt) (st : State),
    execAll given' (w.stmts ss) st = execAll given ss st
  | [], _ => rfl
  | s :: ss, st => by rw [View.stmts, execAll_append, execAll, exec_view h s st, execAll_view h ss]
end

end Stmt

/-- Programs that are alike under a view, and have the same deep variables, have the same result on every input. -/
theorem Program.run_eq_of_view {w : View} {p p' : Program} (h : w.program p = w.program p')
    (hdeep : ∀ v, p.table.isDeep v = p'.table.isDeep v) (input : Json) (functions : Functions) :
    p.run input functions = p'.run input functions := by
  simp only [View.program, Program.mk.injEq, NameTable.mk.injEq] at h
  obtain ⟨hbody, hresult, hslots, hprojections, hnames⟩ := h
  have hinitial : State.initial p = State.initial p' := by
    have hlength := congrArg List.length hnames
    rw [List.length_map, List.length_map] at hlength
    rw [State.initial, State.initial, hlength, hslots, hprojections]
  have halike : Given.Alike ⟨input, functions, p.table⟩ ⟨input, functions, p'.table⟩ := ⟨rfl, rfl, hdeep⟩
  have hself := Given.Alike.refl ⟨input, functions, p'.table⟩
  unfold run
  rw [← Expr.eval_view w halike, ← Stmt.execAll_view w halike, hbody, hresult, Expr.eval_view w hself,
    Stmt.execAll_view w hself, hinitial]

end StarQuery
