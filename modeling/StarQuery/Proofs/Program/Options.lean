import StarQuery.Proofs.Machine.View
import StarQuery.Proofs.Scope.Invariants

/-!
# Options that change no result

Two options of compiling, whether the finished tree is checked once more and whether blocks start with comments, are about the
reader of a program alone. The last check never fails (`Derivation.compile_eq`), and settings that differ in comments are alike
where comments are not seen. So both options leave everything but the comments of a compiled query as it is.
-/

namespace StarQuery

/-! ## Programs without their comments -/

mutual
/-- A statement without the comments in it; of a comment nothing is left. -/
def Stmt.uncommented : Stmt → List Stmt
  | .comment _ => []
  | .error text => [.error text]
  | .loop deep v source body => [.loop deep v source (listUncommented body)]
  | .test deep v source body => [.test deep v source (listUncommented body)]
  | .project id keys fill body => [.project id keys (listUncommented fill) (listUncommented body)]
  | .mark id keys => [.mark id keys]
  | .start slot keys value copy => [.start slot keys value copy]
  | .step slot keys action => [.step slot keys action]
/-- Statements without the comments among and in them. -/
def Stmt.listUncommented : List Stmt → List Stmt
  | [] => []
  | s :: rest => Stmt.uncommented s ++ Stmt.listUncommented rest
end

/-- A program without its comments. -/
def Program.uncommented (p : Program) : Program := { p with body := Stmt.listUncommented p.body }

/-- A compiled query with the comments of its program left out. -/
def Compiled.uncommented (c : Compiled) : Compiled := { c with program := c.program.uncommented }

namespace View

/-- Everything is seen but comments. -/
def uncommented : View := ⟨false, true⟩

mutual
/-- There are no comments in an expression. -/
theorem expr_uncommented : ∀ x : Expr, uncommented.expr x = x
  | .input | .const _ | .var _ | .nop | .undefined _ => rfl
  | .get base key => by rw [expr, expr_uncommented base, expr_uncommented key]
  | .deepGet base path => by rw [expr, expr_uncommented base, expr_uncommented path]
  | .pointwise op args => by rw [expr, exprs_uncommented args]
  | .singleton arg => by rw [expr, expr_uncommented arg]
  | .slot id keys => by rw [expr, exprs_uncommented keys]
/-- There are no comments in a list of expressions. -/
theorem exprs_uncommented : ∀ xs : List Expr, uncommented.exprs xs = xs
  | [] => rfl
  | x :: xs => by rw [exprs, expr_uncommented x, exprs_uncommented xs]
end

/-- There are no comments in an action. -/
theorem action_uncommented (a : Action) : uncommented.action a = a := by
  cases a with
  | reduce op arg | scan op arg => rw [action, expr_uncommented]
  | update keys value => rw [action, exprs_uncommented, expr_uncommented]

mutual
/-- What is seen of a statement without comments is the statement without the comments in it. -/
theorem stmt_uncommented : ∀ s : Stmt, uncommented.stmt s = s.uncommented
  | .comment _ | .error _ | .mark _ _ => rfl
  | .loop deep v source body => by rw [stmt, Stmt.uncommented, expr_uncommented, stmts_uncommented body]
  | .test deep v source body => by rw [stmt, Stmt.uncommented, expr_uncommented, stmts_uncommented body]
  | .project id keys fill body => by rw [stmt, Stmt.uncommented, stmts_uncommented fill, stmts_uncommented body]
  | .start slot keys value copy => by rw [stmt, Stmt.uncommented, expr_uncommented]
  | .step slot keys action => by rw [stmt, Stmt.uncommented, action_uncommented]
/-- What is seen of statements without comments is what is left of them without comments. -/
theorem stmts_uncommented : ∀ ss : List Stmt, uncommented.stmts ss = Stmt.listUncommented ss
  | [] => rfl
  | s :: ss => by rw [stmts, Stmt.listUncommented, stmt_uncommented s, stmts_uncommented ss]
end

/-- What is seen of a program without its comments is the program without its comments. -/
theorem program_uncommented (p : Program) : uncommented.program p = p.uncommented := by
  have hnames : p.table.names.map uncommented.text = p.table.names := List.map_id _
  rw [program, Program.uncommented, stmts_uncommented, expr_uncommented, hnames]

/-- There are no comments in a diagnostic. -/
theorem diagnostic_uncommented (d : Diagnostic) : uncommented.diagnostic d = d := rfl

end View

/-- Programs that differ in comments only have the same result on every input. -/
theorem Program.run_eq_of_uncommented {p p' : Program} (h : p.uncommented = p'.uncommented) (input : Json)
    (functions : Functions) : p.run input functions = p'.run input functions := by
  have htable : p.table = p'.table := by
    change p.uncommented.table = p'.uncommented.table
    rw [h]
  rw [← View.program_uncommented, ← View.program_uncommented] at h
  exact run_eq_of_view h (fun v => by rw [htable]) input functions

/-! ## Compiling with other options -/

/-- A query is rejected for the same cause under all options, before the tree is annotated, or it has a derivation. -/
theorem rejected_or_derived (q : Query) :
    (∃ e, ∀ options, compile q options = .error e) ∨ Nonempty (Derivation q) := by
  cases hterm : Term.ofQuery q with
  | error e =>
    refine .inl ⟨e, fun options => ?_⟩
    rw [compile, hterm]
    rfl
  | ok term =>
    rcases hrun : (Node.ofTerm term).run.run {} with ⟨r, N⟩
    cases r with
    | error e =>
      refine .inl ⟨e, fun options => ?_⟩
      rw [compile, hterm]
      change (term.annotate options.output >>= _) = _
      rw [Term.annotate, hrun]
      rfl
    | ok node => exact .inr ⟨⟨term, node, N, hterm, hrun⟩⟩

/-- Settings that differ in comments are alike where comments are not seen. -/
theorem Derivation.setting_uncommented {q : Query} (D : Derivation q) {options options' : Options}
    (h : options.output = options'.output) :
    Program.Setting.Alike View.uncommented (D.setting options) (D.setting options') where
  names := rfl
  deep _ := rfl
  generators := by rw [setting, setting, h]
  listing := rfl
  comments hseen := by cases hseen

/-- A query with a derivation compiles to the same under both options, but for comments. -/
theorem Derivation.compile_uncommented {q : Query} (D : Derivation q) {options options' : Options}
    (h : options.output = options'.output) :
    (compile q options).map Compiled.uncommented = (compile q options').map Compiled.uncommented := by
  have hview := Program.generate_view (D.setting_uncommented h) (D.tree options.output)
  rw [D.compile_eq, D.compile_eq, ← h]
  rcases cases_of_map_eq hview with ⟨hnone, hnone'⟩ | ⟨x, x', hsome, hsome', hx⟩
  · rw [hnone, hnone']
  · obtain ⟨hprogram, hdiagnostics⟩ := Prod.mk.inj hx
    rw [View.program_uncommented, View.program_uncommented] at hprogram
    have hreports : x.2 = x'.2 := by
      rwa [funext View.diagnostic_uncommented, List.map_id', List.map_id'] at hdiagnostics
    rw [hsome, hsome']
    simp only [Except.map, Compiled.uncommented, hprogram, hreports]

/-- What is the same under a function is the same under every function that sees no more. -/
theorem map_eq_of_map_eq {α β γ : Type} {f : α → β} {g : α → γ} {x y : Except QueryError α} (h : x.map f = y.map f)
    (hg : ∀ a b, f a = f b → g a = g b) : x.map g = y.map g := by
  cases x with
  | error e =>
    cases y with
    | error e' => exact congrArg Except.error (Except.error.inj h)
    | ok b => cases h
  | ok a =>
    cases y with
    | error e' => cases h
    | ok b => exact congrArg Except.ok (hg a b (Except.ok.inj h))

/-- The last check and the comments change nothing that is compiled but the comments. Whatever is chosen for them, a query is
rejected with the same error, or compiles to the same listing, tree, names, dependencies, catalogue and diagnostics, with
programs that are the same once their comments are left out; and these have the same result on every input. -/
theorem recheck_and_comments_irrelevant (q : Query) (output : Output) (recheck recheck' comments comments' : Bool) :
    (compile q ⟨output, recheck, comments⟩).map Compiled.uncommented =
        (compile q ⟨output, recheck', comments'⟩).map Compiled.uncommented ∧
      ∀ (input : Json) (functions : Functions),
        (compile q ⟨output, recheck, comments⟩).map (fun c => (c.program.run input functions, c.run input functions)) =
          (compile q ⟨output, recheck', comments'⟩).map fun c => (c.program.run input functions, c.run input functions) := by
  have hsame : (compile q ⟨output, recheck, comments⟩).map Compiled.uncommented =
      (compile q ⟨output, recheck', comments'⟩).map Compiled.uncommented := by
    rcases rejected_or_derived q with ⟨e, he⟩ | ⟨⟨D⟩⟩
    · rw [he, he]
    · exact D.compile_uncommented rfl
  refine ⟨hsame, fun input functions => map_eq_of_map_eq hsame fun c c' hc => ?_⟩
  have hrun := Program.run_eq_of_uncommented (congrArg Compiled.program hc) input functions
  rw [Compiled.run, Compiled.run, hrun]

end StarQuery
