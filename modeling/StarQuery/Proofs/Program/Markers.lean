import StarQuery.Proofs.Program.Warnings

/-!
# Reports and their marks

Everything that is reported while a program is generated is also marked in the program: an undefined variable by the expression
that stands for it, a generator that cannot be ordered by an error statement, and loops that are not those that the analysis
found by a comment. A marking is a kind of report with its marks. If the two agree on the single reports (`Marking.Fits`), they
agree on expressions, nests and blocks, where reports and marks even come in the same order, and so on programs
(`Marking.Fits.told_perm`).
-/

namespace StarQuery

/-! ## Marks in a program -/

/-- Whether a text begins with another. -/
def begins (start text : String) : Bool := start.toList.isPrefixOf text.toList

/-- A text that goes on begins as it did. -/
theorem begins_append {start text : String} (h : begins start text = true) (rest : String) :
    begins start (text ++ rest) = true := by
  rw [begins, List.isPrefixOf_iff_prefix] at h ⊢
  rw [String.toList_append]
  exact h.trans (List.prefix_append _ _)

/-- A text that begins in one way does not begin in another, if neither beginning begins with the other. -/
theorem not_begins_of_begins {start other text : String} (h : begins start text = true) (hother : begins other start = false)
    (hstart : begins start other = false) : begins other text = false := by
  rw [← Bool.not_eq_true, begins, List.isPrefixOf_iff_prefix] at *
  intro htext
  exact (List.prefix_or_prefix_of_prefix h htext).elim hstart hother

/-- The name of a variable that is not defined, if an expression stands for one. -/
def Expr.undefined? : Expr → Option String
  | .undefined name => some name
  | _ => none

/-- The text of an error statement. -/
def Stmt.error? : Stmt → Option String
  | .error text => some text
  | _ => none

/-- The text of a comment that warns. -/
def Stmt.warning? : Stmt → Option String
  | .comment text => if begins "WARNING!" text then some text else none
  | _ => none

namespace Diagnostic

/-- Whether a diagnostic warns that a generator cannot be ordered. -/
def isUnsolved (d : Diagnostic) : Bool := d.severity == .warning && begins "unsolved filter ordering problem" d.message

/-- Whether a diagnostic warns that the loops of an aggregate are not those that the analysis found. -/
def isDisagreement (d : Diagnostic) : Bool := d.severity == .warning && begins "bound variables of tmp" d.message

theorem isUnsolved_warning (listing message subterm : String) :
    (about .warning listing message subterm).isUnsolved = begins "unsolved filter ordering problem" message := rfl

theorem isDisagreement_warning (listing message subterm : String) :
    (about .warning listing message subterm).isDisagreement = begins "bound variables of tmp" message := rfl

end Diagnostic

/-- The expressions in a list are those in each of its members. -/
theorem Expr.listParts_eq (xs : List Expr) : listParts xs = xs.flatMap parts := by
  induction xs with
  | nil => rfl
  | cons x xs ih => rw [listParts, ih, List.flatMap_cons]

namespace Program

/-- A kind of report, and how it is marked in a program. -/
structure Marking where
  /-- Whether a diagnostic is of the kind. -/
  covers : Diagnostic → Bool
  /-- The text by which a diagnostic of the kind is marked. -/
  text : Diagnostic → String
  /-- The text of an expression that is a mark. -/
  expr : Expr → Option String
  /-- The text of a statement that is a mark. -/
  stmt : Stmt → Option String

namespace Marking

variable (m : Marking)

/-- The texts by which the diagnostics of the kind are marked. -/
def told (ds : List Diagnostic) : List String := (ds.filter m.covers).map m.text

/-- The marks in expressions. -/
def inExprs (xs : List Expr) : List String := xs.flatMap fun x => x.parts.filterMap m.expr

/-- The marks in statements, nested ones included. -/
def inStmts (stmts : List Stmt) : List String :=
  (Stmt.listNested stmts).flatMap fun st => (m.stmt st).toList ++ m.inExprs st.exprs

/-- A diagnostic of the kind is told by its text. -/
theorem told_of_covers {m : Marking} {d : Diagnostic} (h : m.covers d = true) : m.told [d] = [m.text d] := by
  rw [told, List.filter_cons_of_pos h]
  rfl

/-- Of a diagnostic of another kind nothing is told. -/
theorem told_of_not_covers {m : Marking} {d : Diagnostic} (h : m.covers d = false) : m.told [d] = [] := by
  rw [told, List.filter_cons_of_neg (Bool.eq_false_iff.1 h)]
  rfl

/-- What is told of two lists is told of the one and of the other. -/
@[simp] theorem told_append (a b : List Diagnostic) : m.told (a ++ b) = m.told a ++ m.told b := by
  simp only [told, List.filter_append, List.map_append]

/-- What is told of lists one after the other is told of each. -/
theorem told_flatMap {α : Type} (f : α → List Diagnostic) (xs : List α) :
    m.told (xs.flatMap f) = xs.flatMap fun x => m.told (f x) := by
  simp only [told, List.filter_flatMap, List.map_flatMap]

@[simp] theorem inExprs_nil : m.inExprs [] = [] := rfl

@[simp] theorem inExprs_cons (x : Expr) (xs : List Expr) :
    m.inExprs (x :: xs) = x.parts.filterMap m.expr ++ m.inExprs xs := List.flatMap_cons

/-- The marks in two lists of expressions are those in the one and in the other. -/
@[simp] theorem inExprs_append (xs ys : List Expr) : m.inExprs (xs ++ ys) = m.inExprs xs ++ m.inExprs ys :=
  List.flatMap_append

/-- The marks among all expressions in a list are the marks in the list. -/
theorem filterMap_listParts (xs : List Expr) : (Expr.listParts xs).filterMap m.expr = m.inExprs xs := by
  rw [Expr.listParts_eq, List.filterMap_flatMap, inExprs]

/-- The marks in two lists of statements are those in the one and in the other. -/
@[simp] theorem inStmts_append (a b : List Stmt) : m.inStmts (a ++ b) = m.inStmts a ++ m.inStmts b := by
  simp only [inStmts, Stmt.listNested_append, List.flatMap_append]

/-- The marks in a statement that holds no others. -/
theorem inStmts_leaf {st : Stmt} (h : st.nested = [st]) : m.inStmts [st] = (m.stmt st).toList ++ m.inExprs st.exprs := by
  simp [inStmts, Stmt.listNested, h]

/-- The marks in lists of statements one after the other are those in each. -/
theorem inStmts_flatMap {α : Type} (f : α → List Stmt) (xs : List α) :
    m.inStmts (xs.flatMap f) = xs.flatMap fun x => m.inStmts (f x) := by
  induction xs with
  | nil => rfl
  | cons x xs ih => rw [List.flatMap_cons, inStmts_append, ih, List.flatMap_cons]

/-- A marking fits a setting if each single report is marked as it should be, and nothing else is a mark. -/
structure Fits (s : Setting) : Prop where
  var : ∀ v, m.told [varReport s v] = (m.expr (.undefined (s.table.name v))).toList
  unsolved : ∀ g, m.told [unsolvedReport s g] = (m.stmt (unsolvedStmt s g)).toList
  disagreement : ∀ slot n, m.told [Diagnostic.about .warning s.listing (disagreement s slot n) (n.text s.table)] =
    (m.stmt (.comment ("WARNING! " ++ disagreement s slot n))).toList
  title : ∀ slot n, ∀ st ∈ titleStmts s slot n, m.stmt st = none
  expr : ∀ x, x.undefined? = none → m.expr x = none
  stmt : ∀ st, st.error? = none → (∀ text, st ≠ .comment text) → m.stmt st = none

namespace Fits

variable {m} {s : Setting} {entries : List Entry} (hm : m.Fits s)
include hm

/-! ## Expressions -/

/-- What is told of a variable is marked in its expression. -/
theorem told_varReports (env : VarSet) (v : Var) :
    (varOf s env v).parts.filterMap m.expr = m.told (varReports s env v) := by
  unfold varOf varReports
  split
  · rw [Expr.parts, List.filterMap_cons, hm.expr _ rfl]
    rfl
  · rw [hm.var, Expr.parts, List.filterMap_cons]
    cases m.expr (.undefined (s.table.name v)) <;> rfl

omit hm in
/-- What is told of the nodes of a list is marked in their expressions. -/
theorem inExprs_of_zip {env : VarSet} {ns : List Node} {xs : List Expr} (hlen : ns.length = xs.length)
    (h : ∀ p ∈ ns.zip xs, p.2.parts.filterMap m.expr = m.told (exprReports s env p.1)) :
    m.inExprs xs = m.told (listReports s env ns) := by
  induction ns generalizing xs with
  | nil =>
    rw [List.length_eq_zero_iff.1 hlen.symm]
    rfl
  | cons n ns ih =>
    obtain ⟨x, xs, rfl⟩ := List.exists_cons_of_length_eq_add_one hlen.symm
    rw [List.zip_cons_cons, List.forall_mem_cons] at h
    rw [inExprs_cons, listReports, told_append, h.1, ih (Nat.succ.inj hlen) h.2]

/-- What is told of a node is marked in its expression. -/
theorem marks_expr {env : VarSet} {n : Node} {x : Expr} (h : ExprOf s entries env n x) :
    x.parts.filterMap m.expr = m.told (exprReports s env n) := by
  induction h with
  | input | const | hint =>
    rw [Expr.parts, List.filterMap_cons, hm.expr _ rfl]
    rfl
  | var i v => exact hm.told_varReports env v
  | @get i base key b k _ _ hbase hkey =>
    rw [exprReports, told_append, ← hbase, ← hkey]
    split
    · rw [Expr.parts, List.filterMap_cons, hm.expr _ rfl, List.filterMap_append]
    · rw [Expr.parts, List.filterMap_cons, hm.expr _ rfl, List.filterMap_append]
  | pointwise hlen _ ih =>
    rw [Expr.parts, List.filterMap_cons, hm.expr _ rfl, exprReports, filterMap_listParts]
    exact inExprs_of_zip hlen ih
  | keySet _ ih =>
    rw [Expr.parts, List.filterMap_cons, hm.expr _ rfl]
    exact ih
  | @slot n entry hn _ _ =>
    have hreports : exprReports s env n = n.info.free.toList.flatMap (varReports s env) := by
      cases n with
      | reduce | scan | update => rfl
      | _ => cases hn
    rw [Expr.parts, List.filterMap_cons, hm.expr _ rfl, filterMap_listParts, hreports, told_flatMap, inExprs,
      List.flatMap_map]
    exact congrArg (List.flatMap · _) (funext (hm.told_varReports env))

/-! ## Nests -/

/-- The marks of the sources of levels come before those of the body. -/
theorem inStmts_wrap (xs : List (Level × Expr)) (body : List Stmt) :
    m.inStmts (wrap s xs body) = m.inExprs (xs.map Prod.snd) ++ m.inStmts body := by
  induction xs with
  | nil => rfl
  | cons x xs ih =>
    obtain ⟨l, source⟩ := x
    have hstmt : ∀ st : Stmt, st.error? = none → (∀ text, st ≠ .comment text) → st.exprs = [source] →
        st.nested = st :: Stmt.listNested (wrap s xs body) →
        m.inStmts [st] = m.inExprs ([source] ++ xs.map Prod.snd) ++ m.inStmts body := by
      intro st herror hcomment hexprs hnested
      rw [inExprs_append, List.append_assoc, ← ih, ← hexprs]
      simp only [inStmts, Stmt.listNested, List.append_nil, hnested, List.flatMap_cons, hm.stmt st herror hcomment,
        Option.toList_none, List.nil_append]
    rw [wrap]
    split
    · exact hstmt _ rfl (by simp) rfl rfl
    · exact hstmt _ rfl (by simp) rfl rfl

/-- What is told of generators that cannot be ordered is marked by statements. -/
theorem inStmts_unsolved (gs : List Generator) :
    m.inStmts (gs.map (unsolvedStmt s)) = m.told (gs.map (unsolvedReport s)) := by
  induction gs with
  | nil => rfl
  | cons g gs ih =>
    have hone : m.inStmts [unsolvedStmt s g] = m.told [unsolvedReport s g] := by
      rw [hm.unsolved, m.inStmts_leaf rfl]
      exact List.append_nil _
    rw [List.map_cons, List.map_cons, ← List.singleton_append, inStmts_append, hone, ih, ← told_append,
      List.singleton_append]

/-- What is told of the sources of levels is marked in them. -/
theorem marks_levels {levels : List Level} {xs : List (Level × Expr)} (h : LevelsOf s entries levels xs) :
    m.inExprs (xs.map Prod.snd) = m.told (levels.flatMap fun l => exprReports s l.seen l.generator.source) := by
  obtain ⟨rfl, hxs⟩ := h
  rw [told_flatMap, inExprs, List.flatMap_map, List.flatMap_map]
  exact List.flatMap_congr fun x hx => hm.marks_expr (hxs x hx)

/-- What is told of a nest is marked in it, if what is told of its body is marked there. -/
theorem marks_nest {limit : Nat} {vars : VarSet} {body : List Stmt → Prop} {stmts : List Stmt} {R : List Diagnostic}
    (h : NestOf s entries limit vars body stmts) (hbody : ∀ inner, body inner → m.inStmts inner = m.told R) :
    m.inStmts stmts = m.told (nestReports s vars R) := by
  have hlevels : ∀ {xs : List (Level × Expr)} (inner : List Stmt), LevelsOf s entries (nestPlan s vars).levels xs →
      m.inStmts (wrap s xs ((nestPlan s vars).unsolved.map (unsolvedStmt s) ++ inner)) =
        m.told (planReports s (nestPlan s vars)) ++ m.inStmts inner := by
    intro xs inner hxs
    rw [hm.inStmts_wrap, hm.marks_levels hxs, inStmts_append, hm.inStmts_unsolved, planReports, told_append,
      List.append_assoc]
  unfold nestReports
  cases h with
  | plain hvars hinner => rw [if_pos hvars, List.nil_append, hbody _ hinner]
  | levels hvars _ hxs hinner => rw [if_neg hvars, hlevels _ hxs, hbody _ hinner, told_append]
  | @projected id xs inner hvars _ _ hxs hinner =>
    have hmark : m.inStmts [.mark id vars.toList] = [] := by
      rw [m.inStmts_leaf rfl, hm.stmt _ rfl (by simp)]
      rfl
    have hproject : ∀ fill, m.inStmts [.project id vars.toList fill inner] = m.inStmts fill ++ m.inStmts inner := by
      intro fill
      simp [inStmts, Stmt.listNested, Stmt.nested, Stmt.exprs, hm.stmt (.project id vars.toList fill inner) rfl]
    rw [if_neg hvars, hproject, hlevels _ hxs, hmark, List.append_nil, hbody _ hinner, told_append]

/-! ## Blocks -/

/-- What is told of a first state is marked in it. -/
theorem marks_first {env : VarSet} {n : Node} {x : Expr} {copy : Bool} (h : FirstOf s entries env n x copy) :
    x.parts.filterMap m.expr = m.told (firstReports s env n) := by
  cases h with
  | reduce | scan =>
    rw [Expr.parts, List.filterMap_cons, hm.expr _ rfl]
    rfl
  | update hbase => exact hm.marks_expr hbase

/-- What is told of an action is marked in its expressions. -/
theorem marks_action {env : VarSet} {n : Node} {a : Action} (h : ActionOf s entries env n a) :
    m.inExprs a.exprs = m.told (actionReports s env n) := by
  cases h with
  | reduce harg | scan harg =>
    rw [Action.exprs, inExprs_cons, inExprs_nil, List.append_nil, actionReports]
    exact hm.marks_expr harg
  | update hlen hkeys hvalue =>
    rw [Action.exprs, inExprs_append, inExprs_cons, inExprs_nil, List.append_nil, actionReports, told_append,
      inExprs_of_zip hlen fun p hp => hm.marks_expr (hkeys p hp), hm.marks_expr hvalue]

/-- The comments before a block are no marks. -/
theorem marks_title (slot : Nat) (n : Node) : m.inStmts (titleStmts s slot n) = [] := by
  have htitle := hm.title slot n
  unfold titleStmts at htitle ⊢
  split
  · rename_i hcomments
    rw [if_pos hcomments] at htitle
    rw [m.inStmts_leaf rfl, htitle _ List.mem_cons_self]
    rfl
  · rfl

/-- What is told of the loops of an aggregate is marked by a comment. -/
theorem marks_warning (slot : Nat) (n : Node) : m.inStmts (warningStmts s slot n) = m.told (warningReports s slot n) := by
  unfold warningStmts warningReports
  split
  · rfl
  · rw [hm.disagreement, m.inStmts_leaf rfl]
    exact List.append_nil _

/-- What is told of an aggregate is marked in its block. -/
theorem marks_block {limit slot : Nat} {n : Node} {block : List Stmt} (h : BlockOf s entries limit slot n block) :
    m.inStmts block = m.told (blockReports s slot n) := by
  obtain ⟨start, steps, hstart, hsteps, rfl⟩ := h
  have hstarts : m.inStmts start =
      m.told (if hasFirst n then nestReports s n.info.free (firstReports s (nestEnv s n.info.free) n) else []) := by
    rcases hstart with ⟨hnone, rfl⟩ | ⟨hfirst, hnest⟩
    · rw [hnone]
      rfl
    · rw [if_pos hfirst]
      refine hm.marks_nest hnest ?_
      rintro _ ⟨x, copy, hx, rfl⟩
      rw [← hm.marks_first hx, m.inStmts_leaf rfl, hm.stmt _ rfl (by simp)]
      exact List.append_nil _
  have hstepped : m.inStmts steps = m.told (nestReports s (n.info.free ∪ n.info.bound)
      (actionReports s (nestEnv s (n.info.free ∪ n.info.bound)) n)) := by
    refine hm.marks_nest hsteps ?_
    rintro _ ⟨action, haction, rfl⟩
    rw [← hm.marks_action haction, m.inStmts_leaf rfl, hm.stmt _ rfl (by simp)]
    rfl
  rw [blockReports, told_append, told_append, inStmts_append, inStmts_append, inStmts_append, hm.marks_title,
    hm.marks_warning, hstarts, hstepped, List.nil_append]

/-! ## Programs -/

/-- What is told of a program is marked in it. -/
theorem told_perm {root : Node} {program : Program} {diagnostics : List Diagnostic}
    (h : generate s root = some (program, diagnostics)) :
    (m.told diagnostics).Perm (m.inStmts program.body ++ m.inExprs [program.result]) := by
  have huniverse : Universe s fun _ => True := ⟨fun _ _ => trivial, fun _ _ => trivial⟩
  obtain ⟨entries, hbuilt, -, hbody, hresult, -, hperm⟩ := generate_history huniverse trivial h
  have hblocks : m.inStmts program.body = m.told (entries.flatMap (Entry.reports s)) := by
    rw [hbody, inStmts_flatMap, told_flatMap]
    refine List.flatMap_congr fun x hx => ?_
    obtain ⟨-, -, earlier, hblock⟩ := hbuilt.forall_mem hx
    exact hm.marks_block hblock
  rw [hblocks, inExprs_cons, inExprs_nil, List.append_nil, hm.marks_expr hresult, ← told_append]
  exact (hperm.filter _).map _

end Fits

/-! ## The three kinds of reports -/

/-- What is said of a variable that is not defined. -/
def undefinedText (name : String) : String := "var '" ++ name ++ "' not defined"

/-- Undefined variables, marked by the expressions that stand for them. -/
@[simps] def undefinedVariables : Marking where
  covers d := d.isError
  text d := d.message
  expr x := x.undefined?.map undefinedText
  stmt _ := none

/-- Generators that cannot be ordered, marked by error statements. -/
@[simps] def unsolvedGenerators : Marking where
  covers d := d.isUnsolved
  text d := d.message
  expr _ := none
  stmt st := st.error?

/-- Loops that are not those that the analysis found, marked by comments. -/
@[simps] def loopDisagreements : Marking where
  covers d := d.isDisagreement
  text d := "WARNING! " ++ d.message
  expr _ := none
  stmt st := st.warning?

variable (s : Setting)

/-- How a warning about a generator begins. -/
theorem begins_unsolvedText (g : Generator) : begins "unsolved filter ordering problem" (unsolvedText s g) = true := by
  unfold unsolvedText
  exact begins_append (begins_append (begins_append (by decide) _) _) _

/-- How a warning about loops begins. -/
theorem begins_disagreement (slot : Nat) (n : Node) : begins "bound variables of tmp" (disagreement s slot n) = true := by
  unfold disagreement
  simp only [String.append_assoc]
  exact begins_append (by decide) _

/-- The comment on loops that disagree is one that warns. -/
theorem warning?_disagreement (slot : Nat) (n : Node) :
    (Stmt.comment ("WARNING! " ++ disagreement s slot n)).warning? = some ("WARNING! " ++ disagreement s slot n) := by
  have hwarns : begins "WARNING!" ("WARNING! " ++ disagreement s slot n) = true := begins_append (by decide) _
  rw [Stmt.warning?, if_pos hwarns]

/-- No comment before a block warns. -/
theorem warning?_title {slot : Nat} {n : Node} : ∀ st ∈ titleStmts s slot n, st.warning? = none := by
  intro st hst
  unfold titleStmts at hst
  split at hst
  · have htitle : ∀ rest, begins "WARNING!" ("tmp" ++ rest) = false := by
      intro rest
      have htmp : begins "tmp" ("tmp" ++ rest) = true := begins_append (by decide) rest
      exact not_begins_of_begins htmp (by decide) (by decide)
    simp only [String.append_assoc] at hst
    rw [List.mem_singleton.1 hst, Stmt.warning?, htitle]
    rfl
  · cases hst

/-- Undefined variables are marked as they are reported. -/
theorem fits_undefinedVariables : undefinedVariables.Fits s where
  var _ := rfl
  unsolved _ := rfl
  disagreement _ _ := rfl
  title _ _ _ _ := rfl
  expr _ hx := by rw [undefinedVariables_expr, hx, Option.map_none]
  stmt _ _ _ := rfl

/-- Generators that cannot be ordered are marked as they are reported. -/
theorem fits_unsolvedGenerators : unsolvedGenerators.Fits s where
  var _ := rfl
  unsolved g := by
    rw [told_of_covers, unsolvedGenerators_text, unsolvedGenerators_stmt]
    · rfl
    · rw [unsolvedGenerators_covers, unsolvedReport, Diagnostic.isUnsolved_warning, begins_unsolvedText]
  disagreement slot n := by
    rw [told_of_not_covers, unsolvedGenerators_stmt]
    · rfl
    · rw [unsolvedGenerators_covers, Diagnostic.isUnsolved_warning]
      exact not_begins_of_begins (begins_disagreement s slot n) (by decide) (by decide)
  title slot n st hst := by
    unfold titleStmts at hst
    split at hst
    · rw [List.mem_singleton.1 hst]
      rfl
    · cases hst
  expr _ _ := rfl
  stmt _ herror _ := herror

/-- Loops that disagree are marked as they are reported. -/
theorem fits_loopDisagreements : loopDisagreements.Fits s where
  var _ := rfl
  unsolved g := by
    rw [told_of_not_covers, loopDisagreements_stmt]
    · rfl
    · rw [loopDisagreements_covers, unsolvedReport, Diagnostic.isDisagreement_warning]
      exact not_begins_of_begins (begins_unsolvedText s g) (by decide) (by decide)
  disagreement slot n := by
    rw [told_of_covers, loopDisagreements_text, loopDisagreements_stmt, warning?_disagreement]
    · rfl
    · rw [loopDisagreements_covers, Diagnostic.isDisagreement_warning, begins_disagreement]
  title _ _ := warning?_title s
  expr _ _ := rfl
  stmt st _ hcomment := by
    cases st with
    | comment text => exact absurd rfl (hcomment text)
    | _ => rfl

/-! ## Marks of one sort -/

variable {m : Marking}

/-- Where no statement is a mark, all marks are in expressions. -/
theorem inStmts_of_stmt_eq_none (h : ∀ st, m.stmt st = none) (stmts : List Stmt) :
    m.inStmts stmts = m.inExprs ((Stmt.listNested stmts).flatMap Stmt.exprs) := by
  simp only [inStmts, inExprs, h, Option.toList_none, List.nil_append, List.flatMap_assoc]

/-- Where no expression is a mark, there are none in expressions. -/
theorem inExprs_of_expr_eq_none (h : ∀ x, m.expr x = none) (xs : List Expr) : m.inExprs xs = [] := by
  simp [inExprs, h]

/-- Where no expression is a mark, the marks are statements. -/
theorem inStmts_of_expr_eq_none (h : ∀ x, m.expr x = none) (stmts : List Stmt) : m.inStmts stmts = Stmt.select m.stmt stmts := by
  simp only [inStmts, inExprs_of_expr_eq_none h, List.append_nil, Stmt.select]
  induction Stmt.listNested stmts with
  | nil => rfl
  | cons st rest ih =>
    rw [List.flatMap_cons, ih, List.filterMap_cons]
    cases m.stmt st <;> rfl

end Marking

/-! ## Generated programs -/

variable {s : Setting} {root : Node} {program : Program} {diagnostics : List Diagnostic}

/-- The errors tell the names of the undefined variables of the program. -/
theorem errors_perm (h : generate s root = some (program, diagnostics)) :
    ((diagnostics.filter Diagnostic.isError).map Diagnostic.message).Perm
      ((program.exprs.filterMap Expr.undefined?).map Marking.undefinedText) := by
  have hperm := (Marking.fits_undefinedVariables s).told_perm h
  rw [Marking.inStmts_of_stmt_eq_none fun _ => rfl, ← Marking.inExprs_append, ← Marking.filterMap_listParts] at hperm
  rw [List.map_filterMap]
  exact hperm

/-- Warnings about generators tell the texts of the error statements of the program. -/
theorem unsolved_perm (h : generate s root = some (program, diagnostics)) :
    ((diagnostics.filter Diagnostic.isUnsolved).map Diagnostic.message).Perm (Stmt.select Stmt.error? program.body) := by
  have hperm := (Marking.fits_unsolvedGenerators s).told_perm h
  rw [Marking.inStmts_of_expr_eq_none fun _ => rfl, Marking.inExprs_of_expr_eq_none fun _ => rfl, List.append_nil] at hperm
  exact hperm

/-- Warnings about loops tell the texts of the comments that warn. -/
theorem disagreements_perm (h : generate s root = some (program, diagnostics)) :
    ((diagnostics.filter Diagnostic.isDisagreement).map fun d => "WARNING! " ++ d.message).Perm
      (Stmt.select Stmt.warning? program.body) := by
  have hperm := (Marking.fits_loopDisagreements s).told_perm h
  rw [Marking.inStmts_of_expr_eq_none fun _ => rfl, Marking.inExprs_of_expr_eq_none fun _ => rfl, List.append_nil] at hperm
  exact hperm

/-- A report about a variable is an error, and one about a generator a warning. -/
theorem IsPlanning.kind {d : Diagnostic} (h : IsPlanning s d) : d.isError = true ∨ d.isUnsolved = true := by
  rcases h with ⟨v, rfl⟩ | ⟨g, rfl⟩
  · exact .inl rfl
  · right
    rw [unsolvedReport, Diagnostic.isUnsolved_warning, Marking.begins_unsolvedText]

/-- What is reported on an aggregate is of one of the three kinds. -/
theorem kind_of_mem_blockReports {slot : Nat} {n : Node} {d : Diagnostic} (h : d ∈ blockReports s slot n) :
    d.isError = true ∨ d.isUnsolved = true ∨ d.isDisagreement = true := by
  have hplanning : IsPlanning s d → d.isError = true ∨ d.isUnsolved = true ∨ d.isDisagreement = true := fun hd =>
    hd.kind.imp_right .inl
  rcases List.mem_append.1 h with h | h
  · rcases List.mem_append.1 h with h | h
    · unfold warningReports at h
      split at h
      · cases h
      · rw [List.mem_singleton.1 h]
        refine .inr (.inr ?_)
        rw [Diagnostic.isDisagreement_warning, Marking.begins_disagreement]
    · split at h
      · exact hplanning (isPlanning_of_mem_nestReports (fun _ => isPlanning_of_mem_firstReports) h)
      · cases h
  · exact hplanning (isPlanning_of_mem_nestReports (fun _ => isPlanning_of_mem_actionReports) h)

/-- Whatever is reported on a program is of one of the three kinds. -/
theorem kind_of_mem_diagnostics (h : generate s root = some (program, diagnostics)) {d : Diagnostic} (hd : d ∈ diagnostics) :
    d.isError = true ∨ d.isUnsolved = true ∨ d.isDisagreement = true := by
  have huniverse : Universe s fun _ => True := ⟨fun _ _ => trivial, fun _ _ => trivial⟩
  obtain ⟨entries, -, -, -, -, -, hperm⟩ := generate_history huniverse trivial h
  rcases List.mem_append.1 (hperm.mem_iff.1 hd) with hd | hd
  · obtain ⟨x, -, hd⟩ := List.mem_flatMap.1 hd
    exact kind_of_mem_blockReports hd
  · exact (isPlanning_of_mem_exprReports hd).kind.imp_right .inl

/-- There are errors if and only if a variable of the program is undefined. -/
theorem any_isError_iff (h : generate s root = some (program, diagnostics)) :
    diagnostics.any Diagnostic.isError = true ↔ ∃ name, .undefined name ∈ program.exprs := by
  have hlength := (errors_perm h).length_eq
  rw [List.length_map, List.length_map] at hlength
  have hundefined : (∃ name, .undefined name ∈ program.exprs) ↔ program.exprs.filterMap Expr.undefined? ≠ [] := by
    rw [ne_eq, List.filterMap_eq_nil_iff]
    constructor
    · rintro ⟨name, hname⟩ hnone
      cases hnone _ hname
    · intro hsome
      by_contra hnone
      refine hsome fun x hx => ?_
      cases x with
      | undefined name => exact absurd ⟨name, hx⟩ hnone
      | _ => rfl
  rw [hundefined, List.any_eq_true, ← List.length_pos_iff, ← hlength, List.length_pos_iff_exists_mem]
  simp only [List.mem_filter]

end Program

/-- Reports and marks correspond one to one. Whatever tree a program is generated from, and with whatever generators, the errors
tell the names of its undefined variables, the warnings about generators are the texts of its error statements, and the warnings
about loops those of its comments that warn, each as often as it is marked; there are no other reports. So there are errors if
and only if a variable of the program is undefined, and a compiled query has errors just then. -/
theorem reports_match_markers :
    (∀ (s : Program.Setting) (root : Node) (program : Program) (diagnostics : List Diagnostic),
      Program.generate s root = some (program, diagnostics) →
        ((diagnostics.filter Diagnostic.isError).map Diagnostic.message).Perm
          ((program.exprs.filterMap Expr.undefined?).map fun name => "var '" ++ name ++ "' not defined") ∧
        ((diagnostics.filter Diagnostic.isUnsolved).map Diagnostic.message).Perm (Stmt.select Stmt.error? program.body) ∧
        ((diagnostics.filter Diagnostic.isDisagreement).map fun d => "WARNING! " ++ d.message).Perm
          (Stmt.select Stmt.warning? program.body) ∧
        (∀ d ∈ diagnostics, d.isError = true ∨ d.isUnsolved = true ∨ d.isDisagreement = true) ∧
        (diagnostics.any Diagnostic.isError = true ↔ ∃ name, .undefined name ∈ program.exprs)) ∧
    ∀ (q : Query) (options : Options) (c : Compiled), compile q options = .ok c →
      (c.hasErrors = true ↔ ∃ name, .undefined name ∈ c.program.exprs) := by
  refine ⟨fun s root program diagnostics h => ?_, fun q options c hc => ?_⟩
  · exact ⟨Program.errors_perm h, Program.unsolved_perm h, Program.disagreements_perm h,
      fun d => Program.kind_of_mem_diagnostics h, Program.any_isError_iff h⟩
  · obtain ⟨D, hD⟩ := compiles_of_ok hc
    exact Program.any_isError_iff hD.generated

/-- The sum of a variable that is said to be bound, but is drawn from itself only. -/
def tangledSum : Node := .reduce { bound := .single 0 } ⟨.sum, false⟩ .eager (.var {} 0)

/-- What a program for the tangled sum is generated with. -/
def tangledSetting : Program.Setting := ⟨⟨["*A"]⟩, [⟨0, .var { free := .single 0 } 0, "*A[*A]"⟩], "sum(*A)", true⟩

/-- Two variables, each drawn from the values of the other. -/
def crossed : Query := .plus (.get (.ident "*B") (.ident "*A")) (.get (.ident "*A") (.ident "*B"))

/-- On the tangled sum all three kinds of reports are made. -/
theorem generate_tangledSum :
    (Program.generate tangledSetting tangledSum).map (fun x => x.2.map fun d => (d.severity, d.message)) =
      some [(.warning, "bound variables of tmp0 disagree: inferred \x7b*A\x7d, recomputed \x7b\x7d"),
        (.warning, "unsolved filter ordering problem: *A := *A[*A]"), (.error, "var '*A' not defined")] := by
  decide +kernel

/-- Variables that are drawn from each other compile with errors. -/
theorem compile_crossed : ∃ c, compile crossed ⟨.desired, true, true⟩ = .ok c ∧ c.hasErrors = true :=
  exists_compile_of_any (by decide +kernel)

/-- The three reports on the tangled sum have their marks, and the errors on the crossed variables have undefined
expressions. -/
theorem reports_match_markers_tangledSum :
    (∃ program diagnostics, Program.generate tangledSetting tangledSum = some (program, diagnostics) ∧
      diagnostics.map Diagnostic.severity = [.warning, .warning, .error] ∧
      ((diagnostics.filter Diagnostic.isError).map Diagnostic.message).Perm
        ((program.exprs.filterMap Expr.undefined?).map fun name => "var '" ++ name ++ "' not defined") ∧
      ((diagnostics.filter Diagnostic.isUnsolved).map Diagnostic.message).Perm (Stmt.select Stmt.error? program.body) ∧
      ((diagnostics.filter Diagnostic.isDisagreement).map fun d => "WARNING! " ++ d.message).Perm
        (Stmt.select Stmt.warning? program.body)) ∧
    ∃ c, compile crossed ⟨.desired, true, true⟩ = .ok c ∧ c.hasErrors = true ∧ ∃ name, .undefined name ∈ c.program.exprs := by
  constructor
  · obtain ⟨⟨program, diagnostics⟩, hgenerate, hmessages⟩ := Option.map_eq_some_iff.1 generate_tangledSum
    obtain ⟨herrors, hunsolved, hloops, -⟩ := reports_match_markers.1 _ _ _ _ hgenerate
    have hseverities := congrArg (List.map Prod.fst) hmessages
    rw [List.map_map] at hseverities
    exact ⟨program, diagnostics, hgenerate, hseverities, herrors, hunsolved, hloops⟩
  · obtain ⟨c, hc, herrors⟩ := compile_crossed
    exact ⟨c, hc, herrors, (reports_match_markers.2 _ _ c hc).1 herrors⟩

end StarQuery
