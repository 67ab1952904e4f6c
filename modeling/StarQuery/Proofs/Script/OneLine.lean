import StarQuery.Proofs.Json.Text
import StarQuery.Proofs.Program.Statements
import StarQuery.Program.Script

/-!
# Texts of one line

Constants are written into a script as JSON texts, which have no line feeds. What stands in it bare is the text of comments and
reports, the names of variables, and the names of those that are not defined. So the lines of a script are single lines just if
these texts are (`Program.oneLine_script_iff`).
-/

namespace StarQuery

/-- Whether a text is one line: it has no line feed. -/
def OneLine (text : String) : Prop := ¬ '\n' ∈ text.toList

instance (text : String) : Decidable (OneLine text) := inferInstanceAs (Decidable (¬ _))

theorem oneLine_append {a b : String} : OneLine (a ++ b) ↔ OneLine a ∧ OneLine b := by
  simp [OneLine, not_or]

theorem oneLine_ofList {cs : List Char} : OneLine (String.ofList cs) ↔ ¬ '\n' ∈ cs := by
  rw [OneLine, String.toList_ofList]

/-- A number is written in one line. -/
theorem oneLine_toString (n : Nat) : OneLine (toString n) := by
  rw [OneLine, Nat.toString_eq_ofList_toDigits, String.toList_ofList]
  intro h
  exact absurd (Decimal.isDigit_toDigits n _ h) (by decide)

/-! ## Values -/

namespace Json

/-- A line feed in a string is escaped. -/
theorem not_mem_escape (c : Char) : ¬ '\n' ∈ escape c := by
  have hdigit : ∀ n, '\n' ≠ hexDigit n := by
    intro n
    have hall : ∀ k < 16, '\n' ≠ Nat.digitChar k := by decide
    exact hall (n % 16) (Nat.mod_lt n (by decide))
  unfold escape
  split
  case h_8 =>
    split
    · simp [hdigit]
    · rename_i hother _ _ _
      intro h
      exact hother (List.mem_singleton.1 h).symm
  all_goals decide

/-- A string between quotes has no line feed. -/
theorem not_mem_quoted (s : String) : ¬ '\n' ∈ quoted s := by
  simp [quoted, not_mem_escape]

mutual
/-- A value is written without line feeds. -/
theorem not_mem_chars : ∀ v : Json, ¬ '\n' ∈ chars v
  | .null => by decide
  | .bool b => by cases b <;> decide
  | .num n => by
    obtain ⟨c, cs, htext, -, hall⟩ := n.text_shape
    rw [chars, htext]
    intro h
    exact absurd (hall _ h) (by decide)
  | .str s => not_mem_quoted s
  | .arr items => by simp [chars, not_mem_itemChars items]
  | .obj fields => by simp [chars, not_mem_fieldChars fields]
/-- The items of an array are written without line feeds. -/
theorem not_mem_itemChars : ∀ items : List Json, ¬ '\n' ∈ itemChars items
  | [] => by simp [itemChars]
  | [v] => by simp [itemChars, not_mem_chars v]
  | v :: w :: rest => by simp [itemChars, not_mem_chars v, not_mem_itemChars (w :: rest)]
/-- The fields of an object are written without line feeds. -/
theorem not_mem_fieldChars : ∀ fields : List (String × Json), ¬ '\n' ∈ fieldChars fields
  | [] => by simp [fieldChars]
  | [(k, v)] => by simp [fieldChars, not_mem_quoted, not_mem_chars v]
  | (k, v) :: w :: rest => by simp [fieldChars, not_mem_quoted, not_mem_chars v, not_mem_fieldChars (w :: rest)]
end

/-- The text of a value is one line, whatever strings are in it. -/
theorem oneLine_text (v : Json) : OneLine v.text := oneLine_ofList.2 (not_mem_chars v)

end Json

/-- The name of a pointwise operator is one line. -/
theorem Pointwise.oneLine_name (op : Pointwise) : OneLine op.name := by
  cases op <;> decide

/-- The name of a reducer is one line. -/
theorem Reducer.oneLine_name (op : Reducer) : OneLine op.name := by
  obtain ⟨f, nullable⟩ := op
  cases f <;> cases nullable <;> decide

/-! ## Expressions -/

/-- The text of an expression that stands bare in a script, apart from those of the expressions in it. -/
def Expr.bareText? (t : NameTable) : Expr → Option String
  | .var v => some (t.name v)
  | .undefined name => some name
  | _ => none

/-- The texts that stand bare in the script of an expression. -/
def Expr.bareTexts (t : NameTable) (e : Expr) : List String := e.parts.filterMap (bareText? t)

/-- The texts that stand bare in the scripts of expressions. -/
def Expr.listBareTexts (t : NameTable) (es : List Expr) : List String := (listParts es).filterMap (bareText? t)

/-- The bare texts of a list of expressions are those of each. -/
theorem Expr.listBareTexts_eq (t : NameTable) (es : List Expr) : listBareTexts t es = es.flatMap (bareTexts t) := by
  induction es with
  | nil => rfl
  | cons e es ih =>
    rw [listBareTexts] at ih ⊢
    rw [listParts, List.filterMap_append, ih, List.flatMap_cons, bareTexts]

/-- What holds of all bare texts of a list of expressions holds of those of each. -/
theorem Expr.forall_listBareTexts {t : NameTable} {es : List Expr} {P : String → Prop} :
    (∀ text ∈ listBareTexts t es, P text) ↔ ∀ x ∈ es, ∀ text ∈ x.bareTexts t, P text := by
  rw [listBareTexts_eq, List.forall_mem_flatMap]

namespace Program

variable (t : NameTable)

/-- A variable is spelled in one line just if its name is one. -/
theorem oneLine_identifier (v : Var) : OneLine (identifier t v) ↔ OneLine (t.name v) := by
  rw [identifier, oneLine_ofList, OneLine, List.mem_map, not_iff_not]
  constructor
  · rintro ⟨c, hc, heq⟩
    split at heq
    · cases heq
    · exact heq ▸ hc
  · exact fun h => ⟨_, h, rfl⟩

mutual
/-- An expression is written in one line just if what stands bare in it is one line. -/
theorem oneLine_exprScript : ∀ e : Expr, OneLine (exprScript t e) ↔ ∀ text ∈ e.bareTexts t, OneLine text
  | .input => iff_of_true (by decide : OneLine "inp") fun _ h => absurd h List.not_mem_nil
  | .nop => iff_of_true (by decide : OneLine "(\x7b\x7d)") fun _ h => absurd h List.not_mem_nil
  | .const value => iff_of_true value.oneLine_text fun _ h => absurd h List.not_mem_nil
  | .var v => (oneLine_identifier t v).trans List.forall_mem_singleton.symm
  | .undefined name => by
    change OneLine ("undefined /* ERROR: var '" ++ name ++ "' not defined */") ↔ ∀ text ∈ [name], OneLine text
    simp +decide only [oneLine_append, true_and, and_true, List.forall_mem_singleton]
  | .get base key => by
    change OneLine (exprScript t base ++ "?.[" ++ exprScript t key ++ "]") ↔ _
    simp +decide only [oneLine_append, oneLine_exprScript base, oneLine_exprScript key, and_true]
    simp [Expr.bareTexts, Expr.parts, Expr.bareText?, or_imp, forall_and]
  | .deepGet base path => by
    change OneLine ("rt.deepGet(" ++ exprScript t base ++ ", " ++ exprScript t path ++ ")") ↔ _
    simp +decide only [oneLine_append, oneLine_exprScript base, oneLine_exprScript path, true_and, and_true]
    simp [Expr.bareTexts, Expr.parts, Expr.bareText?, or_imp, forall_and]
  | .pointwise op args => by
    change OneLine ("rt.pure." ++ op.name ++ "(" ++ argsScript t args ++ ")") ↔ ∀ text ∈ Expr.listBareTexts t args, _
    simp +decide only [oneLine_append, op.oneLine_name, oneLine_argsScript args, true_and, and_true]
  | .singleton arg => by
    change OneLine ("rt.singleton(" ++ exprScript t arg ++ ")") ↔ ∀ text ∈ arg.bareTexts t, _
    simp +decide only [oneLine_append, oneLine_exprScript arg, true_and, and_true]
  | .slot slot keys => by
    change OneLine ("tmp[" ++ toString slot ++ "]" ++ keysScript t keys) ↔ ∀ text ∈ Expr.listBareTexts t keys, _
    simp +decide only [oneLine_append, oneLine_toString, oneLine_keysScript keys, true_and]
/-- Arguments are written in one line just if what stands bare in them is one line. -/
theorem oneLine_argsScript : ∀ es : List Expr, OneLine (argsScript t es) ↔ ∀ text ∈ Expr.listBareTexts t es, OneLine text
  | [] => iff_of_true (by decide : OneLine "") fun _ h => absurd h List.not_mem_nil
  | [e] => by
    rw [argsScript, oneLine_exprScript e]
    simp [Expr.bareTexts, Expr.listBareTexts, Expr.listParts]
  | e :: e' :: rest => by
    change OneLine (exprScript t e ++ ", " ++ argsScript t (e' :: rest)) ↔ _
    simp +decide only [oneLine_append, oneLine_exprScript e, oneLine_argsScript (e' :: rest), and_true]
    simp [Expr.bareTexts, Expr.listBareTexts, Expr.listParts, or_imp, forall_and]
/-- The keys of a slot are written in one line just if what stands bare in them is one line. -/
theorem oneLine_keysScript : ∀ es : List Expr, OneLine (keysScript t es) ↔ ∀ text ∈ Expr.listBareTexts t es, OneLine text
  | [] => iff_of_true (by decide : OneLine "") fun _ h => absurd h List.not_mem_nil
  | e :: rest => by
    change OneLine ("?.[" ++ exprScript t e ++ "]" ++ keysScript t rest) ↔ _
    simp +decide only [oneLine_append, oneLine_exprScript e, oneLine_keysScript rest, true_and, and_true]
    simp [Expr.bareTexts, Expr.listBareTexts, Expr.listParts, or_imp, forall_and]
end

/-- Variables after other arguments are written in one line just if their names are. -/
theorem oneLine_furtherArgs (vs : List Var) : OneLine (furtherArgs t vs) ↔ ∀ text ∈ vs.map t.name, OneLine text := by
  induction vs with
  | nil => exact iff_of_true (by decide : OneLine "") fun _ h => absurd h List.not_mem_nil
  | cons v vs ih =>
    rw [furtherArgs] at ih ⊢
    rw [List.map_cons, String.join_cons, oneLine_append, oneLine_append, oneLine_identifier, ih, List.map_cons,
      List.forall_mem_cons]
    simp +decide only [true_and]

/-- The function of a reducer is written in one line. -/
theorem oneLine_reducerMember (op : Reducer) : OneLine (reducerMember op) := by
  unfold reducerMember
  split <;> simp +decide only [oneLine_append, op.oneLine_name, and_self]

/-- An action is written in one line just if what stands bare in its expressions is one line. -/
theorem oneLine_actionScript (a : Action) :
    OneLine (actionScript t a) ↔ ∀ x ∈ a.exprs, ∀ text ∈ x.bareTexts t, OneLine text := by
  cases a with
  | reduce op arg =>
    change OneLine (reducerMember op ++ "(" ++ exprScript t arg ++ ")") ↔ ∀ x ∈ [arg], _
    simp +decide only [oneLine_append, oneLine_reducerMember, oneLine_exprScript, true_and, and_true, List.forall_mem_singleton]
  | scan op arg =>
    change OneLine ("rt.stateful.prefix(" ++ reducerMember op ++ "(" ++ exprScript t arg ++ "))") ↔ ∀ x ∈ [arg], _
    simp +decide only [oneLine_append, oneLine_reducerMember, oneLine_exprScript, true_and, and_true, List.forall_mem_singleton]
  | update keys value =>
    change OneLine ("rt.stateful.update([" ++ argsScript t keys ++ "], " ++ exprScript t value ++ ")") ↔
      ∀ x ∈ keys ++ [value], _
    simp +decide only [oneLine_append, oneLine_argsScript, oneLine_exprScript, true_and, and_true, List.forall_mem_append,
      List.forall_mem_singleton, Expr.forall_listBareTexts]

end Program

/-! ## Statements -/

namespace Stmt

/-- The texts of a statement that stand bare in a script, apart from those of its expressions and of the statements in it. -/
def ownTexts (t : NameTable) : Stmt → List String
  | .comment text | .error text => [text]
  | .loop _ v _ _ | .test _ v _ _ => [t.name v]
  | .project _ keys _ _ | .mark _ keys | .start _ keys _ _ | .step _ keys _ => keys.map t.name

/-- The texts of a statement and of its expressions that stand bare in a script. -/
def bareTexts (t : NameTable) (st : Stmt) : List String := st.ownTexts t ++ st.exprs.flatMap (Expr.bareTexts t)

/-- What holds of all bare texts of a statement holds of its own and of those of its expressions. -/
theorem forall_bareTexts {t : NameTable} {st : Stmt} {P : String → Prop} :
    (∀ text ∈ st.bareTexts t, P text) ↔ (∀ text ∈ st.ownTexts t, P text) ∧ ∀ x ∈ st.exprs, ∀ text ∈ x.bareTexts t, P text := by
  rw [bareTexts, List.forall_mem_append, List.forall_mem_flatMap]

end Stmt

/-- The texts that stand bare in the script of a program. -/
def Program.bareTexts (p : Program) : List String :=
  (Stmt.listNested p.body).flatMap (Stmt.bareTexts p.table) ++ p.result.bareTexts p.table

namespace Program

variable (t : NameTable) (indent : Nat)

/-- Blanks before a text do not break its line. -/
theorem oneLine_scriptLine (depth : Nat) (text : String) : OneLine (scriptLine indent depth text) ↔ OneLine text := by
  rw [scriptLine, oneLine_append, oneLine_ofList]
  simp [List.mem_replicate]

/-- The lines that open the loops through tuples are single lines just if the names of the keys are. -/
theorem oneLine_openTuples (keys : List Var) (depth : Nat) {path : String} (hpath : OneLine path) :
    (∀ line ∈ openTuples t indent depth path keys, OneLine line) ↔ ∀ text ∈ keys.map t.name, OneLine text := by
  induction keys generalizing depth path with
  | nil => exact iff_of_true (fun _ h => absurd h List.not_mem_nil) fun _ h => absurd h List.not_mem_nil
  | cons v keys ih =>
    rw [List.map_cons, List.forall_mem_cons, openTuples]
    split
    all_goals
      rw [List.forall_mem_cons, oneLine_scriptLine]
      simp +decide only [oneLine_append, oneLine_identifier, hpath, true_and, and_true, and_self]
      refine and_congr_right fun hname => ih _ ?_
      simp +decide only [oneLine_append, oneLine_identifier, hpath, hname, and_self]

/-- The lines that close those loops are single lines. -/
theorem oneLine_closeTuples (keys : List Var) (depth : Nat) : ∀ line ∈ closeTuples t indent depth keys, OneLine line := by
  induction keys generalizing depth with
  | nil => exact fun _ h => absurd h List.not_mem_nil
  | cons v keys ih =>
    rw [closeTuples, List.forall_mem_append, List.forall_mem_singleton, oneLine_scriptLine]
    refine ⟨ih _, ?_⟩
    split <;> decide

/-- A loop and a test are written alike, as a head with the source and the variable, a block, and an end. Their lines are
single lines just if what stands bare in the statement, and in the block, is one line. -/
theorem oneLine_enclosing {st : Stmt} {v : Var} {source : Expr} {body : List Stmt} {inner : List String}
    {call arrow keyword : String} (deep : Bool) (depth : Nat) (hnested : st.nested = st :: Stmt.listNested body)
    (hown : st.ownTexts t = [t.name v]) (hexprs : st.exprs = [source]) (hcall : OneLine call) (harrow : OneLine arrow)
    (hkeyword : OneLine keyword)
    (hinner : (∀ line ∈ inner, OneLine line) ↔ ∀ s ∈ Stmt.listNested body, ∀ text ∈ s.bareTexts t, OneLine text) :
    (∀ line ∈ scriptLine indent depth
        (if deep then call ++ exprScript t source ++ ", " ++ identifier t v ++ arrow
          else keyword ++ identifier t v ++ " in (" ++ exprScript t source ++ " ?? \x7b\x7d)) \x7b") ::
        (inner ++ [scriptLine indent depth (if deep then "\x7d)" else "\x7d")]), OneLine line) ↔
      ∀ s ∈ st.nested, ∀ text ∈ s.bareTexts t, OneLine text := by
  have hclose : OneLine (if deep then "\x7d)" else "\x7d") := by cases deep <;> decide
  rw [hnested, List.forall_mem_cons, List.forall_mem_append, List.forall_mem_singleton, List.forall_mem_cons,
    oneLine_scriptLine, oneLine_scriptLine, hinner, and_iff_left hclose, Stmt.forall_bareTexts, hown, hexprs]
  refine and_congr_left' ?_
  cases deep <;> simp +decide only [oneLine_append, oneLine_identifier, oneLine_exprScript, hcall, harrow, hkeyword, true_and,
    List.forall_mem_singleton, if_true, if_false, and_comm]

mutual
/-- The lines of a statement are single lines just if what stands bare in it, and in the statements in it, is one line. -/
theorem oneLine_stmtScript : ∀ (s : Stmt) (depth : Nat), (∀ line ∈ stmtScript t indent depth s, OneLine line) ↔
    ∀ st ∈ s.nested, ∀ text ∈ st.bareTexts t, OneLine text
  | .comment text, depth => by
    rw [stmtScript, Stmt.nested, List.forall_mem_singleton, List.forall_mem_singleton, oneLine_scriptLine,
      Stmt.forall_bareTexts]
    simp +decide only [oneLine_append, true_and, Stmt.ownTexts, Stmt.exprs, List.forall_mem_singleton, List.not_mem_nil,
      false_imp_iff, implies_true, and_true]
  | .error text, depth => by
    rw [stmtScript, Stmt.nested, List.forall_mem_cons, List.forall_mem_singleton, List.forall_mem_singleton,
      oneLine_scriptLine, oneLine_scriptLine, Stmt.forall_bareTexts]
    simp +decide only [oneLine_append, Json.oneLine_text, true_and, Stmt.ownTexts, Stmt.exprs, List.forall_mem_singleton,
      List.not_mem_nil, false_imp_iff, implies_true, and_true]
  | .loop deep v source body, depth => by
    rw [stmtScript]
    exact oneLine_enclosing t indent deep depth rfl rfl rfl (by decide) (by decide) (by decide) (oneLine_blockScript body _)
  | .test deep v source body, depth => by
    rw [stmtScript]
    exact oneLine_enclosing t indent deep depth rfl rfl rfl (by decide) (by decide) (by decide) (oneLine_blockScript body _)
  | .project id keys fill body, depth => by
    have hpath : OneLine ("proj" ++ toString id) := oneLine_append.2 ⟨by decide, oneLine_toString id⟩
    rw [stmtScript, Stmt.nested, List.forall_mem_cons, Stmt.forall_bareTexts]
    simp +decide only [List.forall_mem_append, List.forall_mem_cons, oneLine_scriptLine, oneLine_append, oneLine_toString,
      oneLine_blockScript fill, oneLine_blockScript body, oneLine_openTuples t indent keys _ hpath,
      and_iff_left (oneLine_closeTuples t indent keys (depth + 1)), true_and, and_true, Stmt.ownTexts, Stmt.exprs,
      List.not_mem_nil, false_imp_iff, implies_true]
    rw [and_assoc, and_left_comm]
  | .mark id keys, depth => by
    rw [stmtScript, Stmt.nested, List.forall_mem_singleton, List.forall_mem_singleton, oneLine_scriptLine,
      Stmt.forall_bareTexts]
    simp +decide only [oneLine_append, oneLine_toString, oneLine_furtherArgs, Stmt.ownTexts, Stmt.exprs, true_and, and_true,
      List.not_mem_nil, false_imp_iff, implies_true]
  | .start slot keys value copy, depth => by
    rw [stmtScript, Stmt.nested, List.forall_mem_singleton, List.forall_mem_singleton, oneLine_scriptLine,
      Stmt.forall_bareTexts]
    cases copy <;> simp +decide only [oneLine_append, oneLine_toString, oneLine_furtherArgs, oneLine_exprScript, Stmt.ownTexts,
      Stmt.exprs, true_and, and_true, if_true, if_false, List.forall_mem_singleton]
  | .step slot keys action, depth => by
    rw [stmtScript, Stmt.nested, List.forall_mem_singleton, List.forall_mem_singleton, oneLine_scriptLine,
      Stmt.forall_bareTexts]
    simp +decide only [oneLine_append, oneLine_toString, oneLine_furtherArgs, oneLine_actionScript, Stmt.ownTexts, Stmt.exprs,
      true_and, and_true]
/-- The lines of a list of statements are single lines just if what stands bare in them is one line. -/
theorem oneLine_blockScript : ∀ (stmts : List Stmt) (depth : Nat), (∀ line ∈ blockScript t indent depth stmts, OneLine line) ↔
    ∀ st ∈ Stmt.listNested stmts, ∀ text ∈ st.bareTexts t, OneLine text
  | [], _ => iff_of_true (fun _ h => absurd h List.not_mem_nil) fun _ h => absurd h List.not_mem_nil
  | s :: rest, depth => by
    rw [blockScript, Stmt.listNested, List.forall_mem_append, List.forall_mem_append, oneLine_stmtScript s,
      oneLine_blockScript rest]
end

/-- The lines of a script are single lines just if all that stands bare in it is one line. -/
theorem oneLine_script_iff (p : Program) : (∀ line ∈ p.script indent, OneLine line) ↔ ∀ text ∈ p.bareTexts, OneLine text := by
  rw [script, bareTexts, List.forall_mem_append, List.forall_mem_flatMap]
  simp +decide only [List.forall_mem_cons, List.forall_mem_append, oneLine_scriptLine, oneLine_append, oneLine_exprScript,
    oneLine_blockScript, true_and, and_true]

end Program

/-- Joined lines are no fewer lines than they were, and no more just if each was a single line. -/
theorem count_joined {lines : List String} (hne : lines ≠ []) :
    lines.length ≤ ("\n".intercalate lines).toList.count '\n' + 1 ∧
      (("\n".intercalate lines).toList.count '\n' + 1 = lines.length ↔ ∀ line ∈ lines, OneLine line) := by
  have hzero : ∀ line : String, line.toList.count '\n' = 0 ↔ OneLine line := fun line => List.count_eq_zero
  induction lines with
  | nil => exact absurd rfl hne
  | cons line rest ih =>
    cases rest with
    | nil =>
      rw [String.intercalate_singleton, List.forall_mem_singleton, ← hzero]
      simp
    | cons next rest =>
      obtain ⟨hle, hiff⟩ := ih (List.cons_ne_nil _ _)
      rw [List.forall_mem_cons, ← hiff, ← hzero, String.intercalate_cons_cons, String.toList_append, String.toList_append,
        List.count_append, List.count_append, List.length_cons]
      have hone : "\n".toList.count '\n' = 1 := by decide
      omega

end StarQuery
