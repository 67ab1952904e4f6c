import StarQuery.Proofs.Program.Greedy
import StarQuery.Proofs.Program.Silent
import StarQuery.Proofs.Script.Identifiers
import StarQuery.Proofs.Script.Strings

/-!
# The lines of a script

What stands bare in the script of a compiled query are names of its variables, the titles of its aggregates, and the reports on
generators that cannot be ordered. Titles and reports quote parts of the tree, and so any string of the query. A script without
titles and without reports has only the names.
-/

namespace StarQuery

/-! ## Names -/

theorem append_subset_append {a b c d : List String} (h : a ⊆ b) (h' : c ⊆ d) : a ++ c ⊆ b ++ d :=
  List.append_subset.2 ⟨List.subset_append_of_subset_left _ h, List.subset_append_of_subset_right _ h'⟩

mutual
/-- The identifiers of a query are among its strings. -/
theorem Query.identifiers_subset : ∀ q : Query, q.identifiers ⊆ q.bareStrings
  | .input | .const _ => List.nil_subset _
  | .ident _ => List.Subset.refl _
  | .member key => identifiers_subset key
  | .get base key => append_subset_append (identifiers_subset base) (identifiers_subset key)
  | .apply head args | .hint head args => append_subset_append (identifiers_subset head) (listIdentifiers_subset args)
  | .op _ args | .array args => listIdentifiers_subset args
  | .object entries => entryIdentifiers_subset entries
/-- The identifiers of a list of queries are among its strings. -/
theorem Query.listIdentifiers_subset : ∀ qs : List Query, listIdentifiers qs ⊆ listBareStrings qs
  | [] => List.Subset.refl _
  | q :: rest => append_subset_append (Query.identifiers_subset q) (Query.listIdentifiers_subset rest)
/-- The identifiers of the entries of an object literal are among their strings. -/
theorem Query.entryIdentifiers_subset : ∀ entries : List (Query × Query), entryIdentifiers entries ⊆ entryBareStrings entries
  | [] => List.Subset.refl _
  | (key, value) :: rest =>
    append_subset_append (append_subset_append (Query.identifiers_subset key) (Query.identifiers_subset value))
      (Query.entryIdentifiers_subset rest)
end

/-- The named variables of a query are among its strings. -/
theorem Query.namedVariables_subset_bareStrings (q : Query) : q.namedVariables ⊆ q.bareStrings := fun _ hx =>
  q.identifiers_subset (List.mem_of_mem_filter hx)

/-- Single lines, joined by a single line, are a single line. -/
theorem oneLine_intercalate {separator : String} (hseparator : OneLine separator) {xs : List String}
    (h : ∀ x ∈ xs, OneLine x) : OneLine (separator.intercalate xs) := by
  induction xs with
  | nil => exact (by decide : OneLine "")
  | cons x xs ih =>
    rw [List.forall_mem_cons] at h
    cases xs with
    | nil =>
      rw [String.intercalate_singleton]
      exact h.1
    | cons y ys =>
      rw [String.intercalate_cons_cons, oneLine_append, oneLine_append]
      exact ⟨⟨h.1, hseparator⟩, ih h.2⟩

/-- The names of some variables are listed in one line, if each name is one. -/
theorem NameTable.oneLine_namesOf {t : NameTable} (hnames : ∀ v, OneLine (t.name v)) (vars : VarSet) :
    OneLine (t.namesOf vars) :=
  oneLine_intercalate (by decide) (List.forall_mem_map.2 fun v _ => hnames v)

/-! ## Generated programs -/

namespace Program

variable {s : Setting} {entries : List Entry}

/-- An aggregate that has an expression is one of the entries. -/
theorem ExprOf.exists_entry {env : VarSet} {n : Node} {x : Expr} (h : ExprOf s entries env n x) (hn : n.gathers = true) :
    ∃ entry ∈ entries, entry.node = n := by
  cases h with
  | slot _ hentry hnode => exact ⟨_, hentry, hnode⟩
  | _ => cases hn

/-- The title of an aggregate quotes its text. -/
theorem BlockOf.oneLine_text {limit slot : Nat} {n : Node} {block : List Stmt} (h : BlockOf s entries limit slot n block)
    (hcomments : s.comments = true) (hblock : Stmt.Every (fun st => ∀ text ∈ st.bareTexts s.table, OneLine text) block) :
    OneLine (n.text s.table) := by
  obtain ⟨start, steps, -, -, rfl⟩ := h
  rw [Stmt.every_append, Stmt.every_append, Stmt.every_append, titleStmts, if_pos hcomments] at hblock
  have htitle := hblock.1.1.1 _ List.mem_cons_self _ List.mem_cons_self
  exact (oneLine_append.1 htitle).2

/-- A statement that is a single line, or else a report on a generator. -/
def Tidy (s : Setting) (st : Stmt) : Prop :=
  (∀ text ∈ st.bareTexts s.table, OneLine text) ∨ ∃ g ∈ s.generators, st = unsolvedStmt s g

variable (hnames : ∀ v, OneLine (s.table.name v))

include hnames

/-- What stands bare in the expression of a variable is its name. -/
theorem oneLine_varOf (env : VarSet) (v : Var) : ∀ text ∈ (varOf s env v).bareTexts s.table, OneLine text := by
  unfold varOf
  split
  · exact List.forall_mem_singleton.2 (hnames v)
  · exact List.forall_mem_singleton.2 (hnames v)

/-- What stands bare in the expression of a node are names. -/
theorem ExprOf.oneLine {env : VarSet} {n : Node} {x : Expr} (h : ExprOf s entries env n x) :
    ∀ text ∈ x.bareTexts s.table, OneLine text := by
  induction h with
  | input | const | hint => exact fun _ h => absurd h List.not_mem_nil
  | var i v => exact oneLine_varOf hnames env v
  | @get i base key b k _ _ hbase hkey =>
    have hparts : ∀ text ∈ (b.parts ++ k.parts).filterMap (Expr.bareText? s.table), OneLine text := by
      rw [List.filterMap_append, List.forall_mem_append]
      exact ⟨hbase, hkey⟩
    split
    · exact hparts
    · exact hparts
  | pointwise hlen _ ih =>
    refine Expr.forall_listBareTexts.2 fun x hx => ?_
    obtain ⟨n, -, hzip⟩ := Node.mem_zip_of_mem_right hlen hx
    exact ih _ hzip
  | keySet _ ih => exact ih
  | slot => exact Expr.forall_listBareTexts.2 (List.forall_mem_map.2 fun v _ => oneLine_varOf hnames env v)

/-- What stands bare in a first state are names. -/
theorem FirstOf.oneLine {env : VarSet} {n : Node} {x : Expr} {copy : Bool} (h : FirstOf s entries env n x copy) :
    ∀ text ∈ x.bareTexts s.table, OneLine text := by
  cases h with
  | reduce | scan => exact fun _ h => absurd h List.not_mem_nil
  | update hbase => exact hbase.oneLine hnames

/-- What stands bare in an action are names. -/
theorem ActionOf.oneLine {env : VarSet} {n : Node} {a : Action} (h : ActionOf s entries env n a) :
    ∀ x ∈ a.exprs, ∀ text ∈ x.bareTexts s.table, OneLine text := by
  cases h with
  | reduce harg | scan harg => exact List.forall_mem_singleton.2 (harg.oneLine hnames)
  | update hlen hkeys hvalue =>
    refine List.forall_mem_append.2 ⟨fun x hx => ?_, List.forall_mem_singleton.2 (hvalue.oneLine hnames)⟩
    obtain ⟨n, -, hzip⟩ := Node.mem_zip_of_mem_right hlen hx
    exact (hkeys _ hzip).oneLine hnames

/-- A statement that has names of variables for its own texts is a single line, if its expressions are. -/
theorem tidy_of_keys {st : Stmt} (keys : List Var) (hown : st.ownTexts s.table = keys.map s.table.name)
    (hexprs : ∀ x ∈ st.exprs, ∀ text ∈ x.bareTexts s.table, OneLine text) : Tidy s st := by
  refine .inl (Stmt.forall_bareTexts.2 ⟨?_, hexprs⟩)
  rw [hown, List.forall_mem_map]
  exact fun v _ => hnames v

/-- A nest is tidy if its body is. -/
theorem NestOf.tidy {limit : Nat} {vars : VarSet} {body : List Stmt → Prop} {stmts : List Stmt}
    (h : NestOf s entries limit vars body stmts) (hbody : ∀ inner, body inner → Stmt.Every (Tidy s) inner) :
    Stmt.Every (Tidy s) stmts := by
  refine h.every hbody (fun _ l _ x hx deep inner => ?_) (fun _ g hg => .inr ⟨g, ?_, rfl⟩)
    (fun id keys fill inner => tidy_of_keys hnames keys rfl fun _ h => absurd h List.not_mem_nil)
    (fun id keys => tidy_of_keys hnames keys rfl fun _ h => absurd h List.not_mem_nil)
  · have hsource : ∀ y ∈ [x], ∀ text ∈ y.bareTexts s.table, OneLine text := List.forall_mem_singleton.2 (hx.oneLine hnames)
    exact ⟨tidy_of_keys hnames [l.generator.var] rfl hsource,
      tidy_of_keys hnames [l.generator.var] rfl hsource⟩
  · -- The plan leaves over only generators that it was given.
    have hmem := (Plan.perm_ofGenerators _ _ _).mem_iff.1 (List.mem_append_right _ hg)
    exact List.mem_of_mem_filter hmem

/-- The block of an aggregate is tidy if there is no title or the text of the aggregate is one line. -/
theorem BlockOf.tidy {limit slot : Nat} {n : Node} {block : List Stmt} (h : BlockOf s entries limit slot n block)
    (htitle : s.comments = true → OneLine (n.text s.table)) : Stmt.Every (Tidy s) block := by
  obtain ⟨start, steps, hstart, hsteps, rfl⟩ := h
  have hcomment : ∀ text, OneLine text → Stmt.Every (Tidy s) [.comment text] := by
    intro text htext st hst
    rw [List.mem_singleton.1 hst]
    exact .inl (List.forall_mem_singleton.2 htext)
  rw [Stmt.every_append, Stmt.every_append, Stmt.every_append]
  refine ⟨⟨⟨?_, ?_⟩, ?_⟩, ?_⟩
  · unfold titleStmts
    split
    · rename_i hcomments
      refine hcomment _ ?_
      simp +decide only [oneLine_append, oneLine_toString, NameTable.oneLine_namesOf hnames, htitle hcomments, true_and]
    · exact Stmt.every_nil _
  · unfold warningStmts disagreement
    split
    · exact Stmt.every_nil _
    · refine hcomment _ ?_
      simp +decide only [oneLine_append, oneLine_toString, NameTable.oneLine_namesOf hnames, true_and]
  · rcases hstart with ⟨-, rfl⟩ | ⟨-, hstart⟩
    · exact Stmt.every_nil _
    · refine hstart.tidy hnames ?_
      rintro _ ⟨x, copy, hx, rfl⟩ st hst
      rw [List.mem_singleton.1 hst]
      exact tidy_of_keys hnames _ rfl (List.forall_mem_singleton.2 (hx.oneLine hnames))
  · refine NestOf.tidy hnames hsteps ?_
    rintro _ ⟨action, haction, rfl⟩ st hst
    rw [List.mem_singleton.1 hst]
    exact tidy_of_keys hnames _ rfl (haction.oneLine hnames)

end Program

/-! ## Compiled queries -/

namespace Derivation

variable {q : Query} (D : Derivation q)

/-- The names of the table are single lines if the named variables of the query are. -/
theorem oneLine_name (hnamed : ∀ x ∈ q.namedVariables, OneLine x) (v : Var) : OneLine (D.naming.table.name v) := by
  by_cases hv : v < D.naming.table.names.length
  · rcases D.mem_names (NameTable.name_mem hv) with hx | hx
    · exact hnamed _ hx
    · exact hx.oneLine
  · rw [NameTable.name, List.getElem?_eq_none (Nat.le_of_not_lt hv)]
    decide

/-- The strings of a query are single lines just if those of its annotated tree are. -/
theorem oneLine_annotated (out : VarSet) :
    (∀ s ∈ (Node.annotated D.dependencies D.root out out []).bareStrings D.naming.table, OneLine s) ↔
      ∀ s ∈ q.bareStrings, OneLine s := by
  rw [← Node.bareStrings_bare, Node.bare_annotated, root, Node.bare_withExtents, D.reads.bare_eq, D.reads.oneLine_iff]
  have hterm := Term.oneLine_ofQuery q
  rw [D.resolved] at hterm
  exact hterm

/-- The strings of a query are single lines just if those of its tree are. -/
theorem oneLine_tree_iff (output : Output) :
    (∀ s ∈ (D.tree output).bareStrings D.naming.table, OneLine s) ↔ ∀ s ∈ q.bareStrings, OneLine s := by
  have hinner := D.oneLine_annotated (output.indexOf D.root)
  unfold tree Node.closed
  split
  · exact hinner
  · rw [Node.groupedBy, Node.bareStrings, List.forall_mem_append, List.forall_mem_append, hinner]
    refine ⟨fun h => h.1.2, fun h => ⟨⟨List.forall_mem_append.2 ⟨fun _ hs => absurd hs List.not_mem_nil, ?_⟩, h⟩,
      fun _ hs => absurd hs List.not_mem_nil⟩⟩
    -- The key of the grouping has names of the table only.
    rw [Node.bareStrings, Node.listBareStrings_eq, List.flatMap_map, List.forall_mem_flatMap]
    refine fun v _ => List.forall_mem_singleton.2 (D.oneLine_name (fun x hx => h x ?_) v)
    exact q.namedVariables_subset_bareStrings hx

end Derivation

section

variable {q : Query} {options : Options} {c : Compiled} {D : Derivation q} (hD : Compiles q options c D)

include hD

/-- What stands bare in the script of a compiled query is one line, if the named variables of the query are and no other string
of it is quoted, or all its strings are. -/
theorem Compiles.oneLine_bareTexts (hnamed : ∀ x ∈ q.namedVariables, OneLine x)
    (hquoted : (∀ s ∈ q.bareStrings, OneLine s) ∨ options.comments = false ∧ c.diagnostics = []) :
    ∀ text ∈ c.program.bareTexts, OneLine text := by
  obtain ⟨entries, hbuilt, -, hbody, hresult, htable, -⟩ := hD.history
  have hnames : ∀ v, OneLine ((D.setting options).table.name v) := D.oneLine_name hnamed
  have htext : (∀ s ∈ q.bareStrings, OneLine s) → ∀ m ∈ (D.tree options.output).postorder,
      OneLine (m.text D.naming.table) := by
    intro h m hm
    rw [Node.oneLine_text_iff]
    exact fun s hs => (D.oneLine_tree_iff options.output).2 h s (Node.bareStrings_subset hm hs)
  have htidy : Stmt.Every (Program.Tidy (D.setting options)) c.program.body := by
    rw [hbody]
    refine Stmt.every_flatMap fun x hx => ?_
    obtain ⟨hmem, -, earlier, hblock⟩ := hbuilt.forall_mem hx
    refine hblock.tidy hnames fun hcomments => ?_
    rcases hquoted with h | ⟨hoff, -⟩
    · exact htext h x.node hmem
    · cases hoff.symm.trans hcomments
  rw [Program.bareTexts, htable, List.forall_mem_append, List.forall_mem_flatMap]
  refine ⟨fun st hst => ?_, hresult.oneLine hnames⟩
  rcases htidy st hst with h | ⟨g, hg, rfl⟩
  · exact h
  · rcases hquoted with h | ⟨-, hreports⟩
    · obtain ⟨i, base, j, v, hmem, rfl⟩ := Catalogue.mem_generators.1 hg
      have hhead : OneLine ("unsolved filter ordering problem: " ++ D.naming.table.name v ++ " := ") :=
        oneLine_append.2 ⟨oneLine_append.2 ⟨by decide, hnames v⟩, by decide⟩
      exact List.forall_mem_singleton.2 (oneLine_append.2 ⟨hhead, htext h _ hmem⟩)
    · exact absurd hst ((hD.silent hreports).1 _)

/-- The title of the outermost aggregate quotes every string of the query. -/
theorem Compiles.oneLine_bareStrings (hcomments : options.comments = true) (hgathers : c.tree.gathers = true)
    (htexts : ∀ text ∈ c.program.bareTexts, OneLine text) : ∀ s ∈ q.bareStrings, OneLine s := by
  obtain ⟨entries, hbuilt, -, hbody, hresult, htable, -⟩ := hD.history
  rw [hD.tree] at hgathers
  obtain ⟨x, hx, hnode⟩ := hresult.exists_entry hgathers
  obtain ⟨-, -, earlier, hblock⟩ := hbuilt.forall_mem hx
  obtain ⟨before, after, hentries⟩ := List.append_of_mem hx
  rw [Program.bareTexts, htable, List.forall_mem_append, List.forall_mem_flatMap] at htexts
  have hevery : Stmt.Every (fun st => ∀ text ∈ st.bareTexts D.naming.table, OneLine text) c.program.body := htexts.1
  rw [hbody, hentries, List.flatMap_append, List.flatMap_cons, Stmt.every_append, Stmt.every_append] at hevery
  have htext := hblock.oneLine_text hcomments hevery.2.1
  rw [← D.oneLine_tree_iff options.output, ← Node.oneLine_text_iff, ← hnode]
  exact htext

end

/-- The lines of the script of a compiled query.

* They are single lines just if what stands in the script bare is: names, titles and reports; and only then has the code as many
  lines as the script.
* They are if all strings of the query are, whatever the options.
* A script with titles quotes all strings of a query that is an aggregate; so its lines are single lines only if these are.
* A script without titles and without reports quotes none; its lines are single lines if the named variables are. -/
theorem script_lines_single_iff {q : Query} {options : Options} {c : Compiled} (hc : compile q options = .ok c) :
    (∀ indent, (∀ line ∈ c.program.script indent, OneLine line) ↔ ∀ text ∈ c.program.bareTexts, OneLine text) ∧
    (c.code.toList.count '\n' + 1 = (c.program.script 4).length ↔ ∀ line ∈ c.program.script 4, OneLine line) ∧
    ((∀ s ∈ q.bareStrings, OneLine s) → ∀ indent, ∀ line ∈ c.program.script indent, OneLine line) ∧
    (options.comments = true → c.tree.gathers = true → ∀ indent, (∀ line ∈ c.program.script indent, OneLine line) →
      ∀ s ∈ q.bareStrings, OneLine s) ∧
    (options.comments = false → c.diagnostics = [] → (∀ x ∈ q.namedVariables, OneLine x) →
      ∀ indent, ∀ line ∈ c.program.script indent, OneLine line) := by
  obtain ⟨D, hD⟩ := compiles_of_ok hc
  have hscript := fun indent => Program.oneLine_script_iff indent c.program
  refine ⟨hscript, (count_joined (List.cons_ne_nil _ _)).2, fun hstrings indent => ?_,
    fun hcomments hgathers indent hlines => ?_, fun hcomments hreports hnamed indent => ?_⟩
  · have hnamed : ∀ x ∈ q.namedVariables, OneLine x := fun x hx => hstrings x (q.namedVariables_subset_bareStrings hx)
    exact (hscript indent).2 (hD.oneLine_bareTexts hnamed (.inl hstrings))
  · exact hD.oneLine_bareStrings hcomments hgathers ((hscript indent).1 hlines)
  · exact (hscript indent).2 (hD.oneLine_bareTexts hnamed (.inr ⟨hcomments, hreports⟩))

/-- The sum of a string of two lines. -/
def sumOfLines : Query := .sum (.const (.str "a\nb"))

/-- The title of the sum breaks a line of its script, and the code has more lines than the script. Without titles it has not, and
neither have the totals below each key. -/
theorem script_lines_single_iff_sumOfLines :
    (∃ c, compile sumOfLines = .ok c ∧ c.tree.gathers = true ∧ (¬ ∀ line ∈ c.program.script 4, OneLine line) ∧
      c.code.toList.count '\n' + 1 ≠ (c.program.script 4).length) ∧
    (∃ c, compile sumOfLines { comments := false } = .ok c ∧ c.diagnostics = [] ∧
      ∀ line ∈ c.program.script 4, OneLine line) ∧
    ∃ c, compile totalsBelow = .ok c ∧ ∀ line ∈ c.program.script 4, OneLine line := by
  obtain ⟨c, hc, hgathers⟩ := exists_compile_of_any
    (by decide +kernel : (compile sumOfLines).toOption.any (fun c => c.tree.gathers) = true)
  obtain ⟨c', hc', hempty⟩ := exists_compile_of_any
    (by decide +kernel : (compile sumOfLines { comments := false }).toOption.any (fun c => c.diagnostics.isEmpty) = true)
  obtain ⟨c'', hc'', -⟩ := compile_totalsBelow
  have hreports := List.isEmpty_iff.1 hempty
  have hbroken : ¬ ∀ line ∈ c.program.script 4, OneLine line := fun hlines =>
    absurd ((script_lines_single_iff hc).2.2.2.1 rfl hgathers 4 hlines) (by decide)
  refine ⟨⟨c, hc, hgathers, hbroken, fun hcount => hbroken ((script_lines_single_iff hc).2.1.1 hcount)⟩, ⟨c', hc', hreports, ?_⟩,
    c'', hc'', ?_⟩
  · exact (script_lines_single_iff hc').2.2.2.2 rfl hreports (by decide) 4
  · exact (script_lines_single_iff hc'').2.2.1 (by decide +kernel) 4

end StarQuery
