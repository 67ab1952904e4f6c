import StarQuery.Proofs.Catalogue
import StarQuery.Proofs.Program.History
import StarQuery.Proofs.Program.Statements
import StarQuery.Proofs.Scope.Agreement

/-!
# Warnings about loops

What is reported while a program is generated is of three kinds: a variable is not defined, generators cannot be ordered, or
the loops of an aggregate are not those that the analysis found. The last never happens: a program is generated from the
aggregates of its tree, and these have the loops left that they were given.
-/

namespace StarQuery

namespace Program

variable {s : Setting} {entries : List Entry}

/-! ## Kinds of reports -/

/-- A report that a variable is not defined, or that a generator cannot be ordered. -/
def IsPlanning (s : Setting) (x : Diagnostic) : Prop := (∃ v, x = varReport s v) ∨ ∃ g, x = unsolvedReport s g

/-- On a variable it is reported that it is not defined. -/
theorem isPlanning_of_mem_varReports {env : VarSet} {v : Var} {x : Diagnostic} (h : x ∈ varReports s env v) :
    IsPlanning s x := by
  unfold varReports at h
  split at h
  · cases h
  · exact .inl ⟨v, List.mem_singleton.1 h⟩

/-- On an expression it is reported which variables are not defined. -/
theorem isPlanning_of_mem_exprReports {env : VarSet} {n : Node} {x : Diagnostic} (h : x ∈ exprReports s env n) :
    IsPlanning s x := by
  induction n using Node.induct with
  | input | const | hint => cases h
  | var i v => exact isPlanning_of_mem_varReports h
  | get i base key hbase hkey => exact (List.mem_append.1 h).elim hbase hkey
  | pointwise i op args ih =>
    rw [exprReports, listReports_eq] at h
    obtain ⟨n, hn, hx⟩ := List.mem_flatMap.1 h
    exact ih n hn hx
  | keySet i arg ih => exact ih h
  | reduce | scan | update =>
    obtain ⟨v, -, hx⟩ := List.mem_flatMap.1 h
    exact isPlanning_of_mem_varReports hx

/-- On a nest it is reported which of its generators cannot be ordered, and what is reported on its sources and its body. -/
theorem isPlanning_of_mem_nestReports {vars : VarSet} {body : List Diagnostic} (hbody : ∀ x ∈ body, IsPlanning s x)
    {x : Diagnostic} (h : x ∈ nestReports s vars body) : IsPlanning s x := by
  rcases List.mem_append.1 h with h | h
  · split at h
    · cases h
    · rcases List.mem_append.1 h with h | h
      · obtain ⟨l, -, hx⟩ := List.mem_flatMap.1 h
        exact isPlanning_of_mem_exprReports hx
      · obtain ⟨g, -, rfl⟩ := List.mem_map.1 h
        exact .inr ⟨g, rfl⟩
  · exact hbody x h

/-- On a first state it is reported which variables are not defined. -/
theorem isPlanning_of_mem_firstReports {env : VarSet} {n : Node} {x : Diagnostic} (h : x ∈ firstReports s env n) :
    IsPlanning s x := by
  cases n with
  | update => exact isPlanning_of_mem_exprReports h
  | _ => cases h

/-- On an action it is reported which variables are not defined. -/
theorem isPlanning_of_mem_actionReports {env : VarSet} {n : Node} {x : Diagnostic} (h : x ∈ actionReports s env n) :
    IsPlanning s x := by
  cases n with
  | reduce | scan => exact isPlanning_of_mem_exprReports h
  | update =>
    rcases List.mem_append.1 h with h | h
    · rw [listReports_eq] at h
      obtain ⟨n, -, hx⟩ := List.mem_flatMap.1 h
      exact isPlanning_of_mem_exprReports hx
    · exact isPlanning_of_mem_exprReports h
  | _ => cases h

/-- An aggregate that has the loops left that it was given is the matter of no other report. -/
theorem isPlanning_of_mem_blockReports {slot : Nat} {n : Node} (hn : loopsOf n = n.info.bound) {x : Diagnostic}
    (h : x ∈ blockReports s slot n) : IsPlanning s x := by
  rw [blockReports, warningReports, if_pos hn, List.nil_append] at h
  rcases List.mem_append.1 h with h | h
  · split at h
    · exact isPlanning_of_mem_nestReports (fun _ => isPlanning_of_mem_firstReports) h
    · cases h
  · exact isPlanning_of_mem_nestReports (fun _ => isPlanning_of_mem_actionReports) h

/-- No other report starts as one about the loops of an aggregate does. -/
theorem IsPlanning.message {x : Diagnostic} (h : IsPlanning s x) :
    ¬ "bound variables of tmp".toList <+: x.message.toList := by
  rintro ⟨rest, hrest⟩
  rcases h with ⟨v, rfl⟩ | ⟨g, rfl⟩
  · rw [message_varReport] at hrest
    simp at hrest
  · rw [message_unsolvedReport] at hrest
    simp at hrest

/-! ## Comments -/

/-- A statement is no comment that warns. -/
def NotWarning (st : Stmt) : Prop := ∀ text, st = .comment text → ¬ "WARNING!".toList <+: text.toList

/-- The comments before a block warn of nothing. -/
theorem notWarning_of_mem_title {slot : Nat} {n : Node} : Stmt.Every NotWarning (titleStmts s slot n) := by
  unfold titleStmts
  split
  · rintro st hst text rfl ⟨rest, hrest⟩
    cases List.mem_singleton.1 hst
    simp at hrest
  · exact Stmt.every_nil _

/-- A nest holds no warning if its body holds none. -/
theorem NestOf.notWarning {limit : Nat} {vars : VarSet} {body : List Stmt → Prop} {stmts : List Stmt}
    (h : NestOf s entries limit vars body stmts) (hbody : ∀ inner, body inner → Stmt.Every NotWarning inner) :
    Stmt.Every NotWarning stmts :=
  h.every hbody (fun _ _ _ _ _ _ _ => ⟨nofun, nofun⟩) (fun _ _ _ => nofun) (fun _ _ _ _ => nofun) fun _ _ => nofun

/-- The block of an aggregate that has the loops left that it was given holds no warning. -/
theorem BlockOf.notWarning {limit slot : Nat} {n : Node} {block : List Stmt} (h : BlockOf s entries limit slot n block)
    (hn : loopsOf n = n.info.bound) : Stmt.Every NotWarning block := by
  obtain ⟨start, steps, hstart, hsteps, rfl⟩ := h
  rw [warningStmts, if_pos hn, List.append_nil, Stmt.every_append, Stmt.every_append]
  refine ⟨⟨notWarning_of_mem_title, ?_⟩, ?_⟩
  · rcases hstart with ⟨-, rfl⟩ | ⟨-, hstart⟩
    · exact Stmt.every_nil _
    · refine hstart.notWarning ?_
      rintro _ ⟨x, copy, -, rfl⟩ st hst
      rw [List.mem_singleton.1 hst]
      nofun
  · refine NestOf.notWarning hsteps ?_
    rintro _ ⟨action, -, rfl⟩ st hst
    rw [List.mem_singleton.1 hst]
    nofun

/-- Every entry is an aggregate whose block refers to entries before it. -/
theorem Built.forall_mem {U : Node → Prop} {limit : Nat} (h : Built s U limit entries) {x : Entry} (hx : x ∈ entries) :
    U x.node ∧ x.node.gathers = true ∧ ∃ earlier, BlockOf s earlier limit x.slot x.node x.block := by
  induction h with
  | nil => cases hx
  | snoc _ hU hg hblock _ ih =>
    rcases List.mem_append.1 hx with hx | hx
    · exact ih hx
    · rw [List.mem_singleton.1 hx]
      exact ⟨hU, hg, _, hblock⟩

end Program

/-! ## Compiled queries -/

/-- A query that compiles is compiled to what its derivation says. -/
theorem compiles_of_ok {q : Query} {options : Options} {c : Compiled} (h : compile q options = .ok c) :
    ∃ D : Derivation q, Compiles q options c D := by
  have hyields := compile_yields q options
  rw [h] at hyields
  exact hyields

/-- A query compiles if what is compiled from it passes a test. -/
theorem exists_compile_of_any {q : Query} {options : Options} {p : Compiled → Bool}
    (h : (compile q options).toOption.any p = true) : ∃ c, compile q options = .ok c ∧ p c = true := by
  cases hc : compile q options with
  | error e =>
    rw [hc] at h
    cases h
  | ok c =>
    rw [hc] at h
    exact ⟨c, rfl, h⟩

namespace Derivation

variable {q : Query} (D : Derivation q) (options : Options)

/-- The program of a query is generated from the nodes of its tree. -/
theorem universe_tree : Program.Universe (D.setting options) (· ∈ (D.tree options.output).postorder) where
  part hn hm := Node.mem_postorder_trans (Node.mem_postorder_of_mem_children hm (Node.self_mem_postorder _)) hn
  source _ hg := Catalogue.source_mem_postorder hg

/-- Every aggregate of the tree of a query has the loops left that it was given. -/
theorem loopsOf_tree {m : Node} (hm : m ∈ (D.tree options.output).postorder) (hg : m.gathers = true) :
    Program.loopsOf m = m.info.bound :=
  D.measured.loopsOf_closed D.dependencies (D.mind_subset options.output) hm hg

end Derivation

/-- A compiled query is what was generated from the tree of the query. -/
theorem Compiles.history {q : Query} {options : Options} {c : Compiled} {D : Derivation q} (h : Compiles q options c D) :
    ∃ entries, Program.Built (D.setting options) (· ∈ (D.tree options.output).postorder) c.program.projections entries ∧
      (∀ x ∈ entries, x.slot < c.program.slots) ∧ c.program.body = entries.flatMap Program.Entry.block ∧
      Program.ExprOf (D.setting options) entries ∅ (D.tree options.output) c.program.result ∧
      c.program.table = D.naming.table ∧
      c.diagnostics.Perm (entries.flatMap (Program.Entry.reports (D.setting options)) ++
        Program.exprReports (D.setting options) ∅ (D.tree options.output)) :=
  Program.generate_history (D.universe_tree options) (Node.self_mem_postorder _) h.generated

/-- The analysis and the generation of programs agree on the loops of an aggregate. Whatever was named before, and for any
variables `out` that hold what the root of a query has in any case, what an aggregate of the closed tree does not take from
around it of the dimensions of its argument, or of the variables of its key, is what it was given to loop over. So no compiled
query is warned about. -/
theorem loops_agree (q : Query) :
    (∀ (term : Term) (N M : Naming) (node : Node), Term.ofQuery q = .ok term →
      (Node.ofTerm term).run.run N = (.ok node, M) →
      ∃ root, node.extentPass M.table = .ok root ∧
        ∀ out : VarSet, root.info.mind ⊆ out → ∃ tree, root.close M.table (root.dependencies M.table) out = .ok tree ∧
          ∀ n ∈ tree.postorder,
            (∀ i op mode arg, n = .reduce i op mode arg ∨ n = .scan i op mode arg → arg.info.dims \ i.free = i.bound) ∧
            ∀ i base key value filter, n = .update i base key value filter → key.info.vars \ i.free = i.bound) ∧
    ∀ (options : Options) (c : Compiled), compile q options = .ok c →
      (∀ x ∈ c.diagnostics, ¬ "bound variables of tmp".toList <+: x.message.toList) ∧
      ∀ text, .comment text ∈ Stmt.listNested c.program.body → ¬ "WARNING!".toList <+: text.toList := by
  constructor
  · intro term N M node hterm hnode
    have hroot := measured_of_ofTerm hterm hnode
    refine ⟨node.withExtents, Node.extentPass_eq hroot M.table, fun out hout => ?_⟩
    refine ⟨_, Node.close_eq hroot M.table _ hout, fun n hn => ⟨?_, ?_⟩⟩
    · rintro i op mode arg (rfl | rfl)
      · exact hroot.loopsOf_closed _ hout hn rfl
      · exact hroot.loopsOf_closed _ hout hn rfl
    · rintro i base key value filter rfl
      exact hroot.loopsOf_closed _ hout hn rfl
  · intro options c hc
    obtain ⟨D, hD⟩ := compiles_of_ok hc
    obtain ⟨entries, hbuilt, -, hbody, -, -, hreports⟩ := hD.history
    have hloops : ∀ x ∈ entries, Program.loopsOf x.node = x.node.info.bound := fun x hx =>
      D.loopsOf_tree options (hbuilt.forall_mem hx).1 (hbuilt.forall_mem hx).2.1
    refine ⟨fun x hx => ?_, fun text htext => ?_⟩
    · rcases List.mem_append.1 (hreports.mem_iff.1 hx) with h | h
      · obtain ⟨entry, hentry, hx⟩ := List.mem_flatMap.1 h
        exact (Program.isPlanning_of_mem_blockReports (hloops entry hentry) hx).message
      · exact (Program.isPlanning_of_mem_exprReports h).message
    · have hevery : Stmt.Every Program.NotWarning c.program.body := by
        rw [hbody]
        refine Stmt.every_flatMap fun x hx => ?_
        obtain ⟨earlier, hblock⟩ := (hbuilt.forall_mem hx).2.2
        exact hblock.notWarning (hloops x hx)
      exact hevery _ htext text rfl

/-- The totals by key compile, and nothing is reported. -/
theorem compile_totalsByKey : ∃ c, compile totalsByKey = .ok c ∧ c.diagnostics = [] := by
  obtain ⟨c, hc, hempty⟩ := exists_compile_of_any
    (by decide +kernel : (compile totalsByKey).toOption.any (fun c => c.diagnostics.isEmpty) = true)
  exact ⟨c, hc, List.isEmpty_iff.1 hempty⟩

/-- The totals by key compile, and no warning about loops is reported. -/
theorem loops_agree_totalsByKey :
    ∃ (term : Term) (node root tree : Node) (M : Naming) (c : Compiled), Term.ofQuery totalsByKey = .ok term ∧
      (Node.ofTerm term).run.run {} = (.ok node, M) ∧ node.extentPass M.table = .ok root ∧
      root.close M.table (root.dependencies M.table) root.info.mind = .ok tree ∧ compile totalsByKey = .ok c ∧
      ∀ x ∈ c.diagnostics, ¬ "bound variables of tmp".toList <+: x.message.toList := by
  have hterm : Term.ofQuery totalsByKey = .ok (.group (.get (.get .input .star) (.const (.str "key")))
      (.reduce ⟨.sum, false⟩ (.get (.get .input .star) (.const (.str "value"))))) := rfl
  obtain ⟨root, hroot, hout⟩ := (loops_agree totalsByKey).1 _ {} _ _ hterm rfl
  obtain ⟨tree, hclose, -⟩ := hout root.info.mind fun _ hv => hv
  obtain ⟨c, hc, -⟩ := compile_totalsByKey
  exact ⟨_, _, root, tree, _, c, hterm, rfl, hroot, hclose, hc, ((loops_agree totalsByKey).2 {} c hc).1⟩

end StarQuery
