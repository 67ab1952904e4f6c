import StarQuery.Compile
import StarQuery.Proofs.Naming.Fresh
import StarQuery.Proofs.Scope.Disjoint

/-!
# The passes keep their invariants

The checks of the passes accept every tree that comes from a query: the bottom-up pass leaves measured trees, the bound pass
trees without free variables, the free pass and the grouping around the root trees whose nodes are all well scoped. So each
pass is the plain function that computes its tree (`extentPass_eq`, `close_eq`).
-/

namespace StarQuery

namespace Node

/-! ## The checks -/

/-- A check of all nodes passes if it passes at each. -/
theorem checkAll_ok {check : Node → Except QueryError Unit} {ns : List Node} (h : ∀ n ∈ ns, check n = .ok ()) :
    checkAll check ns = .ok () := by
  induction ns with
  | nil => rfl
  | cons n rest ih =>
    rw [List.forall_mem_cons] at h
    rw [checkAll, h.1]
    exact ih h.2

/-- The check after the bottom-up pass is that the dimensions are nested. -/
theorem checkExtent_ok {t : NameTable} {pass : String} {n : Node} (hmind : n.info.mind ⊆ n.info.dims)
    (hdims : n.info.dims ⊆ n.info.vars) : checkExtent t pass n = .ok () := by
  rw [checkExtent, if_neg (not_not_intro hmind), if_neg (not_not_intro hdims)]

/-- The check after the passes from the root down is that nothing free is bound, here or below. -/
theorem checkScope_ok {t : NameTable} {pass : String} {n : Node} (hbound : n.info.free ∩ n.info.bound = ∅)
    (hall : n.info.free ∩ n.info.allBound = ∅) : checkScope t pass n = .ok () := by
  rw [checkScope, hbound, hall]
  rfl

/-- The last check passes on a tree whose nodes are all well scoped. -/
theorem verify_ok {t : NameTable} {root : Node} (h : ∀ n ∈ root.postorder, WellScoped n) : root.verify t = .ok () := by
  refine checkAll_ok fun n hn => ?_
  rw [checkExtent_ok (h n hn).mind_subset (h n hn).dims_subset]
  exact checkScope_ok (h n hn).free_bound (h n hn).free_allBound

/-! ## The bottom-up pass -/

/-- The bottom-up pass with its checks is the pass, where it leaves a measured tree. -/
theorem extentPass_eq {n : Node} (h : Measured n.withExtents) (t : NameTable) : n.extentPass t = .ok n.withExtents := by
  have hcheck : checkAll (checkExtent t "dims") n.withExtents.postorder = .ok () :=
    checkAll_ok fun m hm => checkExtent_ok (h.mem_postorder hm).mind_subset_dims (h.mem_postorder hm).dims_subset_vars
  rw [extentPass, hcheck]
  rfl

/-! ## The passes from the root down -/

/-- The bound pass visits the parts of a node, with some budget each. -/
theorem mem_children_withBound {n c : Node} {out : VarSet} (hc : c ∈ (n.withBound out).children) :
    ∃ part ∈ n.children, ∃ out', c = part.withBound out' := by
  cases n with
  | input | const | var => exact absurd hc List.not_mem_nil
  | get i base key =>
    rw [withBound, setBound, children_setInfo, mem_children_get] at hc
    rcases hc with rfl | rfl
    · exact ⟨base, by simp [children], out, rfl⟩
    · exact ⟨key, by simp [children], out, rfl⟩
  | pointwise i op args | hint i op args =>
    rw [withBound, setBound, children_setInfo, children, listWithBound_eq, List.mem_map] at hc
    obtain ⟨arg, harg, rfl⟩ := hc
    exact ⟨arg, harg, out, rfl⟩
  | keySet i arg | reduce i op mode arg | scan i op mode arg =>
    rw [withBound, setBound, children_setInfo] at hc
    exact ⟨arg, List.mem_cons_self, _, List.mem_singleton.1 hc⟩
  | update i base key value filter =>
    rw [withBound, setBound, children_setInfo, mem_children_update] at hc
    rcases hc with rfl | rfl | rfl | hc
    · exact ⟨base, by simp [children], _, rfl⟩
    · exact ⟨key, by simp [children], _, rfl⟩
    · exact ⟨value, by simp [children], _, rfl⟩
    · cases filter with
      | none => cases hc
      | some f =>
        cases hc
        exact ⟨f, by simp [children], _, rfl⟩

/-- The bound pass makes nothing free. -/
theorem free_mem_withBound {n : Node} (h : ∀ m ∈ n.postorder, m.info.free = ∅) (out : VarSet) :
    ∀ m ∈ (n.withBound out).postorder, m.info.free = ∅ := by
  induction n using inductParts generalizing out with
  | step n ih =>
    intro m hm
    rcases mem_postorder.1 hm with rfl | ⟨c, hc, hm⟩
    · rw [free_withBound]
      exact h n (self_mem_postorder n)
    · obtain ⟨part, hpart, out', rfl⟩ := mem_children_withBound hc
      exact ih part hpart (fun l hl => h l (mem_postorder_of_mem_children hpart hl)) out' m hm

/-- The bound pass with its checks is the pass, on a measured tree. -/
theorem boundPass_eq {n : Node} (h : Measured n) (t : NameTable) (out : VarSet) :
    n.boundPass t out = .ok (n.withBound out) := by
  have hcheck : checkAll (checkScope t "bound") (n.withBound out).scopeOrder = .ok () := by
    refine checkAll_ok fun m hm => ?_
    have hnone := free_mem_withBound (fun m hm => (h.mem_postorder hm).scopeless.2.2) out m (mem_scopeOrder.1 hm)
    rw [checkScope_ok (by rw [hnone]; rfl) (by rw [hnone]; rfl)]
  rw [boundPass, hcheck]
  rfl

/-- The free pass with its checks is the pass, where what the root has in any case is provided. -/
theorem freePass_eq {n : Node} (h : Measured n) (t : NameTable) (d : Dependencies) {out : VarSet}
    (hout : n.info.mind ⊆ out) : (n.withBound out).freePass t d out [] = .ok (annotated d n out out []) := by
  have hcheck : checkAll (checkScope t "free") (annotated d n out out []).scopeOrder = .ok () := by
    refine checkAll_ok fun m hm => ?_
    have hm := h.wellScoped_annotated hout m (mem_scopeOrder.1 hm)
    exact checkScope_ok hm.free_bound hm.free_allBound
  rw [freePass]
  exact congrArg (Except.map fun _ => annotated d n out out []) hcheck

/-- A tree after both passes from the root down, grouped by what its result is indexed by. -/
def closed (d : Dependencies) (root : Node) (out : VarSet) : Node :=
  if out.isEmpty then annotated d root out out [] else (annotated d root out out []).groupedBy out

/-- The key of the grouping around a root. -/
def groupingKey (out : VarSet) : Node :=
  .pointwise { vars := out, mind := out, dims := out, free := out } .vars (out.toList.map keyVar)

/-- The nodes of a closed tree are those of the annotated one, and the grouping around it with its base and its key. -/
theorem mem_closed {d : Dependencies} {root m : Node} {out : VarSet} (hm : m ∈ (closed d root out).postorder) :
    m ∈ (annotated d root out out []).postorder ∨ m = (annotated d root out out []).groupedBy out ∨
      m = .const {} Json.empty ∨ m = groupingKey out ∨ ∃ v ∈ out, m = keyVar v := by
  unfold closed at hm
  split at hm
  · exact .inl hm
  · rcases Node.mem_postorder.1 hm with rfl | ⟨c, hc, hm⟩
    · exact .inr (.inl rfl)
    · rw [groupedBy, mem_children_update] at hc
      rcases hc with rfl | rfl | rfl | hc
      · exact .inr (.inr (.inl (List.mem_singleton.1 hm)))
      · rcases Node.mem_postorder.1 hm with rfl | ⟨c, hc, hm⟩
        · exact .inr (.inr (.inr (.inl rfl)))
        · obtain ⟨v, hv, rfl⟩ := List.mem_map.1 hc
          exact .inr (.inr (.inr (.inr ⟨v, hv, List.mem_singleton.1 hm⟩)))
      · exact .inl hm
      · cases hc

/-- The grouping around a root is well scoped if the root is: it loops over its keys and takes nothing. -/
theorem wellScoped_groupedBy {root : Node} {out : VarSet} (h : WellScoped root) : WellScoped (root.groupedBy out) := by
  refine ⟨fun v hv => ?_, fun v hv => ?_, inter_eq_empty.2 fun v hv => absurd hv (VarSet.not_mem_empty v),
    inter_eq_empty.2 fun v hv => absurd hv (VarSet.not_mem_empty v)⟩
  · exact VarSet.mem_sdiff.2 ⟨h.mind_subset v (VarSet.mem_sdiff.1 hv).1, (VarSet.mem_sdiff.1 hv).2⟩
  · exact VarSet.mem_union.2 (.inl (h.dims_subset v (VarSet.mem_sdiff.1 hv).1))

/-- Every node of a closed tree is well scoped. -/
theorem Measured.wellScoped_closed {root : Node} (h : Measured root) (d : Dependencies) {out : VarSet}
    (hout : root.info.mind ⊆ out) : ∀ m ∈ (closed d root out).postorder, WellScoped m := by
  intro m hm
  have hinner : ∀ m ∈ (annotated d root out out []).postorder, WellScoped m := h.wellScoped_annotated hout
  rcases mem_closed hm with hm | rfl | rfl | rfl | ⟨v, -, rfl⟩
  · exact hinner m hm
  · exact wellScoped_groupedBy (hinner _ (self_mem_postorder _))
  · exact ⟨fun _ h => h, fun _ h => h, rfl, rfl⟩
  · exact ⟨fun _ h => h, fun _ h => h, inter_eq_empty.2 fun _ _ => VarSet.not_mem_empty _,
      inter_eq_empty.2 fun _ _ => VarSet.not_mem_empty _⟩
  · exact wellScoped_keyVar v

/-- Closing a measured tree finds no breach, and gives the closed tree. -/
theorem close_eq {root : Node} (h : Measured root) (t : NameTable) (d : Dependencies) {out : VarSet}
    (hout : root.info.mind ⊆ out) : root.close t d out = .ok (closed d root out) := by
  have hroot := h.wellScoped_closed d hout _ (self_mem_postorder _)
  unfold closed at hroot ⊢
  rw [close, boundPass_eq h]
  change ((root.withBound out).freePass t d out [] >>= _) = _
  rw [freePass_eq h t d hout]
  change (if out.isEmpty then _ else _) = _
  split
  · rfl
  · rename_i hne
    rw [if_neg hne] at hroot
    simp only [checkExtent_ok hroot.mind_subset hroot.dims_subset, checkScope_ok hroot.free_bound hroot.free_allBound]
    rfl

end Node

/-! ## Compiling -/

/-- The result is indexed at least by what the root has in any case. -/
theorem Output.mind_subset_indexOf {root : Node} (h : root.Measured) (o : Output) : root.info.mind ⊆ o.indexOf root := by
  cases o with
  | minimal => exact fun _ hv => hv
  | desired => exact h.mind_subset_dims

/-- The result is indexed by variables of the root only. -/
theorem Output.indexOf_subset_vars {root : Node} (h : root.Measured) (o : Output) : o.indexOf root ⊆ root.info.vars := by
  cases o with
  | minimal => exact fun v hv => h.dims_subset_vars v (h.mind_subset_dims v hv)
  | desired => exact h.dims_subset_vars

/-- What a query is before the passes from the root down: its term, and the node of the term with the names that it needs. -/
structure Derivation (q : Query) where
  term : Term
  node : Node
  naming : Naming
  resolved : Term.ofQuery q = .ok term
  named : (Node.ofTerm term).run.run {} = (.ok node, naming)

/-- The names of a term that comes from a query are those of the named variables of the query. -/
theorem mem_names_ofQuery {q : Query} {term : Term} (h : Term.ofQuery q = .ok term) {x : String} :
    x ∈ term.names ↔ x ∈ q.namedVariables := by
  have hyields := Term.ofQuery_yields q
  rw [h] at hyields
  exact (hyields x).trans List.mem_filter.symm

/-- The names in the term of a query are identifiers of the query that name variables. -/
theorem isVariable_of_ofQuery {q : Query} {term : Term} (h : Term.ofQuery q = .ok term) :
    ∀ x ∈ term.names, x ∈ q.identifiers ∧ Term.IsVariable x := by
  intro x hx
  obtain ⟨hident, hnamed⟩ := List.mem_filter.1 ((mem_names_ofQuery h).1 hx)
  exact ⟨hident, Term.isVariable_of_isNamed hnamed⟩

/-- A term reads as its node, under the names that there are in the end. -/
theorem reads_of_ofTerm {term : Term} {N M : Naming} {node : Node}
    (h : (Node.ofTerm term).run.run N = (.ok node, M)) : N.Extends M ∧ Node.Reads M term node := by
  have hmeets := Node.ofTerm_meets term N
  unfold Meets at hmeets
  rw [h] at hmeets
  exact hmeets

/-- The node of a query is measured after the bottom-up pass, whatever was named before. -/
theorem measured_of_ofTerm {q : Query} {term : Term} {N M : Naming} {node : Node} (hterm : Term.ofQuery q = .ok term)
    (hnode : (Node.ofTerm term).run.run N = (.ok node, M)) : node.withExtents.Measured :=
  (reads_of_ofTerm hnode).2.measured fun x hx => (isVariable_of_ofQuery hterm x hx).2

namespace Derivation

variable {q : Query}

/-- The tree of a query after the bottom-up pass. -/
def root (D : Derivation q) : Node := D.node.withExtents

/-- What the variables of a query depend on. -/
def dependencies (D : Derivation q) : Dependencies := D.root.dependencies D.naming.table

/-- The annotated tree of a query. -/
def tree (D : Derivation q) (output : Output) : Node := Node.closed D.dependencies D.root (output.indexOf D.root)

/-- What the program of a query is generated with. -/
def setting (D : Derivation q) (options : Options) : Program.Setting :=
  ⟨D.naming.table, (Catalogue.ofNode (D.tree options.output)).generators D.naming.table, D.term.text, options.comments⟩

theorem measured (D : Derivation q) : D.root.Measured := measured_of_ofTerm D.resolved D.named

/-- What the root of a query has in any case is among what the result is indexed by. -/
theorem mind_subset (D : Derivation q) (output : Output) : D.root.info.mind ⊆ output.indexOf D.root :=
  Output.mind_subset_indexOf D.measured output

end Derivation

namespace Derivation

variable {q : Query} (D : Derivation q)

/-- The passes annotate the node of a query, and find no breach. -/
theorem annotate_eq (output : Output) :
    D.term.annotate output = .ok (D.naming.table, D.dependencies, D.tree output) := by
  have hpass : D.node.extentPass D.naming.table = .ok D.root := Node.extentPass_eq D.measured D.naming.table
  have hclose : D.root.close D.naming.table D.dependencies (output.indexOf D.root) = .ok (D.tree output) :=
    Node.close_eq D.measured _ _ (D.mind_subset output)
  rw [Term.annotate, D.named]
  change (D.node.extentPass D.naming.table >>= _) = _
  rw [hpass]
  change (D.root.close D.naming.table D.dependencies (output.indexOf D.root) >>= _) = _
  rw [hclose]
  rfl

/-- A query is compiled to what is generated from its annotated tree. With or without the last check, this is the same. -/
theorem compile_eq (options : Options) :
    compile q options =
      match Program.generate (D.setting options) (D.tree options.output) with
      | none => .error (.circular ((D.tree options.output).text D.naming.table))
      | some (program, diagnostics) => .ok ⟨D.term.text, D.tree options.output, D.naming.table, D.dependencies,
          Catalogue.ofNode (D.tree options.output), program, diagnostics⟩ := by
  have hverify : (D.tree options.output).verify D.naming.table = .ok () :=
    Node.verify_ok (D.measured.wellScoped_closed D.dependencies (D.mind_subset options.output))
  rw [compile, D.resolved]
  change (D.term.annotate options.output >>= _) = _
  rw [D.annotate_eq]
  simp only [bind, Except.bind, hverify]
  split <;> rfl

end Derivation

/-- What a compiled query consists of. -/
structure Compiles (q : Query) (options : Options) (c : Compiled) (D : Derivation q) : Prop where
  table : c.table = D.naming.table
  tree : c.tree = D.tree options.output
  dependencies : c.dependencies = D.dependencies
  catalogue : c.catalogue = Catalogue.ofNode (D.tree options.output)
  generated : Program.generate (D.setting options) (D.tree options.output) = some (c.program, c.diagnostics)

/-- Compiling never fails for a breach of the passes, and gives what the passes compute. -/
theorem compile_yields (q : Query) (options : Options) :
    Yields (compile q options) fun c => ∃ D : Derivation q, Compiles q options c D := by
  cases hterm : Term.ofQuery q with
  | error e =>
    have hyields := Term.ofQuery_yields q
    rw [hterm] at hyields
    rw [compile, hterm]
    exact hyields
  | ok term =>
    rcases hrun : (Node.ofTerm term).run.run {} with ⟨r, N⟩
    cases r with
    | error e =>
      have hmeets := Node.ofTerm_meets term {}
      unfold Meets at hmeets
      rw [hrun] at hmeets
      rw [compile, hterm]
      change Yields (term.annotate options.output >>= _) _
      rw [Term.annotate, hrun]
      exact hmeets
    | ok node =>
      let D : Derivation q := ⟨term, node, N, hterm, hrun⟩
      rw [D.compile_eq]
      cases hgenerate : Program.generate (D.setting options) (D.tree options.output) with
      | none => exact fun _ _ _ h => nomatch h
      | some x => exact ⟨D, rfl, rfl, rfl, rfl, hgenerate⟩

/-- The passes keep their invariants. Whatever was named before, the node of a query passes the bottom-up pass, and, for any
variables `out` that hold what the root has in any case, both passes from the root down and the last check; every node of the
tree is then well scoped. So no query is rejected for a breach of the passes. -/
theorem passes_keep_invariants (q : Query) :
    (∀ (term : Term) (N M : Naming) (node : Node), Term.ofQuery q = .ok term →
      (Node.ofTerm term).run.run N = (.ok node, M) →
      ∃ root, node.extentPass M.table = .ok root ∧
        ∀ out : VarSet, root.info.mind ⊆ out → ∃ bounded freed tree,
          root.boundPass M.table out = .ok bounded ∧
          bounded.freePass M.table (root.dependencies M.table) out [] = .ok freed ∧
          root.close M.table (root.dependencies M.table) out = .ok tree ∧
          tree.verify M.table = .ok () ∧ ∀ n ∈ tree.postorder, n.WellScoped) ∧
    ∀ (options : Options) (pass detail subterm : String),
      compile q options ≠ .error (.invariantViolation pass detail subterm) := by
  constructor
  · intro term N M node hterm hnode
    have hroot := measured_of_ofTerm hterm hnode
    refine ⟨node.withExtents, Node.extentPass_eq hroot M.table, fun out hout => ?_⟩
    have hscoped := hroot.wellScoped_closed (node.withExtents.dependencies M.table) hout
    exact ⟨_, _, _, Node.boundPass_eq hroot M.table out, Node.freePass_eq hroot M.table _ hout,
      Node.close_eq hroot M.table _ hout, Node.verify_ok hscoped, hscoped⟩
  · intro options pass detail subterm hcompile
    have hyields := compile_yields q options
    rw [hcompile] at hyields
    exact hyields pass detail subterm rfl

/-- The totals of the values in a list of records by their keys. -/
def totalsByKey : Query := .group (.path "*.key") (.sum (.path "*.value"))

/-- The totals by key pass all checks, from the term to the last one. -/
theorem passes_keep_invariants_totalsByKey :
    ∃ (term : Term) (node root tree : Node) (M : Naming), Term.ofQuery totalsByKey = .ok term ∧
      (Node.ofTerm term).run.run {} = (.ok node, M) ∧ node.extentPass M.table = .ok root ∧
      root.close M.table (root.dependencies M.table) root.info.mind = .ok tree ∧ tree.verify M.table = .ok () := by
  have hterm : Term.ofQuery totalsByKey = .ok (.group (.get (.get .input .star) (.const (.str "key")))
      (.reduce ⟨.sum, false⟩ (.get (.get .input .star) (.const (.str "value"))))) := rfl
  obtain ⟨root, hroot, hout⟩ := (passes_keep_invariants totalsByKey).1 _ {} _ _ hterm rfl
  obtain ⟨_, _, tree, _, _, hclose, hverify, _⟩ := hout root.info.mind fun _ hv => hv
  exact ⟨_, _, root, tree, _, hterm, rfl, hroot, hclose, hverify⟩

end StarQuery
