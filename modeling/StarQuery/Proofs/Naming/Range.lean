import StarQuery.Proofs.Catalogue
import StarQuery.Proofs.Node.Bare
import StarQuery.Proofs.Scope.Invariants

/-!
# The variables of a compiled query have names

Every lookup in the tree of a query is one of the node of its term, with variable sets filled in. So what a generator generates
is a variable of the term, and has a place in the table of names.
-/

namespace StarQuery

/-- The variable of a name has the name. -/
theorem NameTable.name_of_lookup? {t : NameTable} {name : String} {v : Var} (h : t.lookup? name = some v) :
    v < t.names.length ∧ t.name v = name := by
  have hget := Naming.getElem?_of_idxOf? h
  refine ⟨(List.getElem?_eq_some_iff.1 hget).1, ?_⟩
  rw [NameTable.name, hget, Option.getD_some]

namespace Node

/-- Annotating a tree changes its variable sets only. -/
theorem bare_annotated (d : Dependencies) (n : Node) (outB outF : VarSet) (path : List Grouping) :
    (annotated d n outB outF path).bare = n.bare := by
  rw [annotated, bare_withFree, bare_withBound]

/-- The node of a term has no variable sets. -/
theorem Reads.bare_eq {N : Naming} {t : Term} {n : Node} (h : Reads N t n) : n.bare = n := by
  have hgathered : ∀ {t : Term} {x : Node}, x.bare = x → (gathered t x).bare = gathered t x := by
    intro t x hx
    unfold gathered
    split
    · exact hx
    · rw [bare, hx]
  have hlist : ∀ {ts : List Term} {ns : List Node}, ts.length = ns.length → (∀ p ∈ ts.zip ns, p.2.bare = p.2) →
      ns.map bare = ns := by
    intro ts ns hlen h
    refine (List.map_congr_left fun n hn => ?_).trans (List.map_id ns)
    obtain ⟨t, -, hzip⟩ := mem_zip_of_mem_right hlen hn
    exact h _ hzip
  induction h with
  | input | const | var => rfl
  | draw _ _ ih => rw [bare, ih, bare]
  | get _ _ hbase hkey => rw [bare, hbase, hkey]
  | pointwise hlen _ ih | hint hlen _ ih => rw [bare, listBare_eq, hlist hlen ih]
  | keySet _ ih | reduce _ ih | scan _ ih => rw [bare, ih]
  | group _ ih => exact ih
  | named _ _ _ hbase _ hvalue => rw [bare, hbase, hgathered hvalue, bare, optionBare]
  | keyed _ _ _ _ _ hbase hkey hvalue =>
    rw [bare, hbase, hgathered hvalue, bare, optionBare, bare, bare, bare, hkey]

/-- Every variable of the node of a term has a place in the table. -/
theorem Reads.lt_of_holds {N : Naming} {t : Term} {n : Node} (h : Reads N t n) {v : Var} (hv : n.Holds v) :
    v < N.table.names.length := by
  cases h.origin hv with
  | named _ hname => exact (NameTable.name_of_lookup? hname).1
  | drawn hnamed | keyed _ hnamed =>
    obtain ⟨i, -, hname⟩ := hnamed
    exact (NameTable.name_of_lookup? hname).1

end Node

namespace Derivation

variable {q : Query} (D : Derivation q)

theorem reads : Node.Reads D.naming D.term D.node := (reads_of_ofTerm D.named).2

/-- The lookups in the tree of a query are those of the node of its term. -/
theorem bare_get_mem {output : Output} {i : VarInfo} {base key : Node}
    (h : Node.get i base key ∈ (D.tree output).postorder) : Node.get {} base.bare key.bare ∈ D.node.postorder := by
  rcases Node.mem_closed h with h | h | h | h | ⟨v, -, h⟩
  · have hbare := Node.bare_mem_postorder h
    rw [Node.bare_annotated, root, Node.bare_withExtents, D.reads.bare_eq] at hbare
    exact hbare
  all_goals cases h

/-- What the generators of a query generate are variables with names. -/
theorem var_lt_of_mem_generators (options : Options) :
    ∀ g ∈ (D.setting options).generators, g.var < D.naming.table.names.length := by
  intro g hg
  obtain ⟨i, base, j, v, hmem, rfl⟩ := Catalogue.mem_generators.1 hg
  refine D.reads.lt_of_holds ⟨.var {} v, ?_, rfl⟩
  refine Node.mem_postorder_trans ?_ (D.bare_get_mem hmem)
  exact Node.mem_postorder_of_mem_children (Node.mem_children_get.2 (.inr rfl)) (Node.self_mem_postorder _)

end Derivation

end StarQuery
