import StarQuery.Proofs.Catalogue
import StarQuery.Proofs.NeedsFirst

/-!
# The order of the catalogue

The catalogue of a tree lists the filters, and the hints, where they occur first in a traversal that comes to the parts of a node
before the node. As every filter comes after the nodes in its own source there, and what is left out has been listed already, the
filters of the source are listed before it (`needsFirst_distinctFrom`).
-/

namespace StarQuery

namespace Node

/-- Whether a node looks up a variable in a collection. -/
def isFilter : Node → Bool
  | .get _ _ (.var _ _) => true
  | _ => false

/-- The nodes that have a variable to filter by are the lookups of variables. -/
theorem isSome_filterVar? (n : Node) : n.filterVar?.isSome = n.isFilter := by
  cases n with
  | get i base key => cases key <;> rfl
  | _ => rfl

/-! ## First occurrences -/

/-- Whether two nodes have the same fingerprint. -/
def alike (m n : Node) : Bool := m.fingerprint == n.fingerprint

/-- A node is like one that was seen if its fingerprint was seen. -/
theorem any_alike {seen : List Node} {n : Node} : seen.any n.alike = true ↔ n.fingerprint ∈ seen.map fingerprint := by
  rw [List.any_eq_true, List.mem_map]
  exact exists_congr fun m => and_congr_right fun _ => beq_iff_eq.trans eq_comm

/-- Leaving out what was seen before leaves the first of each group of nodes that are alike. -/
theorem distinct_eq_eraseDupsBy (ns : List Node) : distinct ns = ns.eraseDupsBy alike := by
  -- the library's loop keeps the nodes it has seen, the last one first
  have hloop : ∀ seen : List Node,
      List.eraseDupsBy.loop alike ns seen = seen.reverse ++ distinctFrom (seen.map fingerprint) ns := by
    induction ns with
    | nil => simp [List.eraseDupsBy.loop, distinctFrom]
    | cons n ns ih =>
      intro seen
      rw [List.eraseDupsBy.loop, distinctFrom]
      split
      · rename_i hany
        rw [if_pos (any_alike.1 hany), ih seen]
      · rename_i hany
        rw [if_neg (fun hmem => absurd (any_alike.2 hmem) (by simp [hany])), ih (n :: seen), List.reverse_cons,
          List.append_assoc, List.singleton_append, List.map_cons]
  exact (hloop []).symm

/-- A list of the nodes of a tree that are to be kept, in the order of their first occurrences. -/
structure FirstOccurrences (keep : Node → Bool) (root : Node) (entries : List Node) : Prop where
  /-- The list is what is left of a traversal if everything like an earlier node is left out. -/
  eq_eraseDupsBy : entries = (root.postorder.filter keep).eraseDupsBy alike
  /-- No two entries have the same fingerprint. -/
  nodup : (entries.map fingerprint).Nodup
  /-- Every node to be kept is like exactly one entry. -/
  count_eq_one : ∀ n ∈ root.postorder, keep n = true → (entries.map fingerprint).count n.fingerprint = 1

/-- The nodes that are kept, without repetitions, are in the order of their first occurrences. -/
theorem firstOccurrences_distinct (keep : Node → Bool) (root : Node) :
    FirstOccurrences keep root (distinct (root.postorder.filter keep)) := by
  have hnodup : ((distinct (root.postorder.filter keep)).map fingerprint).Nodup :=
    (nodup_distinctFrom [] _).map fun _ _ => fingerprint_inj
  refine ⟨distinct_eq_eraseDupsBy _, hnodup, fun n hn hkeep => List.count_eq_one_of_mem hnodup ?_⟩
  exact List.mem_map_of_mem (mem_distinct.2 (List.mem_filter.2 ⟨hn, hkeep⟩))

/-! ## Parts first -/

/-- In the traversal every node comes after all that is below it. -/
theorem needsFirst_postorder (n : Node) : NeedsFirst (fun n m => ∃ c ∈ n.children, m ∈ c.postorder) [] n.postorder := by
  induction n using inductParts with
  | step n ih =>
    rw [postorder_eq]
    refine .append (.flatMap ih) ⟨fun m hm => ?_, trivial⟩
    rw [List.append_nil, List.mem_reverse, List.mem_flatMap]
    exact hm

/-- What is left out as a repetition is in the list already, so the order is kept. -/
theorem needsFirst_distinctFrom {needs : Node → Node → Prop} {seen seen' : List Node} {keys : List String} {ns : List Node}
    (h : NeedsFirst needs seen ns) (hseen : seen ⊆ seen') (hkeys : ∀ n : Node, n.fingerprint ∈ keys → n ∈ seen') :
    NeedsFirst needs seen' (distinctFrom keys ns) := by
  induction ns generalizing seen seen' keys with
  | nil => trivial
  | cons n ns ih =>
    rw [distinctFrom]
    split
    · rename_i hkey
      exact ih h.2 (List.cons_subset.2 ⟨hkeys n hkey, hseen⟩) hkeys
    · refine ⟨fun m hm => hseen (h.1 m hm), ih h.2 (List.cons_subset_cons n hseen) fun m hm => ?_⟩
      rcases List.mem_cons.1 hm with heq | hm
      · exact fingerprint_inj heq ▸ List.mem_cons_self
      · exact List.mem_cons_of_mem n (hkeys m hm)

/-- A lookup is listed after the lookups in its parts. -/
theorem needsFirst_filters (root : Node) :
    NeedsFirst (fun n m => (∃ c ∈ n.children, m ∈ c.postorder) ∧ m.isFilter = true) []
      (distinct (root.postorder.filter isFilter)) := by
  refine needsFirst_distinctFrom (root.needsFirst_postorder.filter isFilter fun n hn => absurd hn List.not_mem_nil)
    (List.Subset.refl []) fun n hn => absurd hn List.not_mem_nil

end Node

/-- The catalogue lists the first occurrences of the filters and of the hints of a tree.

* Traversed are the parts of a node, in their order, and then the node; of an update the base, the key, the value and the filter.
* The filters are the lookups of a variable in a collection, in the order of the traversal, without those that are like an earlier
  one. No two of them have the same fingerprint, and every lookup of a variable in the tree has the fingerprint of one.
* So are the hints.
* All filters in the collection of a filter are listed before it. -/
theorem catalogue_lists_first_occurrences (root : Node) :
    ((∀ n : Node, n.postorder = n.children.flatMap Node.postorder ++ [n]) ∧
      ∀ i base key value filter, (Node.update i base key value filter).children = [base, key, value] ++ filter.toList) ∧
    Node.FirstOccurrences Node.isFilter root (Catalogue.ofNode root).filters ∧
    Node.FirstOccurrences Node.isHint root (Catalogue.ofNode root).hints ∧
    ∀ before i base j v after, (Catalogue.ofNode root).filters = before ++ .get i base (.var j v) :: after →
      ∀ m ∈ base.postorder, m.isFilter = true → m ∈ before := by
  have hfilters : (Catalogue.ofNode root).filters = Node.distinct (root.postorder.filter Node.isFilter) := by
    rw [Catalogue.ofNode, funext Node.isSome_filterVar?]
  rw [hfilters]
  refine ⟨⟨Node.postorder_eq, fun _ _ _ _ _ => rfl⟩, Node.firstOccurrences_distinct _ root, Node.firstOccurrences_distinct _ root, ?_⟩
  intro before i base j v after hsplit m hm hfilter
  have horder := root.needsFirst_filters
  rw [hsplit] at horder
  have hbelow : ∃ c ∈ (Node.get i base (.var j v)).children, m ∈ c.postorder := ⟨base, List.mem_cons_self, hm⟩
  exact (horder.mem_before ⟨hbelow, hfilter⟩).resolve_right List.not_mem_nil

/-- The lookup of a variable in the input. -/
def outerLookup : Node := .get {} (.input {}) (.var {} 0)

/-- The lookup of another variable in what the first lookup gives. -/
def innerLookup : Node := .get {} outerLookup (.var {} 1)

/-- A tree that holds the one lookup alone, after it was in the other. -/
def lookupsOfTwo : Node := .pointwise {} .plus [innerLookup, outerLookup]

/-- The outer lookup is met twice and listed once, before the inner one that is made from it. -/
theorem catalogue_lists_first_occurrences_lookupsOfTwo :
    lookupsOfTwo.postorder.filter Node.isFilter = [outerLookup, innerLookup, outerLookup] ∧
    ((Catalogue.ofNode lookupsOfTwo).filters.map Node.fingerprint).count outerLookup.fingerprint = 1 ∧
    ∃ before, (Catalogue.ofNode lookupsOfTwo).filters = before ++ [innerLookup] ∧ outerLookup ∈ before := by
  obtain ⟨-, hfilters, -, hinner⟩ := catalogue_lists_first_occurrences lookupsOfTwo
  have hnodup : ([outerLookup, innerLookup] ++ []).Nodup := by simp [outerLookup, innerLookup]
  have hdistinct : Node.distinct ([outerLookup, innerLookup] ++ ([outerLookup] ++ [])) = [outerLookup, innerLookup] ++ [] :=
    Node.distinct_append hnodup (List.cons_subset_cons outerLookup (List.nil_subset _))
  have hlist : (Catalogue.ofNode lookupsOfTwo).filters = [outerLookup] ++ [innerLookup] := hdistinct
  have houter : outerLookup ∈ lookupsOfTwo.postorder :=
    Node.mem_postorder_of_mem_children (List.mem_cons_of_mem _ List.mem_cons_self) (Node.self_mem_postorder outerLookup)
  refine ⟨rfl, hfilters.count_eq_one outerLookup houter rfl, [outerLookup], hlist, ?_⟩
  exact hinner _ {} outerLookup {} 1 [] hlist outerLookup (Node.self_mem_postorder outerLookup) rfl

end StarQuery
