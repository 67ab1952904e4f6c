import Mathlib.Data.List.Nodup
import StarQuery.Catalogue
import StarQuery.Proofs.Fingerprint
import StarQuery.Proofs.Node.Parts

/-!
# The members of the catalogue

The catalogue of a tree lists every lookup of a variable in a collection that the tree holds, and nothing else; its generators
are those lookups taken apart.
-/

namespace StarQuery

namespace Node

/-- What stays of a list are the members whose fingerprints were not seen before it. -/
theorem mem_distinctFrom {seen : List String} {ns : List Node} {n : Node} :
    n ∈ distinctFrom seen ns ↔ n ∈ ns ∧ ¬ n.fingerprint ∈ seen := by
  induction ns generalizing seen with
  | nil => simp [distinctFrom]
  | cons m rest ih =>
    rw [distinctFrom]
    split
    · rename_i hm
      rw [ih, List.mem_cons]
      constructor
      · exact fun h => ⟨.inr h.1, h.2⟩
      · rintro ⟨rfl | h, hn⟩
        · exact absurd hm hn
        · exact ⟨h, hn⟩
    · rename_i hm
      rw [List.mem_cons, ih, List.mem_cons, List.mem_cons]
      constructor
      · rintro (rfl | ⟨h, hn⟩)
        · exact ⟨.inl rfl, hm⟩
        · exact ⟨.inr h, fun hs => hn (.inr hs)⟩
      · rintro ⟨rfl | h, hn⟩
        · exact .inl rfl
        · by_cases heq : n = m
          · exact .inl heq
          · exact .inr ⟨h, fun hs => hs.elim (fun hf => heq (fingerprint_inj hf)) hn⟩

/-- Leaving out repetitions loses no member. -/
theorem mem_distinct {ns : List Node} {n : Node} : n ∈ distinct ns ↔ n ∈ ns := by
  rw [distinct, mem_distinctFrom]
  simp

/-- The lookups of variables in a tree, each after those in its parts. -/
def filters (n : Node) : List Node := n.postorder.filter fun m => m.filterVar?.isSome

/-- The lookups in a tree are those in its parts, and the tree if it is one itself. -/
theorem filters_eq (n : Node) : n.filters = n.children.flatMap filters ++ if n.filterVar?.isSome then [n] else [] := by
  rw [filters, postorder_eq, List.filter_append, List.filter_flatMap, List.filter_singleton]
  cases n.filterVar?.isSome <;> rfl

/-- Members that are all different, and new, stay. -/
theorem distinctFrom_append {seen : List String} {xs : List Node} (hnodup : xs.Nodup)
    (hseen : ∀ n ∈ xs, ¬ n.fingerprint ∈ seen) (ys : List Node) :
    distinctFrom seen (xs ++ ys) = xs ++ distinctFrom ((xs.map fingerprint).reverse ++ seen) ys := by
  induction xs generalizing seen with
  | nil => rfl
  | cons n xs ih =>
    rw [List.nodup_cons] at hnodup
    rw [List.forall_mem_cons] at hseen
    have hnew : ∀ m ∈ xs, ¬ m.fingerprint ∈ n.fingerprint :: seen := by
      intro m hm hin
      rcases List.mem_cons.1 hin with heq | hin
      · exact hnodup.1 (fingerprint_inj heq ▸ hm)
      · exact hseen.2 m hm hin
    simp [distinctFrom, hseen.1, ih hnodup.2 hnew]

/-- Nothing is left out of a list of different nodes none of which was seen. -/
theorem distinctFrom_of_nodup {seen : List String} {ns : List Node} (hnodup : ns.Nodup)
    (hseen : ∀ n ∈ ns, ¬ n.fingerprint ∈ seen) : distinctFrom seen ns = ns := by
  have h := distinctFrom_append hnodup hseen []
  rwa [List.append_nil, distinctFrom, List.append_nil] at h

/-- Members that were seen are left out. -/
theorem distinctFrom_of_seen {seen : List String} {xs : List Node} (h : ∀ n ∈ xs, n.fingerprint ∈ seen) (ys : List Node) :
    distinctFrom seen (xs ++ ys) = distinctFrom seen ys := by
  induction xs with
  | nil => rfl
  | cons n xs ih =>
    rw [List.forall_mem_cons] at h
    rw [List.cons_append, distinctFrom, if_pos h.1, ih h.2]

/-- Only repetitions are left out. -/
theorem distinct_append {xs ys zs : List Node} (hnodup : (xs ++ zs).Nodup) (hys : ys ⊆ xs) :
    distinct (xs ++ (ys ++ zs)) = xs ++ zs := by
  obtain ⟨hxs, hzs, hdisjoint⟩ := List.nodup_append.1 hnodup
  have hseen : ∀ n ∈ ys, n.fingerprint ∈ (xs.map fingerprint).reverse ++ [] := by
    intro n hn
    simpa using ⟨n, hys hn, rfl⟩
  have hnew : ∀ n ∈ zs, ¬ n.fingerprint ∈ (xs.map fingerprint).reverse ++ [] := by
    intro n hn hin
    rw [List.append_nil, List.mem_reverse, List.mem_map] at hin
    obtain ⟨m, hm, heq⟩ := hin
    exact hdisjoint m hm n hn (fingerprint_inj heq)
  rw [distinct, distinctFrom_append hxs (fun _ _ => List.not_mem_nil), distinctFrom_of_seen hseen,
    distinctFrom_of_nodup hzs hnew]

/-- Nothing is left out of a list of different nodes. -/
theorem distinct_of_nodup {ns : List Node} (h : ns.Nodup) : distinct ns = ns :=
  distinctFrom_of_nodup h fun _ _ => List.not_mem_nil

/-- What stays is without repetition. -/
theorem nodup_distinctFrom (seen : List String) (ns : List Node) : (distinctFrom seen ns).Nodup := by
  induction ns generalizing seen with
  | nil => exact List.nodup_nil
  | cons n ns ih =>
    rw [distinctFrom]
    split
    · exact ih seen
    · refine List.nodup_cons.2 ⟨fun hmem => ?_, ih _⟩
      exact (mem_distinctFrom.1 hmem).2 List.mem_cons_self

/-- Members may be chosen before or after repetitions are left out. -/
theorem filter_distinctFrom (keep : Node → Bool) {seen seen' : List String} (ns : List Node)
    (h : ∀ n ∈ ns, keep n = true → (n.fingerprint ∈ seen ↔ n.fingerprint ∈ seen')) :
    (distinctFrom seen ns).filter keep = distinctFrom seen' (ns.filter keep) := by
  induction ns generalizing seen seen' with
  | nil => rfl
  | cons n ns ih =>
    rw [List.forall_mem_cons] at h
    cases hkeep : keep n with
    | false =>
      rw [List.filter_cons_of_neg (by simp [hkeep]), distinctFrom]
      split
      · exact ih h.2
      · rw [List.filter_cons_of_neg (by simp [hkeep])]
        refine ih fun m hm hmkeep => ?_
        have hne : m.fingerprint ≠ n.fingerprint := by
          intro heq
          rw [fingerprint_inj heq, hkeep] at hmkeep
          cases hmkeep
        rw [List.mem_cons, or_iff_right hne]
        exact h.2 m hm hmkeep
    | true =>
      rw [List.filter_cons_of_pos hkeep, distinctFrom, distinctFrom]
      simp only [← h.1 hkeep]
      split
      · exact ih h.2
      · rw [List.filter_cons_of_pos hkeep]
        refine congrArg (n :: ·) (ih fun m hm hmkeep => ?_)
        rw [List.mem_cons, List.mem_cons, h.2 m hm hmkeep]

/-- Nodes may be chosen before or after the repetitions are left out, as a repetition of a chosen node is chosen. -/
theorem filter_distinct (keep : Node → Bool) (ns : List Node) : (distinct ns).filter keep = distinct (ns.filter keep) :=
  filter_distinctFrom keep ns fun _ _ _ => Iff.rfl

end Node

/-- The generators of some nodes are the lookups of variables among them. -/
theorem Generator.mem_filterMap_ofFilter? {t : NameTable} {ns : List Node} {g : Generator} :
    g ∈ ns.filterMap (ofFilter? t) ↔
      ∃ i base j v, Node.get i base (.var j v) ∈ ns ∧ g = ⟨v, base, (Node.get i base (.var j v)).text t⟩ := by
  rw [List.mem_filterMap]
  constructor
  · rintro ⟨filter, hmem, hg⟩
    cases filter with
    | get i base key =>
      cases key with
      | var j v =>
        cases hg
        exact ⟨i, base, j, v, hmem, rfl⟩
      | _ => cases hg
    | _ => cases hg
  · rintro ⟨i, base, j, v, hmem, rfl⟩
    exact ⟨.get i base (.var j v), hmem, rfl⟩

/-- The generators of a tree are the lookups of variables in it. -/
theorem Catalogue.mem_generators {t : NameTable} {root : Node} {g : Generator} :
    g ∈ (Catalogue.ofNode root).generators t ↔
      ∃ i base j v, Node.get i base (.var j v) ∈ root.postorder ∧
        g = ⟨v, base, (Node.get i base (.var j v)).text t⟩ := by
  have hfilters : ∀ {i base j v}, Node.get i base (.var j v) ∈ (Catalogue.ofNode root).filters ↔
      Node.get i base (.var j v) ∈ root.postorder := by
    intro i base j v
    rw [Catalogue.ofNode, Node.mem_distinct, List.mem_filter]
    exact and_iff_left rfl
  rw [Catalogue.generators, Generator.mem_filterMap_ofFilter?]
  simp only [hfilters]

/-- Where no variable is looked up in two ways, the generators of a tree bind different variables. -/
theorem Catalogue.nodup_vars (t : NameTable) {root : Node}
    (h : ∀ m ∈ root.filters, ∀ n ∈ root.filters, m.filterVar? = n.filterVar? → m = n) :
    (((Catalogue.ofNode root).generators t).map Generator.var).Nodup := by
  refine List.Nodup.of_map some ?_
  have hvars : (((Catalogue.ofNode root).generators t).map Generator.var).map some =
      (Node.distinct root.filters).map Node.filterVar? := by
    rw [List.map_map, generators, List.map_filterMap]
    refine List.filterMap_eq_map_iff_forall_eq_some.2 fun n hn => ?_
    have hsome : n.filterVar?.isSome = true := (List.mem_filter.1 (Node.mem_distinct.1 hn)).2
    cases n with
    | get i base key =>
      cases key with
      | var => rfl
      | _ => cases hsome
    | _ => cases hsome
  rw [hvars]
  refine (Node.nodup_distinctFrom [] root.filters).map_on fun m hm n hn => ?_
  exact h m (Node.mem_distinct.1 hm) n (Node.mem_distinct.1 hn)

/-- The generators of some variables, from the lookups of these variables. -/
theorem Catalogue.filter_generators (t : NameTable) (root : Node) (vars : VarSet) :
    ((Catalogue.ofNode root).generators t).filter (fun g => decide (g.var ∈ vars)) =
      (Node.distinct (root.filters.filter fun n => n.filterVar?.any fun v => decide (v ∈ vars))).filterMap
        (Generator.ofFilter? t) := by
  rw [← Node.filter_distinct, List.filterMap_filter, generators, ofNode, ← Node.filters, List.filter_filterMap]
  refine List.filterMap_congr fun n _ => ?_
  cases n with
  | get i base key =>
    cases key with
    | var j v => exact Option.filter_some
    | _ => rfl
  | _ => rfl

/-- The sources of the generators of a tree are parts of the tree. -/
theorem Catalogue.source_mem_postorder {t : NameTable} {root : Node} {g : Generator}
    (hg : g ∈ (Catalogue.ofNode root).generators t) : g.source ∈ root.postorder := by
  obtain ⟨i, base, j, v, hmem, rfl⟩ := mem_generators.1 hg
  refine Node.mem_postorder_trans ?_ hmem
  exact Node.mem_postorder_of_mem_children (Node.mem_children_get.2 (.inl rfl)) (Node.self_mem_postorder base)

end StarQuery
