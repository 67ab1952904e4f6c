import Mathlib.Data.List.Perm.Subperm
import Mathlib.Logic.Relation
import StarQuery.Proofs.Node.Parts
import StarQuery.Scope.Dependence

/-!
# The closure of the direct dependences

A round of the search adds what the variables found so far depend on directly. A round that adds nothing is the last one, and
every other adds a variable that has an entry; so after as many rounds as there are entries nothing is left to add
(`reach_closed`). What a variable depends on is then what it reaches along the direct dependences between variables that have an
entry (`mem_of_ofDirect`), whatever cycles there are, and the laws of the closure are those of reachability.
-/

namespace StarQuery

open Relation

namespace VarSet

/-- A set that holds a variable more is greater. -/
theorem size_lt_size {s t : VarSet} {v : Var} (hst : s ⊆ t) (hv : v ∈ t) (hnot : ¬ v ∈ s) : s.size < t.size := by
  have hnodup : (v :: s.toList).Nodup := List.nodup_cons.2 ⟨hnot, s.nodup_toList⟩
  have hsubset : v :: s.toList ⊆ t.toList := List.cons_subset.2 ⟨hv, hst⟩
  exact (List.subperm_of_subset hnodup hsubset).length_le

/-- A set of `n` variables below `n` holds all of them. -/
theorem mem_of_le_size {s : VarSet} {n : Nat} (hs : ∀ v ∈ s, v < n) (hn : n ≤ s.size) {v : Var} (hv : v < n) : v ∈ s := by
  have hsubset : s.toList ⊆ List.range n := fun w hw => List.mem_range.2 (hs w hw)
  have hperm : s.toList.Perm (List.range n) :=
    (List.subperm_of_subset s.nodup_toList hsubset).perm_of_length_le (by rwa [List.length_range])
  exact hperm.mem_iff.2 (List.mem_range.2 hv)

end VarSet

namespace Dependencies

variable {direct : List VarSet} {s t : VarSet} {v w : Var}

/-- A variable depends directly on another, and both have an entry. -/
def Edge (direct : List VarSet) (v w : Var) : Prop := ∃ deps, direct[v]? = some deps ∧ w ∈ deps ∧ w < direct.length

/-- An edge leads to what the entry of a variable holds, if that has an entry itself. -/
theorem edge_iff : Edge direct v w ↔ w ∈ direct[v]?.getD ∅ ∧ w < direct.length := by
  unfold Edge
  cases direct[v]? <;> simp

/-! ## Rounds of the search -/

/-- A round adds the ends of the edges out of a set. -/
theorem mem_expand : w ∈ expand direct s ↔ w ∈ s ∨ ∃ v ∈ s, Edge direct v w := by
  simp only [expand, VarSet.mem_union, VarSet.mem_unions_map, VarSet.mem_filter, decide_eq_true_eq, edge_iff]
  rfl

theorem subset_expand : s ⊆ expand direct s := fun _ hv => mem_expand.2 (.inl hv)

/-- The search takes nothing away. -/
theorem subset_reach (n : Nat) (s : VarSet) : s ⊆ reach direct n s := by
  induction n generalizing s with
  | zero => exact fun _ hv => hv
  | succ n ih => exact fun v hv => ih _ v (subset_expand v hv)

/-- Whatever the search finds is reached along the direct dependences. -/
theorem exists_reflTransGen_of_mem_reach {n : Nat} (hw : w ∈ reach direct n s) : ∃ v ∈ s, ReflTransGen (Edge direct) v w := by
  induction n generalizing s with
  | zero => exact ⟨w, hw, .refl⟩
  | succ n ih =>
    obtain ⟨u, hu, huw⟩ := ih hw
    rcases mem_expand.1 hu with hu | ⟨v, hv, hvu⟩
    · exact ⟨u, hu, huw⟩
    · exact ⟨v, hv, .head hvu huw⟩

/-- The search stays where a round adds nothing. -/
theorem reach_of_expand_subset (h : expand direct s ⊆ s) (n : Nat) : reach direct n s = s := by
  have hfix : expand direct s = s := VarSet.ext fun v => ⟨h v, subset_expand v⟩
  induction n with
  | zero => rfl
  | succ n ih => rw [reach, hfix, ih]

/-- The search ends with a set that has no edge out of it, if it may take a round for each variable that has an entry and is not
among those it starts from. -/
theorem reach_closed {n : Nat} (hs : ∀ v ∈ s, v < direct.length) (hn : direct.length ≤ n + s.size) :
    ∀ v ∈ reach direct n s, ∀ w, Edge direct v w → w ∈ reach direct n s := by
  induction n generalizing s with
  | zero =>
    -- no round is left, but every variable that has an entry is there
    rintro v - w ⟨_, -, -, hlt⟩
    exact VarSet.mem_of_le_size hs (by omega) hlt
  | succ n ih =>
    by_cases hfix : expand direct s ⊆ s
    · intro v hv w hvw
      rw [reach_of_expand_subset hfix] at hv ⊢
      exact hfix w (mem_expand.2 (.inr ⟨v, hv, hvw⟩))
    · obtain ⟨w, hw, hnot⟩ : ∃ w, w ∈ expand direct s ∧ ¬ w ∈ s := by simpa [VarSet.subset_iff] using hfix
      have hsize := VarSet.size_lt_size subset_expand hw hnot
      refine ih (fun u hu => ?_) (by omega)
      rcases mem_expand.1 hu with hu | ⟨_, -, _, -, -, hlt⟩
      · exact hs u hu
      · exact hlt

/-! ## What a variable depends on -/

/-- The closure has an entry where the direct dependences have one. -/
theorem length_closure_ofDirect (direct : List VarSet) : (ofDirect direct).closure.length = direct.length := by
  rw [ofDirect, List.length_map, List.length_range]

/-- A variable with an entry depends on what the search finds from it. -/
theorem of_ofDirect_of_lt (hv : v < direct.length) : (ofDirect direct).of v = reach direct direct.length (.single v) := by
  rw [of, ofDirect, List.getElem?_map, List.getElem?_range hv]
  rfl

theorem of_ofDirect_of_le (hv : direct.length ≤ v) : (ofDirect direct).of v = .single v := by
  rw [of, List.getElem?_eq_none (by rwa [length_closure_ofDirect]), Option.getD_none]

/-- A variable depends on what it reaches along the direct dependences. One without an entry reaches itself alone. -/
theorem mem_of_ofDirect : w ∈ (ofDirect direct).of v ↔ ReflTransGen (Edge direct) v w := by
  rcases Nat.lt_or_ge v direct.length with hv | hv
  · rw [of_ofDirect_of_lt hv]
    have hstart : ∀ u ∈ VarSet.single v, u < direct.length := fun u hu => VarSet.mem_single.1 hu ▸ hv
    constructor
    · intro hw
      obtain ⟨u, hu, huw⟩ := exists_reflTransGen_of_mem_reach hw
      exact VarSet.mem_single.1 hu ▸ huw
    · intro hvw
      induction hvw with
      | refl => exact subset_reach _ _ v (VarSet.mem_single.2 rfl)
      | tail _ hedge ih => exact reach_closed hstart (Nat.le_add_right _ _) _ ih _ hedge
  · have hnone : ∀ w, ¬ Edge direct v w := by
      rintro w ⟨deps, hdeps, -⟩
      rw [List.getElem?_eq_none hv] at hdeps
      cases hdeps
    rw [of_ofDirect_of_le hv, VarSet.mem_single, reflTransGen_iff_eq hnone]

/-- What a variable depends on is in every set that holds the variable and what its members depend on directly. -/
theorem of_ofDirect_subset (ht : ∀ u ∈ t, direct[u]?.getD ∅ ⊆ t) (hv : v ∈ t) : (ofDirect direct).of v ⊆ t := by
  intro w hw
  induction mem_of_ofDirect.1 hw with
  | refl => exact hv
  | tail hvu huw ih => exact ht _ (ih (mem_of_ofDirect.2 hvu)) _ (edge_iff.1 huw).1

/-- Every variable depends on itself. -/
theorem mem_of_self (v : Var) : v ∈ (ofDirect direct).of v := mem_of_ofDirect.2 .refl

/-- A variable depends on what it depends on directly. -/
theorem mem_of_direct (hw : w < direct.length) (h : w ∈ direct[v]?.getD ∅) : w ∈ (ofDirect direct).of v :=
  mem_of_ofDirect.2 (.single (edge_iff.2 ⟨h, hw⟩))

/-- A set depends on what one of its members reaches. -/
theorem mem_ofSet_ofDirect : w ∈ (ofDirect direct).ofSet s ↔ ∃ v ∈ s, ReflTransGen (Edge direct) v w := by
  rw [ofSet, VarSet.mem_unions_map]
  exact exists_congr fun v => and_congr_right fun _ => mem_of_ofDirect

/-! ## Closing twice -/

/-- The entry of a variable in the closure is what the variable depends on. -/
theorem getElem?_closure_ofDirect (hv : v < direct.length) : (ofDirect direct).closure[v]? = some ((ofDirect direct).of v) := by
  rw [of_ofDirect_of_lt hv, ofDirect, List.getElem?_map, List.getElem?_range hv, Option.map_some]

/-- The entries of the closure hold what their variables reach. -/
theorem mem_closure_ofDirect :
    (∃ deps, (ofDirect direct).closure[v]? = some deps ∧ w ∈ deps) ↔ v < direct.length ∧ ReflTransGen (Edge direct) v w := by
  constructor
  · rintro ⟨deps, hdeps, hw⟩
    have hv : v < direct.length := by
      rw [← length_closure_ofDirect]
      exact (List.getElem?_eq_some_iff.1 hdeps).1
    rw [getElem?_closure_ofDirect hv, Option.some.injEq] at hdeps
    exact ⟨hv, mem_of_ofDirect.1 (hdeps ▸ hw)⟩
  · rintro ⟨hv, hvw⟩
    exact ⟨_, getElem?_closure_ofDirect hv, mem_of_ofDirect.2 hvw⟩

/-- Along the entries of a closure a variable reaches what it reaches along the direct dependences. -/
theorem reflTransGen_edge_closure :
    ReflTransGen (Edge (ofDirect direct).closure) v w ↔ ReflTransGen (Edge direct) v w := by
  constructor
  · intro h
    induction h with
    | refl => exact .refl
    | tail _ hedge ih =>
      obtain ⟨deps, hdeps, hmem, -⟩ := hedge
      exact ih.trans (mem_closure_ofDirect.1 ⟨deps, hdeps, hmem⟩).2
  · refine ReflTransGen.mono (fun v w hedge => ?_) v w
    have hv : v < direct.length := (List.getElem?_eq_some_iff.1 hedge.choose_spec.1).1
    obtain ⟨deps, hdeps, hmem⟩ := mem_closure_ofDirect.2 ⟨hv, ReflTransGen.single hedge⟩
    exact ⟨deps, hdeps, hmem, (length_closure_ofDirect direct).symm ▸ (edge_iff.1 hedge).2⟩

/-- A variable depends on the same after closing twice. -/
theorem of_ofDirect_closure (v : Var) : (ofDirect (ofDirect direct).closure).of v = (ofDirect direct).of v :=
  VarSet.ext fun w => by rw [mem_of_ofDirect, mem_of_ofDirect, reflTransGen_edge_closure]

/-- Closing twice is closing once. -/
theorem ofDirect_closure (direct : List VarSet) : ofDirect (ofDirect direct).closure = ofDirect direct := by
  have hclosure : (ofDirect (ofDirect direct).closure).closure = (ofDirect direct).closure := by
    refine List.ext_getElem? fun v => ?_
    rcases Nat.lt_or_ge v direct.length with hv | hv
    · have hv' : v < (ofDirect direct).closure.length := by rwa [length_closure_ofDirect]
      rw [getElem?_closure_ofDirect hv, getElem?_closure_ofDirect hv', of_ofDirect_closure]
    · rw [List.getElem?_eq_none, List.getElem?_eq_none] <;> simpa only [length_closure_ofDirect] using hv
  exact congrArg Dependencies.mk hclosure

end Dependencies

open Dependencies in
/-- The closure of the direct dependences is their reflexive and transitive closure.

* Its table has an entry for each variable that has one in `direct`, and `w` is in the entry of `v` if and only if `v` reaches `w`
  along the direct dependences between variables that have an entry.
* To close it again changes nothing.
* What a set depends on is what its members reach, a variable without an entry only itself. This is a closure operator: it
  extends a set, is monotone and idempotent; and it distributes over unions. -/
theorem closure_is_reachability (direct : List VarSet) :
    ((ofDirect direct).closure.length = direct.length ∧
      ∀ v w, (∃ deps, (ofDirect direct).closure[v]? = some deps ∧ w ∈ deps) ↔
        v < direct.length ∧ ReflTransGen (Edge direct) v w) ∧
    ofDirect (ofDirect direct).closure = ofDirect direct ∧
    (∀ s w, w ∈ (ofDirect direct).ofSet s ↔ ∃ v ∈ s, ReflTransGen (Edge direct) v w) ∧
    (∀ s, s ⊆ (ofDirect direct).ofSet s) ∧
    (∀ s t, s ⊆ t → (ofDirect direct).ofSet s ⊆ (ofDirect direct).ofSet t) ∧
    (∀ s, (ofDirect direct).ofSet ((ofDirect direct).ofSet s) = (ofDirect direct).ofSet s) ∧
    ∀ s t, (ofDirect direct).ofSet (s ∪ t) = (ofDirect direct).ofSet s ∪ (ofDirect direct).ofSet t := by
  have hextensive : ∀ s, s ⊆ (ofDirect direct).ofSet s := fun s v hv => mem_ofSet_ofDirect.2 ⟨v, hv, .refl⟩
  refine ⟨⟨length_closure_ofDirect direct, fun v w => mem_closure_ofDirect⟩, ofDirect_closure direct,
    fun s w => mem_ofSet_ofDirect, hextensive, fun s t hst w hw => ?_, fun s => VarSet.ext fun w => ⟨fun hw => ?_, hextensive _ w⟩,
    fun s t => VarSet.ext fun w => ?_⟩
  · obtain ⟨v, hv, hvw⟩ := mem_ofSet_ofDirect.1 hw
    exact mem_ofSet_ofDirect.2 ⟨v, hst v hv, hvw⟩
  · obtain ⟨u, hu, huw⟩ := mem_ofSet_ofDirect.1 hw
    obtain ⟨v, hv, hvu⟩ := mem_ofSet_ofDirect.1 hu
    exact mem_ofSet_ofDirect.2 ⟨v, hv, hvu.trans huw⟩
  · simp only [VarSet.mem_union, mem_ofSet_ofDirect, or_and_right, exists_or]

/-- Three variables in a cycle, one of which depends also on a variable without an entry, and a fourth that depends on itself. -/
def cyclicDependences : List VarSet := [.single 1, .ofList [2, 7], .single 0, .single 3]

open Dependencies in
/-- From one variable of the cycle all three are reached, and the variable without an entry reaches itself only. -/
theorem closure_is_reachability_cyclicDependences :
    (VarSet.ofList [2, 9] ⊆ .ofList [2, 3, 9] ∧
      (ofDirect cyclicDependences).ofSet (.ofList [2, 9]) ⊆ (ofDirect cyclicDependences).ofSet (.ofList [2, 3, 9])) ∧
    (ofDirect cyclicDependences).ofSet (.ofList [2, 9]) = .ofList [0, 1, 2, 9] :=
  ⟨⟨by decide, (closure_is_reachability cyclicDependences).2.2.2.2.1 _ _ (by decide)⟩, by decide⟩

end StarQuery
