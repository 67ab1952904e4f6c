import StarQuery.Proofs.Plan.Chain
import StarQuery.Proofs.Scope.Closure

/-!
# The closure of a set of variables under the needs of generators

The closure is the least set around a set of variables that holds what its generators need, so it does not depend on the order of the
generators and is monotone and idempotent. A search that adds needs until the set stays as large as it was ends with it
(`settles_iff`): as long as the search goes on the set grows, and it stays within the closure.
-/

namespace StarQuery

/-- A part of a set is no larger than the set. -/
theorem VarSet.size_le_size {s t : VarSet} (h : s ⊆ t) : s.size ≤ t.size :=
  (List.subperm_of_subset s.nodup_toList h).length_le

namespace Generator

variable {gs hs : List Generator} {s t : VarSet}

/-- A search from `s` ends with `t`: the needs of all generators are added, one after the other, and again as long as the set has
become larger. -/
inductive Settles (gs : List Generator) : VarSet → VarSet → Prop
  | done {s : VarSet} (h : (addNeeds s gs).size = s.size) : Settles gs s (addNeeds s gs)
  | again {s t : VarSet} (h : (addNeeds s gs).size ≠ s.size) (hrest : Settles gs (addNeeds s gs) t) : Settles gs s t

/-- The closure is the only set that is closed, holds the set and is within every closed set around it. -/
theorem eq_closure (hclosed : Closed gs t) (hst : s ⊆ t) (hleast : t ⊆ closure gs s) : t = closure gs s :=
  VarSet.ext fun v => ⟨hleast v, closure_subset hclosed hst v⟩

/-- To add needs once does not lead out of the closure. -/
theorem addNeeds_subset_closure (gs : List Generator) (s : VarSet) : addNeeds s gs ⊆ closure gs s :=
  addNeeds_subset (List.Subset.refl gs) (closed_closure gs s) (subset_closure gs s)

/-- To add needs does not change the closure. -/
theorem closure_addNeeds (gs : List Generator) (s : VarSet) : closure gs (addNeeds s gs) = closure gs s := by
  refine eq_closure (closed_closure gs _) (fun v hv => ?_) ?_
  · exact subset_closure gs _ v (subset_addNeeds gs s v hv)
  · exact closure_subset (closed_closure gs s) (addNeeds_subset_closure gs s)

/-- A set that stays as large as it was has all the needs of its generators. -/
theorem addNeeds_eq_closure (h : (addNeeds s gs).size = s.size) : addNeeds s gs = closure gs s := by
  have hsame : addNeeds s gs ⊆ s := by
    intro v hv
    refine Classical.byContradiction fun hnot => ?_
    have hlt := VarSet.size_lt_size (subset_addNeeds gs s) hv hnot
    omega
  refine eq_closure (fun g hg hvar => ?_) (subset_addNeeds gs s) (addNeeds_subset_closure gs s)
  exact needs_subset_addNeeds hg (hsame _ hvar)

/-- Where a search ends is the closure. -/
theorem Settles.eq_closure (h : Settles gs s t) : t = closure gs s := by
  induction h with
  | done h => exact addNeeds_eq_closure h
  | again _ _ ih => rw [ih, closure_addNeeds]

/-- Every search ends, as what is missing from the closure becomes less each time. -/
theorem settles_closure (gs : List Generator) (s : VarSet) : Settles gs s (closure gs s) := by
  induction hmissing : (closure gs s).size - s.size using Nat.strongRecOn generalizing s with
  | ind missing ih =>
    by_cases hsize : (addNeeds s gs).size = s.size
    · rw [← addNeeds_eq_closure hsize]
      exact .done hsize
    · refine .again hsize ?_
      rw [← closure_addNeeds]
      have hgrown : s.size ≤ (addNeeds s gs).size := VarSet.size_le_size (subset_addNeeds gs s)
      have hwithin : (addNeeds s gs).size ≤ (closure gs s).size := VarSet.size_le_size (addNeeds_subset_closure gs s)
      refine ih _ ?_ (addNeeds s gs) rfl
      rw [closure_addNeeds]
      omega

/-- A search ends with the closure and with nothing else. -/
theorem settles_iff : Settles gs s t ↔ t = closure gs s :=
  ⟨Settles.eq_closure, fun h => h ▸ settles_closure gs s⟩

/-- The closure depends on which generators there are, not on their order. -/
theorem closure_congr (h : ∀ g, g ∈ gs ↔ g ∈ hs) (s : VarSet) : closure gs s = closure hs s := by
  refine eq_closure (fun g hg => closed_closure gs s g ((h g).2 hg)) (subset_closure gs s) ?_
  exact closure_subset (fun g hg => closed_closure hs s g ((h g).1 hg)) (subset_closure hs s)

theorem closure_mono (h : s ⊆ t) : closure gs s ⊆ closure gs t :=
  closure_subset (closed_closure gs t) fun v hv => subset_closure gs t v (h v hv)

end Generator

open Generator in
/-- The closure of a set of variables is the least set around it that holds what its generators need, whatever cycles there are.

* The search that adds the needs of all generators until the set stays as large as it was ends, with the closure and nothing else.
* The closure holds the set and, with the variable of a generator, all that the generator needs; and it is within every such set.
* It does not depend on the order in which the generators are listed, or how often each is.
* It is monotone and idempotent. -/
theorem closure_is_least_closed_set (gs : List Generator) :
    (∀ s t, Settles gs s t ↔ t = closure gs s) ∧
    (∀ s, s ⊆ closure gs s ∧ (∀ g ∈ gs, g.var ∈ closure gs s → g.needs ⊆ closure gs s) ∧
      ∀ t, s ⊆ t → (∀ g ∈ gs, g.var ∈ t → g.needs ⊆ t) → closure gs s ⊆ t) ∧
    (∀ hs, (∀ g, g ∈ gs ↔ g ∈ hs) → ∀ s, closure hs s = closure gs s) ∧
    (∀ s t, s ⊆ t → closure gs s ⊆ closure gs t) ∧
    ∀ s, closure gs (closure gs s) = closure gs s :=
  ⟨fun _ _ => settles_iff,
    fun s => ⟨subset_closure gs s, closed_closure gs s, fun _ hst ht => closure_subset ht hst⟩,
    fun _ h s => (closure_congr h s).symm, fun _ _ => closure_mono, fun s => closure_eq_self (closed_closure gs s)⟩

/-- Two variables that need each other, and a third that needs them both. -/
def circularGenerators : List Generator :=
  [⟨1, .var { free := .single 0 } 0, "*A[*B]"⟩, ⟨0, .var { free := .single 1 } 1, "*B[*A]"⟩,
    ⟨2, .input { free := .ofList [0, 1] }, "input[*C]"⟩]

open Generator in
/-- From one of the two variables that need each other a search comes to both; the third has the same closure in the
reverse order. -/
theorem closure_is_least_closed_set_circularGenerators :
    let gs := circularGenerators
    (addNeeds (.single 0) gs ≠ .single 0 ∧ Settles gs (.single 0) (.ofList [0, 1])) ∧
    (Closed gs (.ofList [0, 1, 4]) ∧ closure gs (.single 0) ⊆ .ofList [0, 1, 4]) ∧
    closure gs.reverse (.single 2) = closure gs (.single 2) ∧
    (VarSet.single 2 ⊆ .ofList [2, 5] ∧ closure gs (.single 2) ⊆ closure gs (.ofList [2, 5])) := by
  obtain ⟨hsettles, hleast, horder, hmono, -⟩ := closure_is_least_closed_set circularGenerators
  have hclosed : Closed circularGenerators (.ofList [0, 1, 4]) := by
    unfold Closed
    decide
  refine ⟨⟨by decide, (hsettles _ _).2 (by decide)⟩, ⟨hclosed, (hleast _).2.2 _ (by decide) hclosed⟩,
    horder _ (fun g => List.mem_reverse.symm) _, by decide, hmono _ _ (by decide)⟩

end StarQuery
