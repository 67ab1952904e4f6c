import StarQuery.Proofs.Plan.Saturated

/-!
# Plans that leave nothing over

The closure of a set of variables holds all that their generators need (`closed_closure`). Generators are in order if each has
what it needs from those before it. Where generators can be put in order, the plan for a closed set of variables puts all of
their generators into levels and leaves none over (`Plan.solved_of_ordered`).
-/

namespace StarQuery

namespace Generator

/-! ## Closures -/

/-- A set of variables that holds what their generators need. -/
def Closed (gs : List Generator) (s : VarSet) : Prop := ∀ g ∈ gs, g.var ∈ s → g.needs ⊆ s

theorem addNeeds_cons (s : VarSet) (g : Generator) (gs : List Generator) :
    addNeeds s (g :: gs) = addNeeds (if g.var ∈ s then s ∪ g.needs else s) gs := rfl

/-- To add needs takes nothing away. -/
theorem subset_addNeeds (gs : List Generator) (s : VarSet) : s ⊆ addNeeds s gs := by
  induction gs generalizing s with
  | nil => exact fun _ hv => hv
  | cons g gs ih =>
    intro v hv
    rw [addNeeds_cons]
    refine ih _ v ?_
    split
    · exact VarSet.mem_union.2 (.inl hv)
    · exact hv

/-- One time over adds the needs of the variables that are in the set already. -/
theorem needs_subset_addNeeds {gs : List Generator} {g : Generator} (hg : g ∈ gs) {s : VarSet} (hs : g.var ∈ s) :
    g.needs ⊆ addNeeds s gs := by
  induction gs generalizing s with
  | nil => cases hg
  | cons h gs ih =>
    rw [addNeeds_cons]
    rcases List.mem_cons.1 hg with rfl | hg
    · intro v hv
      rw [if_pos hs]
      exact subset_addNeeds gs _ v (VarSet.mem_union.2 (.inr hv))
    · refine ih hg ?_
      split
      · exact VarSet.mem_union.2 (.inl hs)
      · exact hs

/-- Nothing is added that is not in every closed set around. -/
theorem addNeeds_subset {gs hs : List Generator} (hgs : gs ⊆ hs) {s t : VarSet} (ht : Closed hs t) (hst : s ⊆ t) :
    addNeeds s gs ⊆ t := by
  induction gs generalizing s with
  | nil => exact hst
  | cons g gs ih =>
    rw [addNeeds_cons]
    refine ih (fun x hx => hgs (List.mem_cons_of_mem g hx)) ?_
    split
    · rename_i hg
      intro v hv
      exact (VarSet.mem_union.1 hv).elim (hst v) (ht g (hgs List.mem_cons_self) (hst _ hg) v)
    · exact hst

/-- The number of generators of the variables of a set. -/
def active (gs : List Generator) (s : VarSet) : Nat := gs.countP fun g => decide (g.var ∈ s)

/-- If one time over does not close a set, it adds a variable with a generator of its own. -/
theorem active_lt {gs : List Generator} {s : VarSet} (h : ¬ Closed gs (addNeeds s gs)) :
    active gs s < active gs (addNeeds s gs) := by
  obtain ⟨g, hg, hnew, hneeds⟩ : ∃ g ∈ gs, g.var ∈ addNeeds s gs ∧ ¬ g.needs ⊆ addNeeds s gs := by
    refine Classical.byContradiction fun hnone => h fun g hg hnew => ?_
    exact Classical.byContradiction fun hneeds => hnone ⟨g, hg, hnew, hneeds⟩
  have hold : ¬ g.var ∈ s := fun hs => hneeds (needs_subset_addNeeds hg hs)
  obtain ⟨before, after, hsplit⟩ := List.append_of_mem hg
  have hmono : ∀ xs : List Generator, xs.countP (fun g => decide (g.var ∈ s)) ≤
      xs.countP fun g => decide (g.var ∈ addNeeds s gs) := by
    refine fun xs => List.countP_mono_left fun x _ hx => ?_
    exact decide_eq_true (subset_addNeeds gs s _ (of_decide_eq_true hx))
  have hbefore := hmono before
  have hafter := hmono after
  unfold active
  generalize addNeeds s gs = t at *
  rw [hsplit, List.countP_append, List.countP_append, List.countP_cons_of_neg (by simpa using hold),
    List.countP_cons_of_pos (by simpa using hnew)]
  omega

/-- A set is closed after as many times over as there are generators of variables that are not yet in it. -/
theorem closed_addNeedsTimes {gs : List Generator} (n : Nat) {s : VarSet}
    (h : Closed gs s ∨ gs.length < n + active gs s) : Closed gs (addNeedsTimes gs n s) := by
  induction n generalizing s with
  | zero =>
    rcases h with h | h
    · exact h
    · have hle : active gs s ≤ gs.length := List.countP_le_length
      omega
  | succ n ih =>
    refine ih ?_
    by_cases hclosed : Closed gs (addNeeds s gs)
    · exact .inl hclosed
    · have hlt := active_lt hclosed
      rcases h with h | h
      · refine absurd ?_ hclosed
        intro g hg hvar v hv
        refine subset_addNeeds gs s v (h g hg ?_ v hv)
        exact addNeeds_subset (List.Subset.refl gs) h (fun _ hv => hv) _ hvar
      · exact .inr (by omega)

/-- The closure of a set holds what its generators need. -/
theorem closed_closure (gs : List Generator) (s : VarSet) : Closed gs (closure gs s) := by
  refine closed_addNeedsTimes gs.length ?_
  by_cases h : active gs s = 0
  · refine .inl fun g hg hs => ?_
    exact absurd (decide_eq_true hs) (List.countP_eq_zero.1 h g hg)
  · exact .inr (by omega)

/-- A set is part of its closure. -/
theorem subset_closure (gs : List Generator) (s : VarSet) : s ⊆ closure gs s := by
  unfold closure
  induction gs.length generalizing s with
  | zero => exact fun _ hv => hv
  | succ n ih => exact fun v hv => ih _ v (subset_addNeeds gs s v hv)

/-! ## Orders -/

/-- Generators in an order in which each has what it needs, where `seen` is bound. -/
def Ordered : VarSet → List Generator → Prop
  | _, [] => True
  | seen, g :: rest => g.needs ⊆ seen ∧ Ordered (seen.insert g.var) rest

instance decidableOrdered : (seen : VarSet) → (gs : List Generator) → Decidable (Ordered seen gs)
  | _, [] => .isTrue trivial
  | seen, g :: rest =>
    have := decidableOrdered (seen.insert g.var) rest
    inferInstanceAs (Decidable (g.needs ⊆ seen ∧ Ordered (seen.insert g.var) rest))

/-- Generators stay in order where more is bound. -/
theorem Ordered.mono {gs : List Generator} {seen seen' : VarSet} (h : Ordered seen gs) (hsub : seen ⊆ seen') :
    Ordered seen' gs := by
  induction gs generalizing seen seen' with
  | nil => trivial
  | cons g gs ih =>
    refine ⟨fun v hv => hsub v (h.1 v hv), ih h.2 fun v hv => ?_⟩
    exact VarSet.mem_insert.2 ((VarSet.mem_insert.1 hv).imp id (hsub v))

/-- One list after another: the second may need what the first generates. -/
theorem Ordered.append {xs ys : List Generator} {seen seen' : VarSet} (hx : Ordered seen xs) (hy : Ordered seen' ys)
    (hseen : ∀ v ∈ seen', v ∈ seen ∨ ∃ g ∈ xs, g.var = v) : Ordered seen (xs ++ ys) := by
  induction xs generalizing seen with
  | nil => exact hy.mono fun v hv => (hseen v hv).resolve_right fun ⟨_, hg, _⟩ => absurd hg List.not_mem_nil
  | cons g xs ih =>
    refine ⟨hx.1, ih hx.2 fun v hv => ?_⟩
    rcases hseen v hv with hv | ⟨h, hh, rfl⟩
    · exact .inl (VarSet.mem_insert.2 (.inr hv))
    · rcases List.mem_cons.1 hh with rfl | hh
      · exact .inl (VarSet.mem_insert.2 (.inl rfl))
      · exact .inr ⟨h, hh, rfl⟩

/-- Lists one after the other, each in order by itself, are in order. -/
theorem Ordered.flatMap {α : Type} {f : α → List Generator} {xs : List α} {seen : VarSet}
    (h : ∀ x ∈ xs, Ordered seen (f x)) : Ordered seen (xs.flatMap f) := by
  induction xs with
  | nil => trivial
  | cons x xs ih =>
    rw [List.forall_mem_cons] at h
    exact h.1.append (ih h.2) fun v hv => .inl hv

/-- The generators of the variables of a closed set are in order among themselves. -/
theorem Ordered.filter {gs : List Generator} {seen seen' vars : VarSet} (h : Ordered seen gs) (hvars : Closed gs vars)
    (hseen : ∀ v ∈ seen, v ∈ vars → v ∈ seen') : Ordered seen' (gs.filter fun g => decide (g.var ∈ vars)) := by
  induction gs generalizing seen seen' with
  | nil => trivial
  | cons g gs ih =>
    have hrest : Closed gs vars := fun x hx => hvars x (List.mem_cons_of_mem g hx)
    by_cases hg : g.var ∈ vars
    · rw [List.filter_cons_of_pos (by simpa using hg)]
      refine ⟨fun v hv => hseen v (h.1 v hv) (hvars g List.mem_cons_self hg v hv), ih h.2 hrest fun v hv hvv => ?_⟩
      exact VarSet.mem_insert.2 ((VarSet.mem_insert.1 hv).imp id fun hv => hseen v hv hvv)
    · rw [List.filter_cons_of_neg (by simpa using hg)]
      refine ih h.2 hrest fun v hv hvv => ?_
      rcases VarSet.mem_insert.1 hv with rfl | hv
      · exact absurd hvv hg
      · exact hseen v hv hvv

/-- Where what is bound is saturated, generators that are in order have what they need. -/
theorem Ordered.needs_subset {gs : List Generator} {seen bound : VarSet} (h : Ordered seen gs) (hseen : seen ⊆ bound)
    (hbound : Saturated gs bound) : ∀ g ∈ gs, g.needs ⊆ bound := by
  induction gs generalizing seen with
  | nil => exact fun g hg => absurd hg List.not_mem_nil
  | cons g gs ih =>
    have hneeds : g.needs ⊆ bound := fun v hv => hseen v (h.1 v hv)
    refine List.forall_mem_cons.2 ⟨hneeds, ih h.2 (fun v hv => ?_) fun x hx => hbound x (List.mem_cons_of_mem g hx)⟩
    rcases VarSet.mem_insert.1 hv with rfl | hv
    · exact hbound g List.mem_cons_self hneeds
    · exact hseen v hv

end Generator

namespace Plan

open Generator

/-- The source of every level has what it needs. -/
theorem needs_subset_place {seen : VarSet} {gs : List Generator} (h : ∀ g ∈ gs, g.needs ⊆ seen) {l : Level}
    (hl : l ∈ (place seen gs).1) : l.generator.needs ⊆ l.seen := by
  -- what is bound on the way is added to `seen`
  have hplace : ∀ seen', seen ⊆ seen' → l ∈ (place seen' gs).1 → l.generator.needs ⊆ l.seen := by
    clear hl
    induction gs with
    | nil => exact fun _ _ hl => absurd hl List.not_mem_nil
    | cons g gs ih =>
      rw [List.forall_mem_cons] at h
      intro seen' hsub hl
      rw [place] at hl
      rcases List.mem_cons.1 hl with rfl | hl
      · exact fun v hv => hsub v (h.1 v hv)
      · exact ih h.2 _ (fun v hv => VarSet.mem_insert.2 (.inr (hsub v hv))) hl
  exact hplace seen (fun _ hv => hv) hl

/-- The source of every level of rounds has what it needs. -/
theorem needs_subset_rounds {n : Nat} {pending : List Generator} {seen : VarSet} {l : Level}
    (hl : l ∈ (rounds n pending seen).levels) : l.generator.needs ⊆ l.seen := by
  induction n generalizing pending seen with
  | zero => cases hl
  | succ n ih =>
    rw [rounds] at hl
    simp only [List.partition_eq_filter_filter] at hl
    split at hl
    · cases hl
    · rcases List.mem_append.1 hl with hl | hl
      · exact needs_subset_place (fun g hg => of_decide_eq_true (List.mem_filter.1 hg).2) hl
      · exact ih hl

/-- Rounds over generators that can be put in order leave none over. -/
theorem rounds_solved {n : Nat} {pending order : List Generator} {seen : VarSet} (h : Ordered seen order)
    (hmem : ∀ g, g ∈ pending ↔ g ∈ order) (hlen : pending.length ≤ n) : (rounds n pending seen).unsolved = [] := by
  have hsaturated : Saturated order (rounds n pending seen).bound := fun g hg => saturated_rounds hlen g ((hmem g).2 hg)
  rw [unsolved_rounds hlen]
  refine List.eq_nil_iff_forall_not_mem.2 fun g hg => ?_
  obtain ⟨hpending, hneeds⟩ := mem_waiting.1 hg
  exact hneeds (h.needs_subset (subset_bound_rounds n pending seen) hsaturated g ((hmem g).1 hpending))

/-- The plan for a closed set of variables leaves nothing over and binds all variables that have a generator. -/
theorem solved_of_ordered {gs order : List Generator} (h : Ordered ∅ order) (hmem : ∀ g, g ∈ gs ↔ g ∈ order)
    {vars : VarSet} (hvars : Closed gs vars) :
    (ofGenerators gs ∅ vars).unsolved = [] ∧ ∀ g ∈ gs, g.var ∈ vars → g.var ∈ (ofGenerators gs ∅ vars).bound := by
  have horder := h.filter (fun g hg => hvars g ((hmem g).2 hg)) fun v hv _ => hv
  have hsame : ∀ g, g ∈ gs.filter (fun g => decide (g.var ∈ vars)) ↔ g ∈ order.filter fun g => decide (g.var ∈ vars) := by
    intro g
    rw [List.mem_filter, List.mem_filter, hmem]
  have hunsolved : (ofGenerators gs ∅ vars).unsolved = [] := rounds_solved horder hsame (Nat.le_refl _)
  refine ⟨hunsolved, fun g hg hv => ?_⟩
  have hplaced : g ∈ (ofGenerators gs ∅ vars).levels.map Level.generator ++ (ofGenerators gs ∅ vars).unsolved :=
    (perm_rounds (Nat.le_refl _)).mem_iff.2 (List.mem_filter.2 ⟨hg, decide_eq_true hv⟩)
  rw [hunsolved, List.append_nil] at hplaced
  obtain ⟨l, hl, rfl⟩ := List.mem_map.1 hplaced
  exact (chained_ofGenerators gs ∅ vars).mem_bound.2 (.inr ⟨l, hl, rfl⟩)

end Plan

end StarQuery
