import StarQuery.Proofs.Plan.Order

/-!
# Plans of chains

Generators form a chain if each needs all those before it, and nothing that these do not generate. A plan takes the generators of
a chain one in a round, so in their order (`Plan.levels_rounds_chain`), whatever the order of the catalogue. A generator that needs
nothing of a chain is taken in the first round, so right after the first of the chain (`Plan.levels_rounds_aside`), and generators
that need nothing at all are taken together, in the order of the catalogue (`Plan.levels_ofGenerators_free`).
-/

namespace StarQuery

namespace Generator

/-- Generators each of which can be placed as soon as those before it are, and not earlier, where `seen` is bound. -/
def Chain : VarSet → List Generator → Prop
  | _, [] => True
  | seen, g :: rest =>
    g.needs ⊆ seen ∧ ¬ g.var ∈ seen ∧ (∀ h ∈ rest, g.var ∈ h.needs) ∧ Chain (seen.insert g.var) rest

/-- A chain stays one if a variable is bound that it does not generate. -/
theorem Chain.insert {seen : VarSet} {gs : List Generator} (h : Chain seen gs) {v : Var} (hv : ∀ g ∈ gs, g.var ≠ v) :
    Chain (seen.insert v) gs := by
  induction gs generalizing seen with
  | nil => trivial
  | cons g gs ih =>
    rw [List.forall_mem_cons] at hv
    obtain ⟨hneeds, hnew, hrest, hchain⟩ := h
    refine ⟨fun w hw => VarSet.mem_insert.2 (.inr (hneeds w hw)), ?_, hrest, ?_⟩
    · rw [VarSet.mem_insert, not_or]
      exact ⟨hv.1, hnew⟩
    · have hswap : (seen.insert v).insert g.var = (seen.insert g.var).insert v := by
        refine VarSet.ext fun w => ?_
        simp only [VarSet.mem_insert]
        exact or_left_comm
      rw [hswap]
      exact ih hchain hv.2

/-- The variables of a chain are new, and all different. -/
theorem Chain.fresh {seen : VarSet} {gs : List Generator} (h : Chain seen gs) :
    (gs.map Generator.var).Nodup ∧ ∀ g ∈ gs, ¬ g.var ∈ seen := by
  induction gs generalizing seen with
  | nil => exact ⟨List.nodup_nil, fun g hg => absurd hg List.not_mem_nil⟩
  | cons g gs ih =>
    obtain ⟨-, hnew, -, hchain⟩ := h
    obtain ⟨hnodup, hseen⟩ := ih hchain
    refine ⟨List.nodup_cons.2 ⟨fun hmem => ?_, hnodup⟩, List.forall_mem_cons.2 ⟨hnew, fun h hh hin => ?_⟩⟩
    · obtain ⟨h, hh, heq⟩ := List.mem_map.1 hmem
      exact hseen h hh (VarSet.mem_insert.2 (.inl heq))
    · exact hseen h hh (VarSet.mem_insert.2 (.inr hin))

/-- What a chain needs is bound before it or generated by it. -/
theorem Chain.needs_subset {seen : VarSet} {gs : List Generator} (h : Chain seen gs) {g : Generator} (hg : g ∈ gs) :
    g.needs ⊆ (Plan.place seen gs).2 := by
  induction gs generalizing seen with
  | nil => cases hg
  | cons first gs ih =>
    obtain ⟨hneeds, -, -, hchain⟩ := h
    rcases List.mem_cons.1 hg with rfl | hg
    · exact fun v hv => Plan.mem_bound_place.2 (.inl (hneeds v hv))
    · exact ih hchain hg

/-- One chain after another: the second needs all of the first. -/
theorem Chain.append {seen : VarSet} {xs ys : List Generator} (hx : Chain seen xs) (hy : Chain (Plan.place seen xs).2 ys)
    (hall : ∀ g ∈ xs, ∀ h ∈ ys, g.var ∈ h.needs) : Chain seen (xs ++ ys) := by
  induction xs generalizing seen with
  | nil => exact hy
  | cons g xs ih =>
    rw [List.forall_mem_cons] at hall
    obtain ⟨hneeds, hnew, hrest, hchain⟩ := hx
    exact ⟨hneeds, hnew, List.forall_mem_append.2 ⟨hrest, hall.1⟩, ih hchain hy hall.2⟩

/-- Generators have variables of their own if all but one have, and this has another one, wherever it stands. -/
theorem nodup_vars_aside {xs ys : List Generator} {k : Generator} (hnodup : ((xs ++ ys).map Generator.var).Nodup)
    (hvar : ∀ g ∈ xs ++ ys, g.var ≠ k.var) : ((xs ++ (ys.take 1 ++ k :: ys.drop 1)).map Generator.var).Nodup := by
  have hperm : (xs ++ (ys.take 1 ++ k :: ys.drop 1)).Perm (k :: (xs ++ ys)) := by
    have hmiddle : (xs ++ ys.take 1 ++ k :: ys.drop 1).Perm (k :: (xs ++ ys.take 1 ++ ys.drop 1)) := List.perm_middle
    rwa [List.append_assoc, List.append_assoc, List.take_append_drop] at hmiddle
  refine (hperm.map Generator.var).nodup_iff.2 (List.nodup_cons.2 ⟨fun hmem => ?_, hnodup⟩)
  obtain ⟨g, hg, heq⟩ := List.mem_map.1 hmem
  exact hvar g hg heq

/-! ## Closures -/

/-- A closed set around a set holds its closure. -/
theorem closure_subset {gs : List Generator} {s t : VarSet} (ht : Closed gs t) (hst : s ⊆ t) : closure gs s ⊆ t := by
  unfold closure
  induction gs.length generalizing s with
  | zero => exact hst
  | succ n ih => exact ih (addNeeds_subset (List.Subset.refl gs) ht hst)

theorem closure_eq_self {gs : List Generator} {s : VarSet} (hs : Closed gs s) : closure gs s = s :=
  VarSet.ext fun v => ⟨closure_subset hs (fun _ hv => hv) v, subset_closure gs s v⟩

theorem closure_empty (gs : List Generator) : closure gs ∅ = ∅ :=
  closure_eq_self fun g _ hg => absurd hg (VarSet.not_mem_empty g.var)

/-- The variables of a chain need nothing else, if the chain has all their generators. -/
theorem Chain.closure_eq {generators gs : List Generator} {vars : VarSet} (h : Chain ∅ gs)
    (hfilter : (generators.filter (fun g => decide (g.var ∈ vars))).Perm gs) (hvars : (Plan.place ∅ gs).2 = vars) :
    closure generators vars = vars := by
  refine closure_eq_self fun g hg hvar => ?_
  have hmem : g ∈ gs := hfilter.mem_iff.1 (List.mem_filter.2 ⟨hg, decide_eq_true hvar⟩)
  exact hvars ▸ h.needs_subset hmem

/-- The closure of one variable, whose generators need as much as all else that they need. -/
theorem closure_single {gs : List Generator} {g : Generator} (hg : g ∈ gs) (hclosed : Closed gs (.single g.var ∪ g.needs)) :
    closure gs (.single g.var) = .single g.var ∪ g.needs := by
  have hvar : g.var ∈ closure gs (.single g.var) := subset_closure gs _ _ (VarSet.mem_single.2 rfl)
  refine VarSet.ext fun v => ⟨closure_subset hclosed (fun w hw => VarSet.mem_union.2 (.inl hw)) v, fun hv => ?_⟩
  rcases VarSet.mem_union.1 hv with hv | hv
  · rw [VarSet.mem_single.1 hv]
    exact hvar
  · exact closed_closure gs _ g hg hvar v hv

end Generator

namespace Plan

open Generator

/-- Two lists of generators are placed one after the other, the second where the first is bound. -/
theorem place_append (seen : VarSet) (xs ys : List Generator) :
    place seen (xs ++ ys) =
      ((place seen xs).1 ++ (place (place seen xs).2 ys).1, (place (place seen xs).2 ys).2) := by
  induction xs generalizing seen with
  | nil => rfl
  | cons g xs ih => rw [List.cons_append, place, place, ih, List.cons_append]

/-- A round that takes some of the pending generators. -/
theorem levels_rounds_succ {n : Nat} {pending available rest : List Generator} {seen : VarSet}
    (havailable : pending.filter (fun g => decide (g.needs ⊆ seen)) = available)
    (hrest : pending.filter (fun g => !decide (g.needs ⊆ seen)) = rest) (hne : available ≠ []) :
    (rounds (n + 1) pending seen).levels =
      (place seen available).1 ++ (rounds n rest (place seen available).2).levels := by
  have hfilter : pending.filter (not ∘ fun g => decide (g.needs ⊆ seen)) = rest := hrest
  rw [rounds]
  simp only [List.partition_eq_filter_filter, havailable, hfilter]
  rw [if_neg (by simpa using hne)]

theorem levels_rounds_nil (n : Nat) (seen : VarSet) : (rounds n [] seen).levels = [] := by
  cases n <;> rfl

/-- A generator that needs a variable that is not bound is left for later. -/
theorem filter_later {v : Var} {seen : VarSet} (hv : ¬ v ∈ seen) {gs : List Generator} (hgs : ∀ g ∈ gs, v ∈ g.needs) :
    gs.filter (fun g => decide (g.needs ⊆ seen)) = [] ∧ gs.filter (fun g => !decide (g.needs ⊆ seen)) = gs := by
  have hnot : ∀ g ∈ gs, ¬ g.needs ⊆ seen := fun g hg hsub => hv (hsub v (hgs g hg))
  refine ⟨List.filter_eq_nil_iff.2 fun g hg => ?_, List.filter_eq_self.2 fun g hg => ?_⟩
  · simpa using hnot g hg
  · simpa using hnot g hg

/-- The generators of a chain are taken in their order, before all others that need them. -/
theorem levels_rounds_chain {seen : VarSet} {gs late : List Generator} (h : Chain seen gs)
    (hlate : ∀ g ∈ gs, ∀ l ∈ late, g.var ∈ l.needs) (n : Nat) :
    (rounds (gs.length + n) (gs ++ late) seen).levels =
      (place seen gs).1 ++ (rounds n late (place seen gs).2).levels := by
  induction gs generalizing seen with
  | nil => rw [List.length_nil, Nat.zero_add, List.nil_append, place, List.nil_append]
  | cons g gs ih =>
    rw [List.forall_mem_cons] at hlate
    obtain ⟨hneeds, hnew, hrest, hchain⟩ := h
    obtain ⟨hnow, hthen⟩ := filter_later hnew (List.forall_mem_append.2 ⟨hrest, hlate.1⟩)
    have havailable : (g :: (gs ++ late)).filter (fun g => decide (g.needs ⊆ seen)) = [g] := by
      rw [List.filter_cons_of_pos (by simpa using hneeds), hnow]
    have hpending : (g :: (gs ++ late)).filter (fun g => !decide (g.needs ⊆ seen)) = gs ++ late := by
      rw [List.filter_cons_of_neg (by simpa using hneeds), hthen]
    rw [List.length_cons, Nat.succ_add, List.cons_append, levels_rounds_succ havailable hpending (by simp)]
    exact congrArg (_ :: ·) (ih hchain hlate.2)

/-- The generators of a chain are taken in their order. -/
theorem levels_rounds_of_chain {seen : VarSet} {gs : List Generator} (h : Chain seen gs) (n : Nat) :
    (rounds (gs.length + n) gs seen).levels = (place seen gs).1 := by
  have hlevels : (rounds (gs.length + n) (gs ++ []) seen).levels = _ := levels_rounds_chain h (by simp) n
  rwa [levels_rounds_nil, List.append_nil, List.append_nil] at hlevels

/-- A generator that needs nothing of a chain is taken together with the first one of the chain. -/
theorem levels_rounds_aside {seen : VarSet} {gs : List Generator} {k : Generator} (h : Chain seen gs) (hk : k.needs ⊆ seen)
    (hvar : ∀ g ∈ gs, g.var ≠ k.var) :
    (rounds (gs.length + 1) (gs ++ [k]) seen).levels = (place seen (gs.take 1 ++ k :: gs.drop 1)).1 := by
  cases gs with
  | nil =>
    have havailable : [k].filter (fun g => decide (g.needs ⊆ seen)) = [k] := by simp [hk]
    have hpending : [k].filter (fun g => !decide (g.needs ⊆ seen)) = [] := by simp [hk]
    rw [List.length_nil, Nat.zero_add, List.nil_append, levels_rounds_succ havailable hpending (by simp), levels_rounds_nil,
      List.append_nil]
    rfl
  | cons g gs =>
    rw [List.forall_mem_cons] at hvar
    obtain ⟨hneeds, hnew, hrest, hchain⟩ := h
    obtain ⟨hnow, hthen⟩ := filter_later hnew hrest
    have havailable : (g :: gs ++ [k]).filter (fun g => decide (g.needs ⊆ seen)) = [g, k] := by
      rw [List.filter_append, List.filter_cons_of_pos (by simpa using hneeds), hnow]
      simp [hk]
    have hpending : (g :: gs ++ [k]).filter (fun g => !decide (g.needs ⊆ seen)) = gs := by
      rw [List.filter_append, List.filter_cons_of_neg (by simpa using hneeds), hthen]
      simp [hk]
    have hchain' : Chain (place seen [g, k]).2 gs := hchain.insert hvar.2
    rw [List.length_cons, levels_rounds_succ havailable hpending (by simp), levels_rounds_of_chain hchain' 1]
    rfl

/-- The generators of a chain are taken in their order, whatever the order in which they are pending. -/
theorem levels_rounds_perm {seen : VarSet} {gs pending : List Generator} (h : Chain seen gs) (hperm : pending.Perm gs) :
    (rounds gs.length pending seen).levels = (place seen gs).1 := by
  induction gs generalizing seen pending with
  | nil => rw [List.perm_nil.1 hperm, levels_rounds_nil, place]
  | cons g gs ih =>
    obtain ⟨hneeds, hnew, hrest, hchain⟩ := h
    obtain ⟨hnow, hthen⟩ := filter_later hnew hrest
    have havailable : pending.filter (fun g => decide (g.needs ⊆ seen)) = [g] := by
      have hfilter := hperm.filter fun g => decide (g.needs ⊆ seen)
      rwa [List.filter_cons_of_pos (by simpa using hneeds), hnow, List.perm_singleton] at hfilter
    have hpending : (pending.filter fun g => !decide (g.needs ⊆ seen)).Perm gs := by
      have hfilter := hperm.filter fun g => !decide (g.needs ⊆ seen)
      rwa [List.filter_cons_of_neg (by simpa using hneeds), hthen] at hfilter
    rw [List.length_cons, levels_rounds_succ havailable rfl (by simp)]
    exact congrArg (_ :: ·) (ih hchain hpending)

/-- The levels of a plan for the variables of a chain. -/
theorem levels_ofGenerators_chain {generators gs : List Generator} {vars : VarSet}
    (hfilter : (generators.filter (fun g => decide (g.var ∈ vars))).Perm gs) (h : Chain ∅ gs) :
    (ofGenerators generators ∅ vars).levels = (place ∅ gs).1 := by
  rw [ofGenerators, hfilter.length_eq]
  exact levels_rounds_perm h hfilter

/-- Generators that need nothing are all taken in one round. -/
theorem levels_ofGenerators_free {generators gs : List Generator} {vars : VarSet}
    (hfilter : generators.filter (fun g => decide (g.var ∈ vars)) = gs) (h : ∀ g ∈ gs, g.needs = ∅) :
    (ofGenerators generators ∅ vars).levels = (place ∅ gs).1 := by
  have hneeds : ∀ g ∈ gs, g.needs ⊆ ∅ := fun g hg v hv => h g hg ▸ hv
  rw [ofGenerators, hfilter]
  cases gs with
  | nil => rfl
  | cons g gs =>
    have havailable : (g :: gs).filter (fun g => decide (g.needs ⊆ ∅)) = g :: gs :=
      List.filter_eq_self.2 fun h hh => decide_eq_true (hneeds h hh)
    have hpending : (g :: gs).filter (fun g => !decide (g.needs ⊆ ∅)) = [] :=
      List.filter_eq_nil_iff.2 fun h hh => by simpa using hneeds h hh
    rw [List.length_cons, levels_rounds_succ havailable hpending (List.cons_ne_nil g gs), levels_rounds_nil, List.append_nil]

/-- The levels of a plan for variables of a chain, with a generator aside that needs the first part of the chain. -/
theorem levels_ofGenerators_aside {generators xs ys : List Generator} {k : Generator} {vars : VarSet}
    (hfilter : generators.filter (fun g => decide (g.var ∈ vars)) = xs ++ (ys ++ [k])) (hx : Chain ∅ xs)
    (hy : Chain (place ∅ xs).2 ys) (hxy : ∀ g ∈ xs, ∀ h ∈ ys ++ [k], g.var ∈ h.needs) (hk : k.needs ⊆ (place ∅ xs).2)
    (hvar : ∀ g ∈ ys, g.var ≠ k.var) :
    (ofGenerators generators ∅ vars).levels = (place ∅ (xs ++ (ys.take 1 ++ k :: ys.drop 1))).1 := by
  rw [ofGenerators, hfilter, List.length_append, levels_rounds_chain hx hxy, List.length_append, List.length_singleton,
    levels_rounds_aside hy hk hvar, place_append ∅ xs]

end Plan

end StarQuery
