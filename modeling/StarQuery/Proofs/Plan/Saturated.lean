import StarQuery.Proofs.Plan.Levels

/-!
# Rounds that run until nothing more can be taken

As every round takes a generator, as many rounds as there are generators run until none of those that are left can be taken
(`Plan.rounds_induct`). What is bound then is the least set that has the variable of each generator of which it has the needs
(`Plan.saturated_rounds`, `Plan.bound_rounds_subset`), so it does not depend on the order of the generators, and those are left over
whose needs are not in it (`Plan.unsolved_rounds`).
-/

namespace StarQuery

/-- A set of variables that holds the variable of each generator of which it holds the needs. -/
def Generator.Saturated (gs : List Generator) (s : VarSet) : Prop := ∀ g ∈ gs, g.needs ⊆ s → g.var ∈ s

namespace Plan

open Generator

/-- The generators that can be taken where `seen` is bound. -/
def available (seen : VarSet) (pending : List Generator) : List Generator := pending.filter fun g => decide (g.needs ⊆ seen)

/-- The generators that cannot be taken where `seen` is bound. -/
def waiting (seen : VarSet) (pending : List Generator) : List Generator := pending.filter fun g => !decide (g.needs ⊆ seen)

/-- What can be taken are the pending generators whose needs are bound. -/
theorem mem_available {seen : VarSet} {pending : List Generator} {g : Generator} :
    g ∈ available seen pending ↔ g ∈ pending ∧ g.needs ⊆ seen := by
  rw [available, List.mem_filter, decide_eq_true_eq]

/-- What cannot be taken are the pending generators some need of which is not bound. -/
theorem mem_waiting {seen : VarSet} {pending : List Generator} {g : Generator} :
    g ∈ waiting seen pending ↔ g ∈ pending ∧ ¬ g.needs ⊆ seen := by
  rw [waiting, List.mem_filter, Bool.not_eq_true', decide_eq_false_iff_not]

/-- A round, or the end of all rounds. -/
theorem rounds_succ (n : Nat) (pending : List Generator) (seen : VarSet) :
    rounds (n + 1) pending seen =
      if available seen pending = [] then ⟨[], pending, seen⟩
      else
        { rounds n (waiting seen pending) (place seen (available seen pending)).2 with
          levels := (place seen (available seen pending)).1 ++
            (rounds n (waiting seen pending) (place seen (available seen pending)).2).levels } := by
  rw [rounds]
  simp only [List.partition_eq_filter_filter, List.isEmpty_iff]
  rfl

/-- A round that takes a generator leaves fewer. -/
theorem length_waiting_lt {seen : VarSet} {pending : List Generator} (h : available seen pending ≠ []) :
    (waiting seen pending).length < pending.length := by
  obtain ⟨g, hg⟩ := List.exists_mem_of_ne_nil _ h
  obtain ⟨hmem, hneeds⟩ := mem_available.1 hg
  exact List.length_filter_lt_length_iff_exists.2 ⟨g, hmem, by simpa using hneeds⟩

/-- Induction on rounds that are not cut short: they end where none of the pending generators can be taken. -/
theorem rounds_induct {motive : List Generator → VarSet → Plan → Prop}
    (stuck : ∀ pending seen, available seen pending = [] → motive pending seen ⟨[], pending, seen⟩)
    (round : ∀ pending seen plan, available seen pending ≠ [] →
      motive (waiting seen pending) (place seen (available seen pending)).2 plan →
      motive pending seen { plan with levels := (place seen (available seen pending)).1 ++ plan.levels })
    {n : Nat} {pending : List Generator} (seen : VarSet) (hlen : pending.length ≤ n) :
    motive pending seen (rounds n pending seen) := by
  induction n generalizing pending seen with
  | zero =>
    rw [List.length_eq_zero_iff.1 (Nat.le_zero.1 hlen)]
    exact stuck [] seen rfl
  | succ n ih =>
    rw [rounds_succ]
    split
    · rename_i hnone
      exact stuck pending seen hnone
    · rename_i hsome
      have hlt := length_waiting_lt hsome
      exact round pending seen _ hsome (ih _ (by omega))

variable {n : Nat} {pending : List Generator} {seen : VarSet}

/-- Every pending generator is put into a level or left over. -/
theorem perm_rounds (hlen : pending.length ≤ n) :
    ((rounds n pending seen).levels.map Level.generator ++ (rounds n pending seen).unsolved).Perm pending := by
  refine rounds_induct (motive := fun pending _ plan => (plan.levels.map Level.generator ++ plan.unsolved).Perm pending)
    (fun pending seen _ => .refl pending) (fun pending seen plan _ ih => ?_) seen hlen
  rw [List.map_append, generators_place, List.append_assoc]
  exact (ih.append_left _).trans (List.filter_append_perm _ pending)

/-- Rounds go on until all are done: to allow for more of them changes nothing. -/
theorem rounds_eq_of_length_le (hlen : pending.length ≤ n) {m : Nat} (hm : pending.length ≤ m) :
    rounds m pending seen = rounds n pending seen := by
  refine rounds_induct (motive := fun pending seen plan => ∀ m, pending.length ≤ m → rounds m pending seen = plan)
    (fun pending seen hnone m _ => ?_) (fun pending seen plan hsome ih m hm => ?_) seen hlen m hm
  · cases m with
    | zero => rfl
    | succ m => rw [rounds_succ, if_pos hnone]
  · have hlt := length_waiting_lt hsome
    obtain ⟨m, rfl⟩ := Nat.exists_eq_add_one_of_ne_zero (Nat.ne_of_gt (Nat.lt_of_lt_of_le (Nat.zero_lt_of_lt hlt) hm))
    rw [rounds_succ, if_neg hsome, ih m (by omega)]

/-- What is bound inside all levels was bound before or is bound by one of them. -/
theorem Chained.mem_bound {levels : List Level} {bound : VarSet} (h : Chained seen levels bound) {v : Var} :
    v ∈ bound ↔ v ∈ seen ∨ ∃ l ∈ levels, l.generator.var = v := by
  induction levels generalizing seen with
  | nil =>
    have hseen : seen = bound := h
    simp [hseen]
  | cons l levels ih =>
    rw [ih h.2, VarSet.mem_insert]
    simp only [List.mem_cons, exists_eq_or_imp, eq_comm (a := v)]
    rw [or_assoc, or_left_comm]

/-- What is left over are the pending generators that have not what they need inside all levels. -/
theorem unsolved_rounds (hlen : pending.length ≤ n) :
    (rounds n pending seen).unsolved = waiting (rounds n pending seen).bound pending := by
  have hround := rounds_induct
    (motive := fun pending seen plan => plan.unsolved = waiting plan.bound pending ∧ seen ⊆ plan.bound)
    (fun pending seen hnone => ⟨?_, fun _ hv => hv⟩) (fun pending seen plan _ ih => ?_) seen hlen
  · exact hround.1
  · refine (List.filter_eq_self.2 fun g hg => ?_).symm
    have hneeds : ¬ g.needs ⊆ seen := fun hneeds => List.not_mem_nil (hnone ▸ mem_available.2 ⟨hg, hneeds⟩)
    simpa using hneeds
  · obtain ⟨hunsolved, hsub⟩ := ih
    have hseen : seen ⊆ plan.bound := fun v hv => hsub v (mem_bound_place.2 (.inl hv))
    refine ⟨?_, hseen⟩
    rw [hunsolved, waiting, waiting, waiting, List.filter_filter]
    refine List.filter_congr fun g _ => ?_
    have himp : ¬ g.needs ⊆ plan.bound → ¬ g.needs ⊆ seen := fun h hneeds => h fun v hv => hseen v (hneeds v hv)
    rw [Bool.eq_iff_iff]
    simpa using himp

/-- Inside all levels, what is bound is saturated. -/
theorem saturated_rounds (hlen : pending.length ≤ n) : Saturated pending (rounds n pending seen).bound := by
  intro g hg hneeds
  rw [(chained_rounds n pending seen).mem_bound]
  have hperm : ((rounds n pending seen).levels.map Level.generator ++ (rounds n pending seen).unsolved).Perm pending :=
    perm_rounds hlen
  rcases List.mem_append.1 (hperm.mem_iff.2 hg) with hlevel | hleft
  · obtain ⟨l, hl, rfl⟩ := List.mem_map.1 hlevel
    exact .inr ⟨l, hl, rfl⟩
  · rw [unsolved_rounds hlen] at hleft
    exact absurd hneeds (mem_waiting.1 hleft).2

/-- No more is bound than any saturated set around holds. -/
theorem bound_rounds_subset {t : VarSet} (ht : Saturated pending t) (hseen : seen ⊆ t) : (rounds n pending seen).bound ⊆ t := by
  induction n generalizing pending seen with
  | zero => exact hseen
  | succ n ih =>
    rw [rounds_succ]
    split
    · exact hseen
    · refine ih (fun g hg => ht g (mem_waiting.1 hg).1) fun v hv => ?_
      rcases mem_bound_place.1 hv with hv | ⟨g, hg, rfl⟩
      · exact hseen v hv
      · obtain ⟨hmem, hneeds⟩ := mem_available.1 hg
        exact ht g hmem fun v hv => hseen v (hneeds v hv)

/-- What was bound before the rounds is bound after them. -/
theorem subset_bound_rounds (n : Nat) (pending : List Generator) (seen : VarSet) : seen ⊆ (rounds n pending seen).bound :=
  fun _ hv => (chained_rounds n pending seen).mem_bound.2 (.inl hv)

/-- What is bound inside all levels depends on which generators there are, not on their order. -/
theorem bound_rounds_congr {m : Nat} {pending' : List Generator} (hmem : ∀ g, g ∈ pending ↔ g ∈ pending')
    (hlen : pending.length ≤ n) (hlen' : pending'.length ≤ m) :
    (rounds n pending seen).bound = (rounds m pending' seen).bound := by
  have hsub : (rounds n pending seen).bound ⊆ (rounds m pending' seen).bound :=
    bound_rounds_subset (fun g hg => saturated_rounds hlen' g ((hmem g).1 hg)) (subset_bound_rounds m pending' seen)
  have hsub' : (rounds m pending' seen).bound ⊆ (rounds n pending seen).bound :=
    bound_rounds_subset (fun g hg => saturated_rounds hlen g ((hmem g).2 hg)) (subset_bound_rounds n pending seen)
  exact VarSet.ext fun v => ⟨hsub v, hsub' v⟩

end Plan

end StarQuery
