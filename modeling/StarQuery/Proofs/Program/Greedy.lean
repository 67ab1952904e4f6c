import StarQuery.Proofs.Plan.Order
import StarQuery.Proofs.Program.Ends
import StarQuery.Proofs.Program.Nests

/-!
# Taking whatever can be taken

A plan takes in every round all generators that have what they need. Nothing is lost by that: what is taken early stays bound, so
the plan leaves nothing over if the generators can be put in order at all (`Plan.unsolved_eq_nil_iff`), and what it leaves over does
not depend on the order of the catalogue (`Plan.unsolved_perm`). So a nest turns every generator of its variables into one level or
one report (`level_nests_take_what_can_be_taken`).
-/

namespace StarQuery

namespace Generator

/-- The generators of the variables of a set. -/
def generating (gs : List Generator) (vars : VarSet) : List Generator := gs.filter fun g => decide (g.var ∈ vars)

end Generator

namespace Plan

open Generator

/-- The generators of a chain of levels are in order, if each level has what it needs. -/
theorem Chained.ordered {seen bound : VarSet} {levels : List Level} (h : Chained seen levels bound)
    (hneeds : ∀ l ∈ levels, l.generator.needs ⊆ l.seen) : Ordered seen (levels.map Level.generator) := by
  induction levels generalizing seen with
  | nil => trivial
  | cons l levels ih =>
    rw [List.forall_mem_cons] at hneeds
    exact ⟨h.1 ▸ hneeds.1, ih h.2 hneeds.2⟩

/-- In a chain, what a level sees is bound inside all of them. -/
theorem Chained.seen_subset {seen bound : VarSet} {levels : List Level} (h : Chained seen levels bound) {l : Level}
    (hl : l ∈ levels) : l.seen ⊆ bound := by
  induction levels generalizing seen with
  | nil => cases hl
  | cons x levels ih =>
    rcases List.mem_cons.1 hl with rfl | hl
    · exact fun v hv => h.2.mem_bound.2 (.inl (VarSet.mem_insert.2 (.inr (h.1 ▸ hv))))
    · exact ih h.2 hl

variable (gs : List Generator) (scope vars : VarSet)

/-- Every generator of the variables is put into a level or left over. -/
theorem perm_ofGenerators : ((ofGenerators gs scope vars).levels.map Level.generator ++ (ofGenerators gs scope vars).unsolved).Perm
    (generating gs vars) := perm_rounds (Nat.le_refl _)

/-- No generator is both put into a level and left over, not even if the catalogue has it twice. -/
theorem generator_not_mem_unsolved {l : Level} (hl : l ∈ (ofGenerators gs scope vars).levels) :
    l.generator ∉ (ofGenerators gs scope vars).unsolved := by
  intro hunsolved
  have hneeds : l.generator.needs ⊆ l.seen := needs_subset_rounds hl
  have hseen := (chained_ofGenerators gs scope vars).seen_subset hl
  have hleft : l.generator ∈ waiting (ofGenerators gs scope vars).bound (generating gs vars) :=
    unsolved_rounds (Nat.le_refl _) ▸ hunsolved
  exact (mem_waiting.1 hleft).2 fun v hv => hseen v (hneeds v hv)

/-- A plan leaves nothing over just if its generators can be put in order. -/
theorem unsolved_eq_nil_iff : (ofGenerators gs scope vars).unsolved = [] ↔
    ∃ order, order.Perm (generating gs vars) ∧ Ordered scope order := by
  constructor
  · intro hnone
    refine ⟨_, ?_, (chained_ofGenerators gs scope vars).ordered fun l hl => needs_subset_rounds hl⟩
    have hperm := perm_ofGenerators gs scope vars
    rwa [hnone, List.append_nil] at hperm
  · rintro ⟨order, hperm, hordered⟩
    exact rounds_solved hordered (fun g => hperm.mem_iff.symm) (Nat.le_refl _)

/-- What a plan leaves over does not depend on the order of the catalogue. -/
theorem unsolved_perm {gs gs' : List Generator} (h : gs'.Perm gs) :
    (ofGenerators gs' scope vars).unsolved.Perm (ofGenerators gs scope vars).unsolved := by
  have hpending : (generating gs' vars).Perm (generating gs vars) := h.filter _
  have hbound : (ofGenerators gs' scope vars).bound = (ofGenerators gs scope vars).bound :=
    bound_rounds_congr (fun g => hpending.mem_iff) (Nat.le_refl _) (Nat.le_refl _)
  have hleft : ∀ gs, (ofGenerators gs scope vars).unsolved = waiting (ofGenerators gs scope vars).bound (generating gs vars) :=
    fun gs => unsolved_rounds (Nat.le_refl _)
  rw [hleft, hleft, hbound]
  exact hpending.filter _

end Plan

namespace Program

open Generator

/-- Taking whatever can be taken loses nothing. Whatever the catalogue, the variables around and those wanted, a nest of levels is
generated if the sources and the body are, and further rounds would take no more. It holds one level or one report for each
generator of a wanted variable, never both, around its body. There is no report just if these generators can be put into an order
in which each has what it needs from the variables around and the generators before it. What is reported does not depend on the
order of the catalogue. -/
theorem level_nests_take_what_can_be_taken (s : Setting) (emit : Emitter) (scope vars : VarSet)
    (body : VarSet → EmissionM (List Stmt)) :
    let pending := generating s.generators vars
    let plan := Plan.ofGenerators s.generators scope vars
    ((∀ g ∈ pending, ∀ env, Ends (emit g.source env)) → (∀ env, Ends (body env)) → Ends (levelNest s emit scope vars body)) ∧
    (∀ n, pending.length ≤ n → Plan.rounds n pending scope = plan) ∧
    (∀ stmts, Gives (levelNest s emit scope vars body) stmts →
      ∃ xs inner, stmts = wrap s xs (plan.unsolved.map (unsolvedStmt s) ++ inner) ∧ Sourced emit plan.levels xs ∧
        Gives (body plan.bound) inner) ∧
    (plan.levels.map Level.generator ++ plan.unsolved).Perm pending ∧
    (∀ l ∈ plan.levels, l.generator ∉ plan.unsolved) ∧
    (plan.unsolved = [] ↔ ∃ order, order.Perm pending ∧ Ordered scope order) ∧
    ∀ gs, gs.Perm s.generators → (Plan.ofGenerators gs scope vars).unsolved.Perm plan.unsolved := by
  intro pending plan
  refine ⟨fun hsources hbody => ends_levelNest (fun l hl => hsources _ (Plan.mem_levels_rounds hl)) hbody,
    fun n hn => Plan.rounds_eq_of_length_le (Nat.le_refl _) hn, fun stmts h => ?_, Plan.perm_ofGenerators _ _ _,
    fun l => Plan.generator_not_mem_unsolved _ _ _, Plan.unsolved_eq_nil_iff _ _ _, fun gs => Plan.unsolved_perm _ _⟩
  obtain ⟨xs, inner, hxs, hinner, rfl⟩ := h.levelNest
  exact ⟨xs, inner, rfl, hxs, hinner⟩

/-- A variable that is drawn from the input and tested in itself, and two variables that are drawn from each other. -/
def braided : Setting where
  table := ⟨["*A", "*B", "*C"]⟩
  generators := [⟨1, .var { free := .single 2 } 2, "*C[*B]"⟩, ⟨0, .var { free := .single 0 } 0, "*A[*A]"⟩,
    ⟨2, .var { free := .single 1 } 1, "*B[*C]"⟩, ⟨0, .input {}, "input[*A]"⟩]
  listing := ""
  comments := false

/-- The nest takes both levels of the first variable, and reports the two that are drawn from each other. -/
theorem level_nests_take_what_can_be_taken_braided :
    let vars := VarSet.ofList [0, 1, 2]
    let plan := Plan.ofGenerators braided.generators ∅ vars
    Ends (levelNest braided (exprAt braided 0) ∅ vars fun _ => return []) ∧
    plan.levels.map (fun l => (l.generator.text, l.fresh)) = [("input[*A]", true), ("*A[*A]", false)] ∧
    plan.unsolved.map Generator.text = ["*C[*B]", "*B[*C]"] ∧
    (¬ ∃ order, order.Perm (generating braided.generators vars) ∧ Ordered ∅ order) ∧
    (Plan.ofGenerators braided.generators.reverse ∅ vars).unsolved.Perm plan.unsolved := by
  intro vars plan
  obtain ⟨hends, -, -, -, -, hnone, hperm⟩ :=
    level_nests_take_what_can_be_taken braided (exprAt braided 0) ∅ vars fun _ => return []
  have hsources : ∀ g ∈ braided.generators, readsOf g.source = [] := by simp [braided, readsOf]
  have hleft : plan.unsolved ≠ [] := by decide
  refine ⟨hends (fun g hg env => ?_) fun _ => .pure _, by decide, by decide, fun horder => hleft (hnone.2 horder),
    hperm _ (List.reverse_perm _)⟩
  refine ends_exprWith g.source (fun m hm => ?_) env
  rw [hsources g (List.mem_filter.1 hg).1] at hm
  cases hm

end Program

end StarQuery
