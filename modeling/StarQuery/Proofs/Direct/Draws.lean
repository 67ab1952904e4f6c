import Mathlib.Data.List.Basic
import StarQuery.Proofs.Direct.Value
import StarQuery.Proofs.Node.Parts
import StarQuery.Proofs.Plan.Chain

/-!
# Bindings drawn from generators

Where every generator binds a variable of its own, the bindings of a plan are drawn from the generators one after the other
(`Direct.enumerate_place`). A node ignores a variable if its value does not depend on it; a generator that
offers one value at most, and that others ignore, may be drawn from earlier or later (`Direct.draws_aside`).
-/

namespace StarQuery

namespace Binding

/-- A variable has the value that it was given. -/
theorem set_self (b : Binding) (v : Var) (x : Json) : b.set v x v = some x := by
  unfold set
  exact Function.update_self v (some x) b

/-- Giving a variable a value leaves the others. -/
theorem set_of_ne {b : Binding} {v w : Var} (h : w ≠ v) (x : Json) : b.set v x w = b w := by
  unfold set
  exact Function.update_of_ne h (some x) b

/-- Two variables may be given their values in either order. -/
theorem set_comm {b : Binding} {v w : Var} (h : v ≠ w) (x y : Json) : (b.set v x).set w y = (b.set w y).set v x := by
  unfold set
  exact Function.update_comm h (some x) (some y) b

end Binding

namespace Direct

section
variable (given : Given) (value : Valuation)

/-- The values that a generator has for its variable under a binding. -/
def offers (g : Generator) (b : Binding) : List Json :=
  match value b g.source with
  | some collection => Stmt.choices (given.table.isDeep g.var) collection
  | none => []

/-- The bindings that generators make of a binding, one generator after the other. -/
def draws : List Generator → Binding → List Binding
  | [], b => [b]
  | g :: rest, b => (offers given value g b).flatMap fun x => draws rest (b.set g.var x)

/-- Generators in two lists are drawn from one list after the other. -/
theorem draws_append (xs ys : List Generator) (b : Binding) :
    draws given value (xs ++ ys) b = (draws given value xs b).flatMap (draws given value ys) := by
  induction xs generalizing b with
  | nil => exact (List.flatMap_singleton _ _).symm
  | cons g xs ih =>
    rw [List.cons_append, draws, draws, List.flatMap_assoc]
    exact List.flatMap_congr fun x _ => ih _

/-- Levels that bind a variable each make the bindings that are drawn from their generators. -/
theorem enumerate_place {seen : VarSet} {gs : List Generator} (hnodup : (gs.map Generator.var).Nodup)
    (hseen : ∀ g ∈ gs, ¬ g.var ∈ seen) (b : Binding) :
    enumerate given value (Plan.place seen gs).1 b = draws given value gs b := by
  induction gs generalizing seen b with
  | nil => rfl
  | cons g gs ih =>
    rw [List.forall_mem_cons] at hseen
    rw [List.map_cons, List.nodup_cons] at hnodup
    have hlater : ∀ h ∈ gs, ¬ h.var ∈ seen.insert g.var := by
      intro h hh hin
      rcases VarSet.mem_insert.1 hin with heq | hin
      · exact hnodup.1 (heq ▸ List.mem_map_of_mem hh)
      · exact hseen.2 h hh hin
    have hfresh : (⟨g, seen⟩ : Level).fresh = true := by simp [Level.fresh, hseen.1]
    rw [Plan.place, enumerate, draws, levelBindings, hfresh, if_pos rfl, offers]
    cases value b g.source with
    | none => rfl
    | some collection =>
      rw [List.flatMap_map]
      exact List.flatMap_congr fun x _ => ih hnodup.2 hlater _

end

/-! ## Values that do not change -/

/-- The value of a node does not depend on a variable. -/
def Ignores (value : Valuation) (v : Var) (n : Node) : Prop := ∀ b x, value (b.set v x) n = value b n

section
variable {given : Given} {value : Valuation}

/-- A generator offers the same whatever a variable is that its source ignores. -/
theorem offers_set {g : Generator} {v : Var} (h : Ignores value v g.source) (b : Binding) (x : Json) :
    offers given value g (b.set v x) = offers given value g b := by
  rw [offers, h b x, offers]

/-- A variable that generators neither bind nor need may be bound before or after they are drawn from. -/
theorem draws_set {gs : List Generator} {v : Var} (hvar : ∀ g ∈ gs, g.var ≠ v) (hsource : ∀ g ∈ gs, Ignores value v g.source)
    (b : Binding) (x : Json) : draws given value gs (b.set v x) = (draws given value gs b).map (·.set v x) := by
  induction gs generalizing b with
  | nil => rfl
  | cons g gs ih =>
    rw [List.forall_mem_cons] at hvar hsource
    rw [draws, draws, offers_set hsource.1, List.map_flatMap]
    refine List.flatMap_congr fun y _ => ?_
    rw [Binding.set_comm hvar.1.symm, ih hvar.2 hsource.2]

/-- A generator that offers one value at most, and neither needs others nor is needed by them, may be drawn from before them
instead of right after the first of them. -/
theorem draws_aside {gs : List Generator} {k : Generator} (hvar : ∀ g ∈ gs, g.var ≠ k.var)
    (hsource : ∀ g ∈ gs, Ignores value k.var g.source) (hk : ∀ g ∈ gs, Ignores value g.var k.source) {b : Binding}
    (hone : (offers given value k b).length ≤ 1) :
    draws given value (gs.take 1 ++ k :: gs.drop 1) b =
      (offers given value k b).flatMap fun x => (draws given value gs b).map (·.set k.var x) := by
  cases gs with
  | nil => rfl
  | cons g gs =>
    rw [List.forall_mem_cons] at hvar hsource hk
    have hdraws : ∀ x y, draws given value gs ((b.set g.var y).set k.var x) =
        (draws given value gs (b.set g.var y)).map (·.set k.var x) := fun x y => draws_set hvar.2 hsource.2 _ x
    simp only [List.take_succ_cons, List.take_zero, List.drop_succ_cons, List.drop_zero, List.cons_append, List.nil_append,
      draws, offers_set hk.1, hdraws]
    rcases hoffers : offers given value k b with _ | ⟨x, _ | ⟨y, rest⟩⟩
    · simp
    · simp [List.map_flatMap]
    · rw [hoffers] at hone
      simp at hone

/-! ## Nests -/

theorem nestBindings_empty (generators : List Generator) : nestBindings given value generators ∅ = [Binding.empty] :=
  if_pos rfl

/-- The nest for variables that need no others has the bindings that are drawn from the generators of its plan. -/
theorem nestBindings_closed {generators gs : List Generator} {vars : VarSet} (hne : vars ≠ ∅)
    (hclosure : Generator.closure generators vars = vars)
    (hlevels : (Plan.ofGenerators generators ∅ vars).levels = (Plan.place ∅ gs).1) (hnodup : (gs.map Generator.var).Nodup) :
    nestBindings given value generators vars = draws given value gs Binding.empty := by
  rw [nestBindings, if_neg hne, if_pos hclosure, planBindings, hclosure, hlevels,
    enumerate_place given value hnodup fun g _ => VarSet.not_mem_empty g.var]

/-- The nest for the variables of a chain has the bindings that are drawn from the chain. -/
theorem nestBindings_chain {generators gs : List Generator} {vars : VarSet}
    (hfilter : (generators.filter (fun g => decide (g.var ∈ vars))).Perm gs) (h : Generator.Chain ∅ gs)
    (hvars : (Plan.place ∅ gs).2 = vars) : nestBindings given value generators vars = draws given value gs Binding.empty := by
  by_cases hempty : vars = ∅
  · have hgs : gs = [] := List.eq_nil_iff_forall_not_mem.2 fun g hg => by
      have hin : g.var ∈ vars := hvars ▸ Plan.mem_bound_place.2 (.inr ⟨g, hg, rfl⟩)
      rw [hempty] at hin
      exact VarSet.not_mem_empty _ hin
    rw [hempty, nestBindings_empty, hgs, draws]
  · exact nestBindings_closed hempty (h.closure_eq hfilter hvars) (Plan.levels_ofGenerators_chain hfilter h) h.fresh.1

/-- The nest for variables whose generators need nothing has the bindings that are drawn from the generators in their order. -/
theorem nestBindings_free {generators gs : List Generator} {vars : VarSet}
    (hfilter : generators.filter (fun g => decide (g.var ∈ vars)) = gs) (h : ∀ g ∈ gs, g.needs = ∅)
    (hnodup : (gs.map Generator.var).Nodup) :
    nestBindings given value generators vars = draws given value gs Binding.empty := by
  by_cases hempty : vars = ∅
  · have hgs : gs = [] := by
      rw [← hfilter, hempty]
      exact List.filter_eq_nil_iff.2 fun g _ => by simp
    rw [hempty, nestBindings_empty, hgs, draws]
  · refine nestBindings_closed hempty (Generator.closure_eq_self fun g hg hvar v hv => ?_)
      (Plan.levels_ofGenerators_free hfilter h) hnodup
    rw [h g (hfilter ▸ List.mem_filter.2 ⟨hg, decide_eq_true hvar⟩)] at hv
    exact absurd hv (VarSet.not_mem_empty v)

theorem agrees_empty (b c : Binding) : b.agrees c ∅ = true := rfl

/-- A reduction folds the values of its argument, over the bindings of its nest that agree with the present one. -/
theorem aggregateWith_reduce {generators : List Generator} {b : Binding} {i : VarInfo}
    (h : ∃ c ∈ nestBindings given value generators i.free, c.agrees b i.free = true) (r : Reducer) (mode : Mode) (arg : Node) :
    aggregateWith given value generators b (.reduce i r mode arg) =
      r.fold (((nestBindings given value generators (i.free ∪ i.bound)).filter (·.agrees b i.free)).map (value · arg)) := by
  obtain ⟨c, hc, hagrees⟩ := h
  have hmem : c ∈ (nestBindings given value generators i.free).filter (·.agrees b i.free) := List.mem_filter.2 ⟨hc, hagrees⟩
  obtain ⟨d, ds, hstarts⟩ := List.exists_cons_of_ne_nil (List.ne_nil_of_mem hmem)
  have hstart : ((nestBindings given value generators i.free).filter (·.agrees b i.free)).findSome? (fun _ => r.start) =
      r.start := by
    rw [hstarts, List.findSome?_cons]
    cases r.start with
    | some x => rfl
    | none => simp
  rw [Reducer.fold, List.foldl_map, ← hstart]
  rfl

/-- A reduction that takes nothing from around it folds the values of its argument over all bindings of its nest. -/
theorem aggregateWith_closed {generators : List Generator} {i : VarInfo} (hfree : i.free = ∅) (r : Reducer) (mode : Mode)
    (arg : Node) (b : Binding) :
    aggregateWith given value generators b (.reduce i r mode arg) =
      r.fold ((nestBindings given value generators i.bound).map (value · arg)) := by
  have hstart : ∃ c ∈ nestBindings given value generators i.free, c.agrees b i.free = true := by
    rw [hfree, nestBindings_empty]
    exact ⟨_, List.mem_singleton_self _, agrees_empty _ _⟩
  rw [aggregateWith_reduce hstart, hfree, VarSet.empty_union, List.filter_eq_self.2 fun c _ => agrees_empty c b]

end

end Direct

end StarQuery
