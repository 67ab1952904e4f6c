import StarQuery.Proofs.Machine.Loops
import StarQuery.Proofs.Plan.Saturated

/-!
# The bindings that levels enumerate

The levels of a plan build a binding up, each from what those before it have bound. In the end every level has accepted the
binding, and each binding that all levels accept is built up (`Level.mem_enumerate`). The bindings come in the order of the outermost
level, then of the next one, and so on (`Level.pairwise_enumerate`). If no source offers a choice twice, no binding comes twice
(`Level.nodup_enumerate`).
-/

namespace StarQuery

/-- A level sees what is bound outside and by the levels before it. -/
theorem Plan.Chained.mem_seen {seen bound : VarSet} {before after : List Level} {l : Level}
    (h : Chained seen (before ++ l :: after) bound) {v : Var} :
    v ∈ l.seen ↔ v ∈ seen ∨ v ∈ before.map fun y => y.generator.var := by
  induction before generalizing seen with
  | nil => simp [h.1]
  | cons y before ih =>
    rw [ih h.2, VarSet.mem_insert, List.map_cons, List.mem_cons, or_assoc]
    exact or_left_comm

namespace Level

variable (table : NameTable) (source : Level × Expr → Binding → Option Json)

/-- A level accepts a binding: the value of its variable is one that its source yields, if the level is the first one of its
variable, and leads into its source otherwise. -/
def Accepts (first : Bool) (x : Level × Expr) (c : Binding) : Prop :=
  ∃ collection value, source x c = some collection ∧ c x.1.generator.var = some value ∧
    if first then value ∈ Stmt.choices (table.isDeep x.1.generator.var) collection
    else Stmt.admits (table.isDeep x.1.generator.var) collection value = true

/-- An assignment to the variables of `vars` that all levels accept. The other variables have the values of `b`. -/
structure Satisfies (xs : List (Level × Expr)) (vars : VarSet) (b c : Binding) : Prop where
  accepted : ∀ before x after, xs = before ++ x :: after →
    Accepts table source (decide (¬ x.1.generator.var ∈ before.map fun y => y.1.generator.var)) x c
  outside : ∀ v, ¬ v ∈ vars → c v = b v

/-- The order of the levels: two bindings agree on the variables of some first levels, and the source of the next level yields the
value of the one before that of the other. -/
def Precedes (xs : List (Level × Expr)) (c c' : Binding) : Prop :=
  ∃ before x after collection value value', xs = before ++ x :: after ∧
    (∀ y ∈ before, c y.1.generator.var = c' y.1.generator.var) ∧
    source x c = some collection ∧ c x.1.generator.var = some value ∧ c' x.1.generator.var = some value' ∧
    [value, value'].Sublist (Stmt.choices (table.isDeep x.1.generator.var) collection)

/-- What sources are worth depends on the variables only that are bound where they stand. -/
def Local (xs : List (Level × Expr)) : Prop :=
  ∀ x ∈ xs, ∀ b c : Binding, (∀ v ∈ x.1.seen, b v = c v) → source x b = source x c

variable {table source}

/-! ## One level -/

/-- A level makes bindings with a value for its variable. -/
theorem mem_bindings {l : Level} {collection? : Option Json} {b c : Binding} :
    c ∈ l.bindings table collection? b ↔ ∃ collection value, collection? = some collection ∧ c = b.set l.generator.var value ∧
      if l.fresh then value ∈ Stmt.choices (table.isDeep l.generator.var) collection
      else b l.generator.var = some value ∧ Stmt.admits (table.isDeep l.generator.var) collection value = true := by
  unfold bindings
  cases collection? with
  | none => simp
  | some collection =>
    cases l.fresh with
    | true => simp [eq_comm, and_comm]
    | false =>
      cases hx : b l.generator.var with
      | none => simp [hx]
      | some x =>
        have hself : b.set l.generator.var x = b := by rw [Binding.set, ← hx, Function.update_eq_self]
        simp only [Bool.false_eq_true, if_false, Option.some.injEq, hx]
        constructor
        · intro hc
          split at hc
          · rename_i hadmits
            exact ⟨collection, x, rfl, (List.mem_singleton.1 hc).trans hself.symm, rfl, hadmits⟩
          · cases hc
        · rintro ⟨_, _, rfl, rfl, rfl, hadmits⟩
          rw [if_pos hadmits, hself]
          exact List.mem_cons_self

section
variable {x : Level × Expr} {xs : List (Level × Expr)} {seen bound : VarSet} {b c : Binding}

/-- After a level, a binding still has the values that were there, apart from that of the level's own new variable. -/
theorem eq_of_mem_bindings {l : Level} {collection? : Option Json} (h : c ∈ l.bindings table collection? b) {w : Var}
    (hw : w ∈ l.seen ∨ w ≠ l.generator.var) : c w = b w := by
  obtain ⟨collection, value, -, rfl, hvalue⟩ := mem_bindings.1 h
  by_cases hvar : w = l.generator.var
  · subst hvar
    have hold : l.fresh = false := by simpa [fresh] using hw
    rw [if_neg (by simp [hold])] at hvalue
    rw [Binding.set, Function.update_self, hvalue.1]
  · rw [Binding.set, Function.update_of_ne hvar]

/-- A level accepts what is built up from one of its bindings. -/
theorem accepts_of_mem_bindings {b' : Binding} (hb' : b' ∈ x.1.bindings table (source x b) b)
    (hsource : source x c = source x b) (hvar : c x.1.generator.var = b' x.1.generator.var) :
    Accepts table source x.1.fresh x c := by
  obtain ⟨collection, value, hcollection, rfl, hvalue⟩ := mem_bindings.1 hb'
  refine ⟨collection, value, hsource.trans hcollection, ?_, ?_⟩
  · rw [hvar, Binding.set, Function.update_self]
  · cases hfresh : x.1.fresh with
    | true => simpa [hfresh] using hvalue
    | false =>
      rw [hfresh, if_neg Bool.false_ne_true] at hvalue
      exact hvalue.2

/-! ## All levels -/

/-- Levels enumerate the bindings that they all accept. -/
theorem mem_enumerate_iff (hchain : Plan.Chained seen (xs.map Prod.fst) bound) (hlocal : Local source xs) :
    c ∈ enumerate table source xs b ↔
      (∀ w, w ∈ seen ∨ ¬ w ∈ bound → c w = b w) ∧ ∀ x ∈ xs, Accepts table source x.1.fresh x c := by
  induction xs generalizing seen b with
  | nil =>
    have hseen : seen = bound := hchain
    rw [enumerate, List.mem_singleton, hseen]
    constructor
    · rintro rfl
      exact ⟨fun _ _ => rfl, fun _ hx => absurd hx List.not_mem_nil⟩
    · exact fun h => funext fun w => h.1 w (Classical.em _)
  | cons x xs ih =>
    obtain ⟨hfirst, hrest⟩ := hchain
    have hseen : x.1.seen = seen := hfirst
    have hlocal' := List.forall_mem_cons.1 hlocal
    have hbound : ∀ w ∈ seen.insert x.1.generator.var, w ∈ bound := fun w hw => hrest.mem_bound.2 (.inl hw)
    have hvar : x.1.generator.var ∈ seen.insert x.1.generator.var := VarSet.mem_insert.2 (.inl rfl)
    rw [enumerate, List.mem_flatMap, List.forall_mem_cons]
    constructor
    · rintro ⟨b', hb', hc⟩
      obtain ⟨hagree, haccepts⟩ := (ih hrest hlocal'.2).1 hc
      have hkeeps : ∀ w, w ∈ seen ∨ ¬ w ∈ bound → c w = b w := by
        rintro w (hw | hw)
        · rw [hagree w (.inl (VarSet.mem_insert.2 (.inr hw))), eq_of_mem_bindings hb' (.inl (hseen ▸ hw))]
        · have hne : w ≠ x.1.generator.var := fun heq => hw (heq ▸ hbound _ hvar)
          rw [hagree w (.inr hw), eq_of_mem_bindings hb' (.inr hne)]
      have hsource : source x c = source x b := hlocal'.1 c b fun v hv => hkeeps v (.inl (hseen ▸ hv))
      exact ⟨hkeeps, accepts_of_mem_bindings hb' hsource (hagree _ (.inl hvar)), haccepts⟩
    · rintro ⟨hkeeps, ⟨collection, value, hcollection, hvalue, haccepts⟩, hothers⟩
      have hsource : source x c = source x b := hlocal'.1 c b fun v hv => hkeeps v (.inl (hseen ▸ hv))
      refine ⟨b.set x.1.generator.var value, mem_bindings.2 ⟨collection, value, hsource ▸ hcollection, rfl, ?_⟩,
        (ih hrest hlocal'.2).2 ⟨fun w hw => ?_, hothers⟩⟩
      · split
        · rename_i hfresh
          rwa [if_pos hfresh] at haccepts
        · rename_i hold
          rw [if_neg hold] at haccepts
          have hin : x.1.generator.var ∈ seen := by
            rw [← hseen]
            simpa [fresh] using hold
          exact ⟨by rw [← hkeeps _ (.inl hin), hvalue], haccepts⟩
      · by_cases heq : w = x.1.generator.var
        · rw [heq, hvalue, Binding.set, Function.update_self]
        · rw [Binding.set, Function.update_of_ne heq]
          exact hkeeps w (hw.imp_left fun hin => (VarSet.mem_insert.1 hin).resolve_left heq)

/-- A level binds its variable just if no level before it has the same one. -/
theorem fresh_eq {before after : List (Level × Expr)} (hchain : Plan.Chained ∅ ((before ++ x :: after).map Prod.fst) bound) :
    x.1.fresh = decide (¬ x.1.generator.var ∈ before.map fun y => y.1.generator.var) := by
  rw [List.map_append, List.map_cons] at hchain
  have hseen := hchain.mem_seen (v := x.1.generator.var)
  rw [List.map_map] at hseen
  have hiff : x.1.generator.var ∈ x.1.seen ↔ x.1.generator.var ∈ before.map fun y => y.1.generator.var :=
    hseen.trans (or_iff_right (VarSet.not_mem_empty _))
  simp only [fresh, decide_not, hiff]

/-- The levels of a plan enumerate the assignments that satisfy them. -/
theorem mem_enumerate (hchain : Plan.Chained ∅ (xs.map Prod.fst) bound) (hlocal : Local source xs) :
    c ∈ enumerate table source xs b ↔ Satisfies table source xs bound b c := by
  rw [mem_enumerate_iff hchain hlocal]
  constructor
  · rintro ⟨hkeeps, haccepts⟩
    refine ⟨?_, fun v hv => hkeeps v (.inr hv)⟩
    rintro before x after rfl
    rw [← fresh_eq hchain]
    exact haccepts x (List.mem_append_right _ List.mem_cons_self)
  · rintro ⟨haccepts, houtside⟩
    refine ⟨fun w hw => houtside w (hw.resolve_left (VarSet.not_mem_empty w)), fun x hx => ?_⟩
    obtain ⟨before, after, rfl⟩ := List.append_of_mem hx
    rw [fresh_eq hchain]
    exact haccepts before x after rfl

/-! ## Order -/

/-- Bindings that agree on the first level are in the order of the levels after it. -/
theorem Precedes.cons {c' : Binding} (h : Precedes table source xs c c') (hvar : c x.1.generator.var = c' x.1.generator.var) :
    Precedes table source (x :: xs) c c' := by
  obtain ⟨before, y, after, collection, value, value', rfl, hbefore, hrest⟩ := h
  exact ⟨x :: before, y, after, collection, value, value', rfl, List.forall_mem_cons.2 ⟨hvar, hbefore⟩, hrest⟩

/-- Levels enumerate bindings in the order of the levels. -/
theorem pairwise_enumerate (hchain : Plan.Chained seen (xs.map Prod.fst) bound) (hlocal : Local source xs) :
    (enumerate table source xs b).Pairwise (Precedes table source xs) := by
  induction xs generalizing seen b with
  | nil => exact List.pairwise_singleton _ b
  | cons x xs ih =>
    obtain ⟨hfirst, hrest⟩ := hchain
    have hseen : x.1.seen = seen := hfirst
    have hlocal' := List.forall_mem_cons.1 hlocal
    -- what is built up from a binding has its values on what is bound so far
    have hagree : ∀ {b' c : Binding}, c ∈ enumerate table source xs b' → ∀ w ∈ seen.insert x.1.generator.var, c w = b' w :=
      fun hc w hw => ((mem_enumerate_iff hrest hlocal'.2).1 hc).1 w (.inl hw)
    have hvar : x.1.generator.var ∈ seen.insert x.1.generator.var := VarSet.mem_insert.2 (.inl rfl)
    rw [enumerate, List.pairwise_flatMap]
    constructor
    · intro b' _
      refine (ih hrest hlocal'.2).imp_of_mem fun {c c'} hc hc' h => h.cons ?_
      rw [hagree hc _ hvar, hagree hc' _ hvar]
    · unfold bindings
      cases hfresh : x.1.fresh with
      | false =>
        simp only [Bool.false_eq_true, if_false]
        split
        · split
          · exact List.pairwise_singleton _ b
          · exact List.Pairwise.nil
        · exact List.Pairwise.nil
      | true =>
        simp only [if_true]
        cases hcollection : source x b with
        | none => exact List.Pairwise.nil
        | some collection =>
          rw [List.pairwise_map, List.pairwise_iff_forall_sublist]
          intro value value' hsub c hc c' hc'
          have hvalue : ∀ {y : Json} {c : Binding}, c ∈ enumerate table source xs (b.set x.1.generator.var y) →
              c x.1.generator.var = some y := by
            intro y c hc
            rw [hagree hc _ hvar, Binding.set, Function.update_self]
          have hsource : source x c = source x b := by
            refine hlocal'.1 c b fun w hw => ?_
            have hne : w ≠ x.1.generator.var := by
              rintro rfl
              simp [fresh, hw] at hfresh
            rw [hagree hc w (VarSet.mem_insert.2 (.inr (hseen ▸ hw))), Binding.set, Function.update_of_ne hne]
          exact ⟨[], x, xs, collection, value, value', rfl, fun _ hy => absurd hy List.not_mem_nil, hsource.trans hcollection,
            hvalue hc, hvalue hc', hsub⟩

/-- If no source offers a choice twice, no binding is enumerated twice. -/
theorem nodup_enumerate (hchain : Plan.Chained seen (xs.map Prod.fst) bound) (hlocal : Local source xs)
    (hnodup : ∀ c ∈ enumerate table source xs b, ∀ x ∈ xs, ∀ collection, source x c = some collection →
      (Stmt.choices (table.isDeep x.1.generator.var) collection).Nodup) :
    (enumerate table source xs b).Nodup := by
  refine (pairwise_enumerate hchain hlocal).imp_of_mem fun {c c'} hc _ h heq => ?_
  obtain ⟨before, x, after, collection, value, value', rfl, -, hcollection, hvalue, hvalue', hsub⟩ := h
  have hpair := (hnodup c hc x (List.mem_append_right _ List.mem_cons_self) collection hcollection).sublist hsub
  rw [← heq, hvalue, Option.some.injEq] at hvalue'
  simp [hvalue'] at hpair

end

end Level

end StarQuery
