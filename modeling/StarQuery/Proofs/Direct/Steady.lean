import StarQuery.Proofs.Direct.Root
import StarQuery.Proofs.Json.Paths

/-!
# Steady generators

A generator is steady if it needs nothing and draws from the same collection under every binding. Two bindings of the variables of
steady generators that agree in the texts of their keys are the same (`Direct.SteadyIn.agreeing`), as the keys of one collection
differ in their texts. So an aggregate that takes such variables from around it, and loops over none, or only over a key that is
constant, has the value of its parts at the present binding (`Direct.aggregateWith_held`, `Direct.aggregateWith_entry`).
-/

namespace StarQuery

namespace Binding

/-- Bindings agree on variables if they give each of them values with the same key text. -/
theorem agrees_iff_forall {b c : Binding} {vars : VarSet} :
    b.agrees c vars = true ↔ ∀ v ∈ vars, ∃ x y, b v = some x ∧ c v = some y ∧ x.keyText = y.keyText := by
  rw [agrees, List.all_eq_true]
  refine forall₂_congr fun v _ => ?_
  cases b v <;> cases c v <;> simp

/-- Whether bindings agree does not depend on other variables. -/
theorem agrees_set {c : Binding} {v : Var} {vars : VarSet} (h : ¬ v ∈ vars) (x : Json) (b : Binding) :
    (c.set v x).agrees b vars = c.agrees b vars := by
  have hset : ∀ w ∈ vars, c.set v x w = c w := by
    intro w hw
    refine set_of_ne ?_ x
    rintro rfl
    exact h hw
  rw [Bool.eq_iff_iff, agrees_iff_forall, agrees_iff_forall]
  exact forall₂_congr fun w hw => by rw [hset w hw]

end Binding

namespace Direct

/-- A generator that needs nothing, of a variable for keys, with the same source under every binding. -/
structure Steady (given : Given) (g : Generator) : Prop where
  needs : g.needs = ∅
  shallow : given.table.isDeep g.var = false
  source : ∀ aggregate aggregate' b c, valueWith given aggregate b g.source = valueWith given aggregate' c g.source

/-- The keys that a steady generator offers. -/
def keysOf (given : Given) (g : Generator) : List Json :=
  ((valueWith given (fun _ _ => none) Binding.empty g.source).map Json.keys).getD []

/-- The generators of some variables are steady, and each of the variables has one. -/
structure SteadyIn (given : Given) (generators : List Generator) (vars : VarSet) : Prop where
  steady : ∀ g ∈ generators, g.var ∈ vars → Steady given g
  generated : ∀ v ∈ vars, ∃ g ∈ generators, g.var = v
  nodup : (generators.map Generator.var).Nodup

/-- A binding gives each of some variables a key that its generator offers. -/
def Fits (given : Given) (generators : List Generator) (vars : VarSet) (b : Binding) : Prop :=
  ∀ g ∈ generators, g.var ∈ vars → ∃ k ∈ keysOf given g, b g.var = some k

/-- The same holds of fewer variables. -/
theorem SteadyIn.mono {given : Given} {generators : List Generator} {s t : VarSet} (h : SteadyIn given generators t)
    (hst : s ⊆ t) : SteadyIn given generators s :=
  ⟨fun g hg hv => h.steady g hg (hst _ hv), fun v hv => h.generated v (hst v hv), h.nodup⟩

theorem Fits.mono {given : Given} {generators : List Generator} {s t : VarSet} {b : Binding} (h : Fits given generators t b)
    (hst : s ⊆ t) : Fits given generators s b := fun g hg hv => h g hg (hst _ hv)

section
variable {given : Given} {aggregate : Valuation} {gs : List Generator} {g : Generator}

/-- A steady generator offers its keys under every binding. -/
theorem Steady.offers_eq (h : Steady given g) (b : Binding) :
    offers given (valueWith given aggregate) g b = keysOf given g := by
  rw [offers, h.source aggregate (fun _ _ => none) b Binding.empty, h.shallow, keysOf]
  cases valueWith given (fun _ _ => none) Binding.empty g.source <;> rfl

/-- The source of a steady generator ignores every variable. -/
theorem Steady.ignores (h : Steady given g) (v : Var) : Ignores (valueWith given aggregate) v g.source := fun _ _ =>
  h.source _ _ _ _

/-- The keys that a generator offers differ in their texts, because they are keys of one collection. -/
theorem eq_of_mem_keysOf {k k' : Json} (hk : k ∈ keysOf given g) (hk' : k' ∈ keysOf given g) (h : k.keyText = k'.keyText) :
    k = k' := by
  unfold keysOf at hk hk'
  cases hsource : valueWith given (fun _ _ => none) Binding.empty g.source with
  | none =>
    rw [hsource] at hk
    cases hk
  | some c =>
    rw [hsource] at hk hk'
    exact Json.eq_of_keyText_eq hk hk' h

/-! ## Drawing from steady generators -/

/-- Drawing leaves the other variables as they are. -/
theorem eq_of_mem_draws {value : Valuation} {b c : Binding} (hc : c ∈ draws given value gs b) {v : Var}
    (hv : ∀ g ∈ gs, g.var ≠ v) : c v = b v := by
  induction gs generalizing b with
  | nil => rw [List.mem_singleton.1 hc]
  | cons g gs ih =>
    rw [List.forall_mem_cons] at hv
    obtain ⟨x, -, hc⟩ := List.mem_flatMap.1 hc
    rw [ih hc hv.2, Binding.set_of_ne hv.1.symm]

/-- What is drawn is a key that the generator offers. -/
theorem exists_key_of_mem_draws (hsteady : ∀ g ∈ gs, Steady given g) (hnodup : (gs.map Generator.var).Nodup) {b c : Binding}
    (hc : c ∈ draws given (valueWith given aggregate) gs b) (hg : g ∈ gs) : ∃ k ∈ keysOf given g, c g.var = some k := by
  induction gs generalizing b with
  | nil => cases hg
  | cons first gs ih =>
    rw [List.forall_mem_cons] at hsteady
    rw [List.map_cons, List.nodup_cons] at hnodup
    obtain ⟨x, hx, hc⟩ := List.mem_flatMap.1 hc
    rcases List.mem_cons.1 hg with rfl | hg
    · have hother : ∀ h ∈ gs, h.var ≠ g.var := fun h hh heq => hnodup.1 (heq ▸ List.mem_map_of_mem hh)
      refine ⟨x, hsteady.1.offers_eq b ▸ hx, ?_⟩
      rw [eq_of_mem_draws hc hother, Binding.set_self]
    · exact ih hsteady.2 hnodup.2 hc hg

/-- Any choice of keys is drawn. -/
theorem exists_mem_draws (hsteady : ∀ g ∈ gs, Steady given g) (hnodup : (gs.map Generator.var).Nodup) {c : Binding}
    (hc : ∀ g ∈ gs, ∃ k ∈ keysOf given g, c g.var = some k) (b : Binding) :
    ∃ d ∈ draws given (valueWith given aggregate) gs b, ∀ g ∈ gs, d g.var = c g.var := by
  induction gs generalizing b with
  | nil => exact ⟨b, List.mem_singleton_self b, fun g hg => absurd hg List.not_mem_nil⟩
  | cons first gs ih =>
    rw [List.forall_mem_cons] at hsteady hc
    rw [List.map_cons, List.nodup_cons] at hnodup
    obtain ⟨k, hk, hfirst⟩ := hc.1
    obtain ⟨d, hd, heq⟩ := ih hsteady.2 hnodup.2 hc.2 (b.set first.var k)
    have hother : ∀ h ∈ gs, h.var ≠ first.var := fun h hh heq => hnodup.1 (heq ▸ List.mem_map_of_mem hh)
    refine ⟨d, List.mem_flatMap.2 ⟨k, (hsteady.1.offers_eq b).symm ▸ hk, hd⟩, List.forall_mem_cons.2 ⟨?_, heq⟩⟩
    rw [eq_of_mem_draws hd hother, Binding.set_self, hfirst]

/-- A generator that offers one key binds its variable to that key, whenever it is drawn from. -/
theorem draws_constant {xs ys : List Generator} (hsteady : ∀ h ∈ ys, Steady given h) (hvar : ∀ h ∈ ys, h.var ≠ g.var)
    (hg : Steady given g) {k : Json} (hkeys : keysOf given g = [k]) (b : Binding) :
    draws given (valueWith given aggregate) (xs ++ g :: ys) b =
      (draws given (valueWith given aggregate) (xs ++ ys) b).map (·.set g.var k) := by
  have hrest : ∀ c, draws given (valueWith given aggregate) (g :: ys) c =
      (draws given (valueWith given aggregate) ys c).map (·.set g.var k) := by
    intro c
    rw [draws, hg.offers_eq, hkeys, List.flatMap_singleton, draws_set hvar fun h hh => (hsteady h hh).ignores g.var]
  rw [draws_append, draws_append, List.map_flatMap]
  exact List.flatMap_congr fun c _ => hrest c

end

/-! ## Nests of steady generators -/

namespace SteadyIn

variable {given : Given} {aggregate : Valuation} {generators : List Generator} {vars : VarSet}
  (h : SteadyIn given generators vars)

include h

/-- The generators of the variables are steady. -/
theorem steady_of_mem_filter : ∀ g ∈ generators.filter (fun g => decide (g.var ∈ vars)), Steady given g := by
  intro g hg
  obtain ⟨hmem, hvar⟩ := List.mem_filter.1 hg
  exact h.steady g hmem (of_decide_eq_true hvar)

/-- The generators of the variables have variables of their own. -/
theorem nodup_filter : ((generators.filter (fun g => decide (g.var ∈ vars))).map Generator.var).Nodup :=
  h.nodup.sublist (List.filter_sublist.map _)

/-- As steady generators need nothing, the nest draws from them in the order of the catalogue. -/
theorem nestBindings_eq : nestBindings given (valueWith given aggregate) generators vars =
    draws given (valueWith given aggregate) (generators.filter (fun g => decide (g.var ∈ vars))) Binding.empty :=
  nestBindings_free rfl (fun g hg => (h.steady_of_mem_filter g hg).needs) h.nodup_filter

/-- The bindings of the nest fit. -/
theorem fits_of_mem {c : Binding} (hc : c ∈ nestBindings given (valueWith given aggregate) generators vars) :
    Fits given generators vars c := by
  intro g hg hvar
  rw [h.nestBindings_eq] at hc
  exact exists_key_of_mem_draws h.steady_of_mem_filter h.nodup_filter hc (List.mem_filter.2 ⟨hg, decide_eq_true hvar⟩)

/-- The generators of some variables and one more are those of the variables, with one more among them. -/
theorem exists_filter_insert {g : Generator} (hmem : g ∈ generators) (hfresh : ¬ g.var ∈ vars) :
    ∃ xs ys, generators.filter (fun g' => decide (g'.var ∈ vars ∪ .single g.var)) = xs ++ g :: ys ∧
      generators.filter (fun g' => decide (g'.var ∈ vars)) = xs ++ ys ∧ ∀ g' ∈ ys, g'.var ≠ g.var := by
  have hnodup := h.nodup
  obtain ⟨before, after, rfl⟩ := List.append_of_mem hmem
  have hother : ∀ g' ∈ before ++ after, g'.var ≠ g.var := by
    intro g' hg' heq
    rw [List.map_append, List.map_cons] at hnodup
    refine (List.nodup_cons.1 (List.nodup_middle.1 hnodup)).1 ?_
    rw [← List.map_append, ← heq]
    exact List.mem_map_of_mem hg'
  have hsame : ∀ gs, gs ⊆ before ++ after → gs.filter (fun g' => decide (g'.var ∈ vars ∪ .single g.var)) =
      gs.filter fun g' => decide (g'.var ∈ vars) := by
    intro gs hgs
    refine List.filter_congr fun g' hg' => decide_eq_decide.2 ?_
    rw [VarSet.mem_union, VarSet.mem_single]
    exact or_iff_left (hother g' (hgs hg'))
  refine ⟨before.filter fun g' => decide (g'.var ∈ vars), after.filter fun g' => decide (g'.var ∈ vars), ?_, ?_, ?_⟩
  · rw [List.filter_append, List.filter_cons_of_pos (by simp), hsame before (List.subset_append_left _ _),
      hsame after (List.subset_append_right _ _)]
  · rw [List.filter_append, List.filter_cons_of_neg (by simpa using hfresh)]
  · intro g' hg'
    exact hother g' (List.mem_append_right before (List.mem_filter.1 hg').1)

/-- The generator of one more variable, if it is steady and offers one key, binds the variable to that key. -/
theorem nestBindings_constant {g : Generator} (hmem : g ∈ generators) (hg : Steady given g) (hfresh : ¬ g.var ∈ vars) {k : Json}
    (hkeys : keysOf given g = [k]) :
    nestBindings given (valueWith given aggregate) generators (vars ∪ .single g.var) =
      (nestBindings given (valueWith given aggregate) generators vars).map (·.set g.var k) := by
  have hunion : SteadyIn given generators (vars ∪ .single g.var) := by
    refine ⟨fun g' hg' hvar => ?_, fun v hv => ?_, h.nodup⟩
    · rcases VarSet.mem_union.1 hvar with hvar | hvar
      · exact h.steady g' hg' hvar
      · exact List.inj_on_of_nodup_map h.nodup hg' hmem (VarSet.mem_single.1 hvar) ▸ hg
    · rcases VarSet.mem_union.1 hv with hv | hv
      · exact h.generated v hv
      · exact ⟨g, hmem, (VarSet.mem_single.1 hv).symm⟩
  obtain ⟨xs, ys, hinsert, hfilter, hother⟩ := h.exists_filter_insert hmem hfresh
  have hsteady := h.steady_of_mem_filter
  rw [hfilter] at hsteady
  rw [hunion.nestBindings_eq, h.nestBindings_eq, hinsert, hfilter]
  exact draws_constant (fun g' hg' => hsteady g' (List.mem_append_right xs hg')) hother hg hkeys _

/-- A further variable with one key is bound to the key in each of the bindings that agree. -/
theorem agreeing_constant {g : Generator} (hmem : g ∈ generators) (hg : Steady given g) (hfresh : ¬ g.var ∈ vars) {k : Json}
    (hkeys : keysOf given g = [k]) (b : Binding) :
    (nestBindings given (valueWith given aggregate) generators (vars ∪ .single g.var)).filter (·.agrees b vars) =
      ((nestBindings given (valueWith given aggregate) generators vars).filter (·.agrees b vars)).map (·.set g.var k) := by
  rw [h.nestBindings_constant hmem hg hfresh hkeys, List.filter_map]
  refine congrArg _ (List.filter_congr fun c _ => ?_)
  rw [Function.comp_apply, Binding.agrees_set hfresh]

variable {b : Binding} (hb : Fits given generators vars b)

include hb

/-- A binding that fits is the only one, on the variables, that agrees with it. -/
theorem eq_of_agrees {c : Binding} (hc : c ∈ nestBindings given (valueWith given aggregate) generators vars)
    (hagrees : c.agrees b vars = true) : ∀ v ∈ vars, c v = b v := by
  intro v hv
  obtain ⟨g, hg, rfl⟩ := h.generated v hv
  obtain ⟨k, hk, hck⟩ := h.fits_of_mem hc g hg hv
  obtain ⟨k', hk', hbk⟩ := hb g hg hv
  obtain ⟨x, y, hx, hy, htext⟩ := Binding.agrees_iff_forall.1 hagrees g.var hv
  have hxk : x = k := Option.some.inj (hx.symm.trans hck)
  have hyk : y = k' := Option.some.inj (hy.symm.trans hbk)
  subst hxk hyk
  rw [hx, hy, eq_of_mem_keysOf hk hk' htext]

/-- A binding that fits agrees with one of the nest. -/
theorem agreeing_ne_nil : (nestBindings given (valueWith given aggregate) generators vars).filter (·.agrees b vars) ≠ [] := by
  have hfits : ∀ g ∈ generators.filter (fun g => decide (g.var ∈ vars)), ∃ k ∈ keysOf given g, b g.var = some k := by
    intro g hg
    obtain ⟨hmem, hvar⟩ := List.mem_filter.1 hg
    exact hb g hmem (of_decide_eq_true hvar)
  obtain ⟨c, hc, heq⟩ := @exists_mem_draws given aggregate _ h.steady_of_mem_filter h.nodup_filter b hfits Binding.empty
  rw [h.nestBindings_eq]
  refine List.ne_nil_of_mem (List.mem_filter.2 ⟨hc, Binding.agrees_iff_forall.2 fun v hv => ?_⟩)
  obtain ⟨g, hg, rfl⟩ := h.generated v hv
  obtain ⟨k, -, hk⟩ := hb g hg hv
  refine ⟨k, k, ?_, hk, rfl⟩
  rw [heq g (List.mem_filter.2 ⟨hg, decide_eq_true hv⟩), hk]

end SteadyIn

/-! ## Aggregates over steady generators -/

/-- The value of a node depends on some variables only. -/
def DependsOn (value : Valuation) (vars : VarSet) (n : Node) : Prop :=
  ∀ b c : Binding, (∀ v ∈ vars, c v = b v) → value c n = value b n

theorem DependsOn.mono {value : Valuation} {s t : VarSet} {n : Node} (h : DependsOn value s n) (hst : s ⊆ t) :
    DependsOn value t n := fun b c heq => h b c fun v hv => heq v (hst v hv)

/-- The value of an aggregate depends on the variables that it takes from around it only. -/
theorem dependsOn_of_gathers (given : Given) (generators : List Generator) (depth : Nat) {n : Node} (hn : n.gathers = true) :
    DependsOn (value given generators depth) n.info.free n := by
  intro b c hc
  have hagrees : ∀ d : Binding, d.agrees c n.info.free = d.agrees b n.info.free := by
    intro d
    rw [Bool.eq_iff_iff, Binding.agrees_iff_forall, Binding.agrees_iff_forall]
    exact forall₂_congr fun v hv => by rw [hc v hv]
  have hvalue : ∀ d : Binding, value given generators depth d n = aggregate given generators depth d n := by
    cases n <;> first | exact fun _ => rfl | cases hn
  rw [hvalue, hvalue]
  cases depth with
  | zero => rfl
  | succ depth =>
    rw [aggregate, aggregateWith, aggregateWith]
    simp only [hagrees]

/-- The first defined one of states that are all the same. -/
theorem findSome?_same {α β : Type} {f : α → Option β} {xs : List α} {u : Option β} (hne : xs ≠ []) (h : ∀ x ∈ xs, f x = u) :
    xs.findSome? f = u := by
  induction xs with
  | nil => exact absurd rfl hne
  | cons x xs ih =>
    rw [List.forall_mem_cons] at h
    rw [List.findSome?_cons, h.1]
    cases u with
    | some y => rfl
    | none => exact List.findSome?_eq_none_iff.2 h.2

/-- Doing again and again what has been done already. -/
theorem foldl_idempotent {α β : Type} {f : β → β} (hf : ∀ s, f (f s) = f s) {xs : List α} (hne : xs ≠ []) (s : β) :
    xs.foldl (fun s _ => f s) s = f s := by
  obtain ⟨x, xs, rfl⟩ := List.exists_cons_of_ne_nil hne
  have hrest : ∀ ys : List α, ys.foldl (fun s _ => f s) (f s) = f s := by
    intro ys
    induction ys with
    | nil => rfl
    | cons y ys ih => rw [List.foldl_cons, hf, ih]
  exact hrest xs

/-- Putting a value where it is changes nothing. -/
theorem setAt_setAt (name : String) (x s : Json) : Json.setAt [name] x (Json.setAt [name] x s) = Json.setAt [name] x s := by
  cases s with
  | obj fields =>
    have hget : Fields.get? (Fields.alter fields name fun _ => some x) name = some x := by
      rw [Fields.get?_alter (fun _ => rfl), if_pos rfl]
    exact congrArg Json.obj (Fields.alter_eq_self hget rfl)
  | _ => rfl

section
variable {given : Given} {aggregate : Valuation} {generators : List Generator} {i : VarInfo} {b : Binding}
variable (h : SteadyIn given generators i.free) (hb : Fits given generators i.free b)

include h hb

/-- What depends on the free variables of an aggregate has one value at all bindings that the aggregate looks at. -/
theorem value_of_agrees {n : Node} (hn : DependsOn (valueWith given aggregate) i.free n) :
    ∀ c ∈ (nestBindings given (valueWith given aggregate) generators i.free).filter (·.agrees b i.free),
      valueWith given aggregate c n = valueWith given aggregate b n := by
  intro c hc
  obtain ⟨hmem, hagrees⟩ := List.mem_filter.1 hc
  exact hn b c (h.eq_of_agrees hb hmem hagrees)

/-- A choice of one value that loops over nothing has the value that it finds. -/
theorem aggregateWith_held {arg : Node} (hbound : i.bound = ∅) (harg : DependsOn (valueWith given aggregate) i.free arg)
    (mode : Mode) :
    aggregateWith given (valueWith given aggregate) generators b (.reduce i ⟨.single, false⟩ mode arg) =
      valueWith given aggregate b arg := by
  have hne : (nestBindings given (valueWith given aggregate) generators i.free).filter (·.agrees b i.free) ≠ [] :=
    h.agreeing_ne_nil hb
  have hchange : ∀ state, ∀ c ∈ (nestBindings given (valueWith given aggregate) generators i.free).filter (·.agrees b i.free),
      (change? given (valueWith given aggregate) c (.reduce i ⟨.single, false⟩ mode arg)).elim state (· state) =
        (valueWith given aggregate b arg).or state := by
    intro state c hc
    rw [change?, value_of_agrees h hb harg c hc]
    cases state <;> cases valueWith given aggregate b arg <;> rfl
  have hfree : i.free ∪ i.bound = i.free := VarSet.ext fun v => by simp [hbound]
  have hstart : ∀ c, firstState (valueWith given aggregate) c (.reduce i ⟨.single, false⟩ mode arg) = none := fun _ => rfl
  have hagain : ∀ state, (valueWith given aggregate b arg).or ((valueWith given aggregate b arg).or state) =
      (valueWith given aggregate b arg).or state := by
    intro state
    rw [← Option.or_assoc, Option.or_self]
  rw [aggregateWith, Node.info_reduce, hfree, findSome?_same hne fun c _ => hstart c, List.foldl_ext _ _ _ hchange,
    foldl_idempotent hagain hne, Option.or_none]

/-- An entry under a key that is constant puts the value of the entry there, if it is defined. -/
theorem aggregateWith_entry {base x : Node} {g : Generator} {name : String} (hmem : g ∈ generators) (hg : Steady given g)
    (hkeys : keysOf given g = [.str name]) (hfresh : ¬ g.var ∈ i.free) (hbound : i.bound = .single g.var)
    (hbase : DependsOn (valueWith given aggregate) i.free base) (hx : DependsOn (valueWith given aggregate) i.free x)
    (filter : Option Node) :
    aggregateWith given (valueWith given aggregate) generators b (.update i base (.keyVar g.var) x filter) =
      (valueWith given aggregate b x).elim (valueWith given aggregate b base) fun y =>
        some (Json.setAt [name] y ((valueWith given aggregate b base).getD Json.empty)) := by
  have hne : (nestBindings given (valueWith given aggregate) generators i.free).filter (·.agrees b i.free) ≠ [] :=
    h.agreeing_ne_nil hb
  have hchange : ∀ state, ∀ c ∈ (nestBindings given (valueWith given aggregate) generators i.free).filter (·.agrees b i.free),
      (change? given (valueWith given aggregate) (c.set g.var (.str name)) (.update i base (.keyVar g.var) x filter)).elim state
          (· state) =
        (valueWith given aggregate b x).elim state fun y => some (Json.setAt [name] y (state.getD Json.empty)) := by
    intro state c hc
    have htarget : target? given (valueWith given aggregate) (c.set g.var (.str name)) ([g.var].map Node.keyVar) =
        some ([Json.str name].map Json.keyText) :=
      target?_keyVars (List.forall_mem_singleton.2 hg.shallow) (congrArg (fun x => [x]) (Binding.set_self c g.var _))
    have hkey : Program.keyNodes (.keyVar g.var) = [g.var].map Node.keyVar := rfl
    have hvalue : valueWith given aggregate (c.set g.var (.str name)) x = valueWith given aggregate b x := by
      rw [← value_of_agrees h hb hx c hc]
      refine hx c _ fun v hv => Binding.set_of_ne ?_ _
      rintro rfl
      exact hfresh hv
    rw [change?, hkey, htarget, hvalue]
    cases valueWith given aggregate b x <;> rfl
  rw [aggregateWith, Node.info_update, hbound, h.agreeing_constant hmem hg hfresh hkeys, List.foldl_map,
    findSome?_same (f := fun c => firstState (valueWith given aggregate) c (.update i base (.keyVar g.var) x filter)) hne
      (value_of_agrees h hb hbase), List.foldl_ext _ _ _ hchange]
  -- the entry is made once for each binding that agrees, and every time after the first changes nothing
  cases valueWith given aggregate b x with
  | none => exact foldl_idempotent (f := id) (fun _ => rfl) hne _
  | some y =>
    refine foldl_idempotent (f := fun state => some (Json.setAt [name] y (state.getD Json.empty))) (fun state => ?_) hne _
    exact congrArg some (setAt_setAt name y (state.getD Json.empty))

end

end Direct

end StarQuery
