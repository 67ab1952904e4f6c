import StarQuery.Proofs.Path.Grouping

/-!
# Groupings of what does not depend on the key

Where the path of a grouped reduction shares no star with the path of the key, nothing that the reduction ranges over depends on
what the key ranges over. So the reduction takes no variable from around it, its slot is kept without keys, and every key has the
same value: what the reduction gives on its own.
-/

namespace StarQuery

namespace StarPath

variable {N : Naming}

/-- Paths share no star if none that begins the one and ends in a star begins the other. -/
theorem not_mem_stops_of_prefixes {p q : StarPath} (h : ∀ b ∈ p.prefixes, b.endsInStar = true → ¬ b ∈ q.prefixes) :
    ∀ b ∈ q.stops, ¬ b ∈ p.stops := by
  intro b hq hp
  exact h _ (mem_stops.1 hp) rfl (mem_stops.1 hq)

end StarPath

/-! ## What the reduction takes from around it -/

namespace Derivation

variable {q : Query} {D : Derivation q} {r : Reducer} {key value : StarPath}
  (hterm : D.term = .group key.term (.reduce r value.term))

include hterm

/-- The stars of a path depend on stars of the path only. -/
theorem ofSet_stars_subset : D.dependencies.ofSet (value.stars D.naming) ⊆ value.stars D.naming := by
  obtain ⟨hroot, -⟩ := root_grouping hterm
  refine D.ofSet_stars_subset_of_mem (names_grouping hterm) ?_
  rw [hroot]
  refine Node.mem_postorder_of_mem_children Node.value_mem_children ?_
  exact Node.mem_postorder_of_mem_children List.mem_cons_self (Node.self_mem_postorder _)

/-- The key depends on itself and the stars of its path only. -/
theorem of_keyVar_subset : D.dependencies.of (key.keyVar D.naming) ⊆ VarSet.single (key.keyVar D.naming) ∪ key.stars D.naming := by
  have hvars : ∀ v, v ∈ (Node.measuredFilter (key.node D.naming .spanning) (key.keyVar D.naming)).info.vars ↔
      v ∈ VarSet.single (key.keyVar D.naming) ∪ key.stars D.naming := by
    intro v
    rw [Node.mem_vars_measuredFilter, StarPath.info_node, VarSet.mem_union, VarSet.mem_single, or_comm]
    rfl
  intro v hv
  rw [← hvars]
  refine D.dependent (names_grouping hterm) _ (filter_mem_root_grouping hterm) key.drawn_node.keySet.draw (key.keyVar D.naming) ?_ v hv
  exact (hvars _).2 (VarSet.mem_union.2 (.inl (VarSet.mem_single.2 rfl)))

variable (hstops : ∀ p ∈ key.stops, ¬ p ∈ value.stops)

include hstops

/-- Where the paths share no star, a variable of the value is neither the key nor a star of the key path. -/
theorem not_mem_stars_of_stops {v : Var} (hv : v ∈ value.stars D.naming) :
    ¬ v ∈ VarSet.single (key.keyVar D.naming) ∪ key.stars D.naming := by
  obtain ⟨-, hkey, hvalue⟩ := root_grouping hterm
  intro hin
  rcases VarSet.mem_union.1 hin with hin | hin
  · exact hkey.not_mem_stars hvalue (VarSet.mem_single.1 hin ▸ hv)
  · obtain ⟨p, hp, rfl⟩ := StarPath.mem_stars.1 hv
    obtain ⟨p', hp', heq⟩ := StarPath.mem_stars.1 hin
    rw [← StarPath.starVar_inj (hkey.path p' hp') (hvalue p hp) heq] at hp
    exact hstops p' hp' hp

/-- A reduction that shares no star with the key takes nothing from around it. -/
theorem needed_eq_empty : Node.needed D.dependencies (value.stars D.naming) (value.stars D.naming)
    (.single (key.keyVar D.naming))
    [⟨.single (key.keyVar D.naming), D.dependencies.ofSet (.single (key.keyVar D.naming))⟩] = ∅ := by
  have hkey : ∀ v ∈ value.stars D.naming, ¬ v ∈ VarSet.single (key.keyVar D.naming) := fun v hv hin =>
    not_mem_stars_of_stops hterm hstops hv (VarSet.mem_union.2 (.inl hin))
  refine Node.needed_eq_empty_of_disjoint (fun v hv => hkey v (ofSet_stars_subset hterm v hv)) hkey
    (List.forall_mem_singleton.2 fun v hv hvalue => ?_)
  obtain ⟨u, hu, hv⟩ := VarSet.mem_unions_map.1 hv
  rw [VarSet.mem_toList, VarSet.mem_single] at hu
  subst hu
  exact not_mem_stars_of_stops hterm hstops (ofSet_stars_subset hterm v hvalue) (of_keyVar_subset hterm v hv)

/-- The generators of a grouping whose paths share no star: those of the value, those of the key path, and the key. -/
theorem generators_decorrelated (options : Options) :
    (D.setting options).generators =
      value.generators D.naming ++ (key.generators D.naming ++ [key.keyGenerator D.naming]) := by
  rw [generators_grouping hterm (List.nil_append _).symm (List.nil_subset _) hstops, List.map_append, List.append_assoc]
  rfl

/-- Both paths have all generators of their variables. -/
theorem filter_decorrelated (options : Options) :
    (D.setting options).generators.filter (fun g => decide (g.var ∈ value.stars D.naming)) = value.generators D.naming ∧
      (D.setting options).generators.filter
          (fun g => decide (g.var ∈ VarSet.single (key.keyVar D.naming) ∪ key.stars D.naming)) =
        key.generators D.naming ++ [key.keyGenerator D.naming] := by
  have hvalues : ∀ g ∈ value.generators D.naming, g.var ∈ value.stars D.naming := fun g hg =>
    StarPath.mem_stars_iff.2 ⟨g, hg, rfl⟩
  rw [generators_decorrelated hterm hstops]
  constructor
  · rw [List.filter_append, List.filter_eq_self.2 fun g hg => decide_eq_true (hvalues g hg), List.filter_eq_nil_iff.2,
      List.append_nil]
    intro g hg hin
    exact not_mem_stars_of_stops hterm hstops (of_decide_eq_true hin) (StarPath.var_mem_of_mem_key hg)
  · rw [List.filter_append, List.filter_eq_self.2 fun g hg => decide_eq_true (StarPath.var_mem_of_mem_key hg),
      List.filter_eq_nil_iff.2, List.nil_append]
    intro g hg hin
    exact not_mem_stars_of_stops hterm hstops (hvalues g hg) (of_decide_eq_true hin)

end Derivation

/-! ## Slots without keys -/

/-- The slot, the keys and the reducer of a statement that reduces. -/
def Stmt.reduction? : Stmt → Option (Nat × List Var × Reducer)
  | .step slot keys (.reduce r _) => some (slot, keys, r)
  | _ => none

namespace Program

/-- A slot of a program is kept without keys: where it is given its first state, stepped or read, no keys are given. -/
structure Keyless (p : Program) (slot : Nat) : Prop where
  starts : ∀ keys, (slot, keys) ∈ Stmt.select Stmt.start? p.body → keys = []
  steps : ∀ keys, (slot, keys) ∈ Stmt.select Stmt.step? p.body → keys = []
  reads : ∀ keys, .slot slot keys ∈ p.exprs → keys = []

/-- Slots are kept without keys where no aggregate takes variables from around it. -/
theorem SlotsOnce.keyless {p : Program} {entries : List Entry} (h : SlotsOnce p entries)
    (hfree : ∀ x ∈ entries, x.node.info.free = ∅) (slot : Nat) : Keyless p slot := by
  have hreads : ∀ {xs : List Entry}, xs ⊆ entries → ∀ {x : Expr}, ReadsFrom xs x → ∀ keys, .slot slot keys ∈ x.parts →
      keys = [] := by
    intro xs hxs x hx keys hmem
    obtain ⟨y, hy, -, hlen⟩ := hx slot keys hmem
    rw [hfree y (hxs hy)] at hlen
    exact List.length_eq_zero_iff.1 hlen
  have hbody : Stmt.Every (fun st => ∀ e ∈ st.exprs, ∀ keys, .slot slot keys ∈ e.parts → keys = []) p.body := by
    rw [h.body]
    refine Stmt.every_flatMap fun x hx st hst e he => ?_
    obtain ⟨before, after, hsplit⟩ := List.append_of_mem hx
    refine hreads (fun y hy => ?_) (h.reads before x after hsplit st hst e he)
    rw [hsplit]
    exact List.mem_append_left _ hy
  refine ⟨fun keys hmem => ?_, fun keys hmem => ?_, fun keys hmem => ?_⟩
  · rw [h.body, Stmt.select_flatMap] at hmem
    obtain ⟨x, hx, hmem⟩ := List.mem_flatMap.1 hmem
    have heq := congrArg Prod.snd (h.starts x hx _ hmem)
    rwa [hfree x hx] at heq
  · rw [h.body, Stmt.select_flatMap] at hmem
    obtain ⟨x, hx, hmem⟩ := List.mem_flatMap.1 hmem
    rw [h.steps x hx, hfree x hx, List.mem_singleton] at hmem
    exact congrArg Prod.snd hmem
  · obtain ⟨e, he, hmem⟩ := Expr.mem_listParts.1 hmem
    rcases List.mem_append.1 he with he | he
    · obtain ⟨st, hst, he⟩ := List.mem_flatMap.1 he
      exact hbody st hst e he keys hmem
    · rw [List.mem_singleton.1 he] at hmem
      exact hreads (List.Subset.refl _) h.result keys hmem

/-- The reducing statement of a block is the step of a reduction. -/
theorem BlockOf.reductions {s : Setting} {entries : List Entry} {limit slot : Nat} {n : Node} {block : List Stmt}
    (h : BlockOf s entries limit slot n block) :
    Stmt.select Stmt.reduction? block =
      match n with
      | .reduce i r _ _ => [(slot, i.free.toList, r)]
      | _ => [] := by
  have hskips : SkipsNests Stmt.reduction? :=
    ⟨fun _ _ _ _ => rfl, fun _ _ _ _ => rfl, fun _ => rfl, fun _ => rfl, fun _ _ _ _ => rfl, fun _ _ => rfl⟩
  obtain ⟨start, steps, hstart, hsteps, rfl⟩ := h
  have htitle : Stmt.select Stmt.reduction? (titleStmts s slot n ++ warningStmts s slot n) = [] := by
    unfold titleStmts warningStmts
    split <;> split <;> rfl
  have hstarts : Stmt.select Stmt.reduction? start = [] := by
    rcases hstart with ⟨-, rfl⟩ | ⟨-, hnest⟩
    · rfl
    · obtain ⟨_, ⟨x, copy, -, rfl⟩, hselect⟩ := hnest.select hskips
      exact hselect
  obtain ⟨_, ⟨action, haction, rfl⟩, hselect⟩ := NestOf.select hskips hsteps
  rw [Stmt.select_append, Stmt.select_append, htitle, hstarts, hselect, List.append_nil, List.nil_append]
  cases haction <;> rfl

end Program

namespace StarPath

/-- The aggregates of a grouping are the grouping and the reduction. -/
theorem eq_of_mem_grouping {N : Naming} {i : VarInfo} {r : Reducer} {key value : StarPath} {free : VarSet} {m : Node}
    (hm : m ∈ (grouping N i r key value free).postorder) (hg : m.gathers = true) :
    m = grouping N i r key value free ∨ m = value.reduction N r free := by
  have hpath : ∀ {p : StarPath}, m ∈ (p.node N .taking).postorder → False := by
    intro p hp
    rw [gathers_of_mem_node hp] at hg
    cases hg
  rcases Node.mem_postorder.1 hm with rfl | ⟨c, hc, hm⟩
  · exact .inl rfl
  · rcases Node.mem_children_update.1 hc with rfl | rfl | rfl | hc
    · rw [List.mem_singleton.1 hm] at hg
      cases hg
    · rw [List.mem_singleton.1 hm] at hg
      cases hg
    · rcases List.mem_append.1 hm with hm | hm
      · exact absurd hm hpath
      · exact .inr (List.mem_singleton.1 hm)
    · cases hc
      simp only [keyFilter, keySource, Node.keyVar, Node.postorder, List.mem_append, List.mem_singleton] at hm
      rcases hm with ((hm | rfl) | rfl) | rfl
      · exact absurd hm hpath
      all_goals cases hg

/-- A grouping needs its reduction. -/
theorem needs_reduction {N : Naming} (s : Program.Setting) (i : VarInfo) (r : Reducer) (key value : StarPath) (free : VarSet) :
    Program.Needs s (grouping N i r key value free) (value.reduction N r free) := by
  refine List.mem_flatMap.2 ⟨value.reduction N r free, ?_, List.mem_singleton_self _⟩
  exact List.mem_append_right _ (List.mem_append_right _ (List.mem_append_right _ (List.mem_singleton_self _)))

end StarPath

namespace Compiles

variable {q : Query} {options : Options} {c : Compiled} {D : Derivation q} {r : Reducer} {key value : StarPath}

/-- Where neither a grouping nor the reduction in it takes variables from around, there is one slot that is reduced into, and it
is kept without keys. -/
theorem exists_keyless (hD : Compiles q options c D) {i : VarInfo} (hfree : i.free = ∅)
    (htree : D.tree options.output = StarPath.grouping D.naming i r key value ∅) :
    ∃ slot, (∀ x, x ∈ Stmt.select Stmt.reduction? c.program.body ↔ x = (slot, [], r)) ∧ c.program.Keyless slot := by
  obtain ⟨entries, hbuilt, hbelow, hlen, hnodes, hbody, hexpr, -⟩ :=
    Program.generate_numbers (D.universe_tree options) (Node.self_mem_postorder _) hD.generated
  have honce := hbuilt.slotsOnce hbelow hlen hnodes hbody hexpr
  have hentry : ∀ x ∈ entries, x.node = StarPath.grouping D.naming i r key value ∅ ∨ x.node = value.reduction D.naming r ∅ := by
    intro x hx
    obtain ⟨hmem, hgathers, -⟩ := hbuilt.forall_mem hx
    rw [htree] at hmem
    exact StarPath.eq_of_mem_grouping hmem hgathers
  have hreductions : ∀ x ∈ entries, x.node = StarPath.grouping D.naming i r key value ∅ ∧
      Stmt.select Stmt.reduction? x.block = [] ∨
      x.node = value.reduction D.naming r ∅ ∧ Stmt.select Stmt.reduction? x.block = [(x.slot, [], r)] := by
    intro x hx
    obtain ⟨-, -, earlier, hblock⟩ := hbuilt.forall_mem hx
    rcases hentry x hx with hnode | hnode
    · rw [hnode] at hblock
      exact .inl ⟨hnode, hblock.reductions⟩
    · rw [hnode] at hblock
      exact .inr ⟨hnode, hblock.reductions⟩
  -- the block of the grouping reads the slot of the reduction, which therefore has a block
  rw [htree] at hexpr
  obtain ⟨y, hy, hynode⟩ := hexpr.reads _ (List.mem_singleton_self _)
  obtain ⟨before, after, hsplit⟩ := List.append_of_mem hy
  have hneeds : Program.Needs (D.setting options) y.node (value.reduction D.naming r ∅) := by
    rw [hynode]
    exact StarPath.needs_reduction _ i r key value ∅
  obtain ⟨z, hz, hznode⟩ := (hbuilt.block hsplit).needs hneeds
  have hzmem : z ∈ entries := hsplit ▸ List.mem_append_left _ hz
  refine ⟨z.slot, fun x => ⟨fun hx => ?_, fun hx => ?_⟩, honce.keyless (fun x hx => ?_) z.slot⟩
  · rw [hbody, Stmt.select_flatMap] at hx
    obtain ⟨x', hx', hx⟩ := List.mem_flatMap.1 hx
    rcases hreductions x' hx' with ⟨-, hselect⟩ | ⟨hnode, hselect⟩
    · rw [hselect] at hx
      cases hx
    · rw [hselect, List.mem_singleton] at hx
      rwa [(honce.shared x' hx' z hzmem).2 (hnode.trans hznode.symm)] at hx
  · rw [hx, hbody, Stmt.select_flatMap]
    refine List.mem_flatMap.2 ⟨z, hzmem, ?_⟩
    rcases hreductions z hzmem with ⟨hnode, -⟩ | ⟨-, hselect⟩
    · rw [hznode] at hnode
      cases hnode
    · rw [hselect]
      exact List.mem_singleton_self _
  · rcases hentry x hx with hnode | hnode
    · rw [hnode]
      exact hfree
    · rw [hnode]
      rfl

end Compiles

/-- Grouping what does not depend on the key. If the path of a reduction shares no star with the path of a key, the grouping
compiles to a tree in which the reduction takes nothing from around it, and to a program with one slot that is reduced into, which
is kept without keys. On every input it gives each different key text of the values of the key path, in the order in which they
are first seen, the result of the reduction on its own, and the empty object if this is undefined. -/
theorem decorrelated_groups_repeat_reduction {key value : StarPath}
    (h : ∀ p ∈ value.prefixes, p.endsInStar = true → ¬ p ∈ key.prefixes) (r : Reducer) (keyImplicit valueImplicit : Bool)
    (options : Options) :
    ∃ c alone, compile (.group (key.query keyImplicit) (.op r.name [value.query valueImplicit])) options = .ok c ∧
      compile (.op r.name [value.query valueImplicit]) options = .ok alone ∧
      (∃ i base k j arg filter, c.tree = .update i base k (.reduce j r .eager arg) filter ∧ j.free = ∅) ∧
      (∃ slot, (∀ x, x ∈ Stmt.select Stmt.reduction? c.program.body ↔ x = (slot, [], r)) ∧ c.program.Keyless slot) ∧
      ∀ input functions, c.program.run input functions = some (match alone.program.run input functions with
        | none => Json.empty
        | some x => .obj ((keyTexts (key.values input)).map fun t => (t, x))) := by
  obtain ⟨A, hA⟩ := exists_derivation_reduction value r valueImplicit
  obtain ⟨alone, halone, hAlone⟩ := Derivation.exists_compiles_reduction hA options
  obtain ⟨D, hterm⟩ := exists_derivation_grouping key value r keyImplicit valueImplicit
  obtain ⟨c, hc, hD⟩ := Derivation.exists_compiles_grouping hterm options
  obtain ⟨-, -, hvalue⟩ := Derivation.root_grouping hterm
  have hstops := StarPath.not_mem_stops_of_prefixes h
  obtain ⟨hvalues, hkeys⟩ := Derivation.filter_decorrelated hterm hstops options
  obtain ⟨i, hfree, hbound, htree⟩ := Derivation.tree_grouping hterm options.output
  rw [Derivation.needed_eq_empty hterm hstops] at htree
  refine ⟨c, alone, hc, halone, ⟨_, _, _, _, _, _, hD.tree.trans htree, rfl⟩, hD.exists_keyless hfree htree, ?_⟩
  intro input functions
  obtain ⟨aggregate, hrun⟩ := hD.run_grouping hterm hfree hbound htree hkeys input functions
  have hsame : ∀ b, Direct.aggregateWith ⟨input, functions, D.naming.table⟩
      (Direct.valueWith ⟨input, functions, D.naming.table⟩ aggregate) (D.setting options).generators b
      (value.reduction D.naming r ∅) = r.fold (value.values input) := hvalue.aggregateWith_reduction rfl hvalues r
  rw [hrun, hAlone.run_reduction hA]
  simp only [hsame]
  cases r.fold (value.values input) with
  | none => simp [Json.empty]
  | some x => simp

/-- The names of the regions of an input. -/
def regionNames : StarPath := .append .input [.name ⟨"regions", by decide⟩, .star, .name ⟨"name", by decide⟩]

/-- The amounts of the lines of the orders of an input. -/
def lineAmounts : StarPath :=
  .append .input [.name ⟨"orders", by decide⟩, .star, .name ⟨"lines", by decide⟩, .star, .name ⟨"amount", by decide⟩]

/-- The total of all amounts, for every region. -/
theorem decorrelated_groups_repeat_reduction_amounts :
    (∀ p ∈ lineAmounts.prefixes, p.endsInStar = true → ¬ p ∈ regionNames.prefixes) ∧
      ∃ c alone, compile (.group (regionNames.query true) (.op "sum" [lineAmounts.query true])) {} = .ok c ∧
        compile (.op "sum" [lineAmounts.query true]) {} = .ok alone ∧
        (∃ i base k j arg filter, c.tree = .update i base k (.reduce j ⟨.sum, false⟩ .eager arg) filter ∧ j.free = ∅) ∧
        (∃ slot, (∀ x, x ∈ Stmt.select Stmt.reduction? c.program.body ↔ x = (slot, [], ⟨.sum, false⟩)) ∧
          c.program.Keyless slot) ∧
        ∀ input functions, c.program.run input functions = some (match alone.program.run input functions with
          | none => Json.empty
          | some x => .obj ((keyTexts (regionNames.values input)).map fun t => (t, x))) := by
  have hshare : ∀ p ∈ lineAmounts.prefixes, p.endsInStar = true → ¬ p ∈ regionNames.prefixes := by decide
  exact ⟨hshare, decorrelated_groups_repeat_reduction hshare ⟨.sum, false⟩ true true {}⟩

end StarQuery
