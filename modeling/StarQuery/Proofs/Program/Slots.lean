import Mathlib.Data.List.Nodup
import StarQuery.Proofs.Program.Numbering
import StarQuery.Proofs.Program.Scoped

/-!
# Slots and projections

A block steps its own slot in one statement, and gives it its first state in at most one (`BlockOf.steps`, `BlockOf.starts`); it
reads slots of earlier blocks only, by as many keys as they are written by (`BlockOf.keeps`). As no aggregate needs itself,
none is finished twice (`Finished.nodup`), so slots and blocks, and projections and their numbers, correspond one to one.
-/

namespace StarQuery

namespace Program

variable {s : Setting} {entries : List Entry}

/-! ## What a block writes -/

/-- A selection that takes nothing of what stands around the body of a nest, and no comment. -/
structure SkipsNests {α : Type} (f : Stmt → Option α) : Prop where
  loop : ∀ deep v x inner, f (.loop deep v x inner) = none
  test : ∀ deep v x inner, f (.test deep v x inner) = none
  error : ∀ text, f (.error text) = none
  comment : ∀ text, f (.comment text) = none
  project : ∀ id keys fill inner, f (.project id keys fill inner) = none
  mark : ∀ id keys, f (.mark id keys) = none

/-- Steps stand in the bodies of nests. -/
theorem skipsNests_step? : SkipsNests Stmt.step? :=
  ⟨fun _ _ _ _ => rfl, fun _ _ _ _ => rfl, fun _ => rfl, fun _ => rfl, fun _ _ _ _ => rfl, fun _ _ => rfl⟩

/-- First states stand in the bodies of nests. -/
theorem skipsNests_start? : SkipsNests Stmt.start? :=
  ⟨fun _ _ _ _ => rfl, fun _ _ _ _ => rfl, fun _ => rfl, fun _ => rfl, fun _ _ _ _ => rfl, fun _ _ => rfl⟩

section
variable {α : Type} {f : Stmt → Option α} (hf : SkipsNests f)
include hf

/-- What is selected from a nest is selected from its body. -/
theorem NestOf.select {limit : Nat} {vars : VarSet} {body : List Stmt → Prop} {stmts : List Stmt}
    (h : NestOf s entries limit vars body stmts) :
    ∃ inner, body inner ∧ Stmt.select f stmts = Stmt.select f inner := by
  cases h with
  | plain _ hinner => exact ⟨_, hinner, rfl⟩
  | @levels xs inner _ _ _ hinner =>
    refine ⟨inner, hinner, ?_⟩
    rw [select_wrap hf.loop hf.test, Stmt.select_append, select_unsolved hf.error, List.nil_append]
  | @projected id xs inner _ _ _ _ hinner =>
    refine ⟨inner, hinner, ?_⟩
    have hfill : Stmt.select f (wrap s xs ((nestPlan s vars).unsolved.map (unsolvedStmt s) ++ [.mark id vars.toList])) = [] := by
      rw [select_wrap hf.loop hf.test, Stmt.select_append, select_unsolved hf.error, List.nil_append]
      simp [Stmt.select, Stmt.listNested, Stmt.nested, hf.mark]
    simp only [Stmt.select] at hfill
    simp only [Stmt.select, Stmt.listNested, Stmt.nested, List.append_nil, List.filterMap_cons, hf.project,
      List.filterMap_append, hfill, List.nil_append]

/-- What is selected from a block is selected from the statement for the first state, if there is one, and from the step. -/
theorem BlockOf.select {limit slot : Nat} {n : Node} {block : List Stmt} (h : BlockOf s entries limit slot n block) :
    ∃ x copy action, Stmt.select f block =
      (if hasFirst n then Stmt.select f [.start slot n.info.free.toList x copy] else []) ++
        Stmt.select f [.step slot n.info.free.toList action] := by
  obtain ⟨start, steps, hstart, hsteps, rfl⟩ := h
  have htitle : Stmt.select f (titleStmts s slot n ++ warningStmts s slot n) = [] := by
    rw [Stmt.select_append]
    unfold titleStmts warningStmts
    split <;> split <;> simp [Stmt.select, Stmt.listNested, Stmt.nested, hf.comment]
  obtain ⟨_, ⟨action, -, rfl⟩, hselect⟩ := NestOf.select hf hsteps
  rw [Stmt.select_append, Stmt.select_append, htitle, hselect, List.nil_append]
  rcases hstart with ⟨hnone, rfl⟩ | ⟨hfirst, hnest⟩
  · refine ⟨.nop, false, action, ?_⟩
    rw [hnone]
    rfl
  · obtain ⟨_, ⟨x, copy, -, rfl⟩, hselect⟩ := hnest.select hf
    refine ⟨x, copy, action, ?_⟩
    rw [hselect, if_pos hfirst]

end

/-- A block steps its own slot, in one statement. -/
theorem BlockOf.steps {limit slot : Nat} {n : Node} {block : List Stmt} (h : BlockOf s entries limit slot n block) :
    Stmt.select Stmt.step? block = [(slot, n.info.free.toList)] := by
  obtain ⟨x, copy, action, hselect⟩ := h.select skipsNests_step?
  rw [hselect]
  split <;> rfl

/-- A block gives its own slot its first state, in one statement, if the aggregate has one. -/
theorem BlockOf.starts {limit slot : Nat} {n : Node} {block : List Stmt} (h : BlockOf s entries limit slot n block) :
    Stmt.select Stmt.start? block = if hasFirst n then [(slot, n.info.free.toList)] else [] := by
  obtain ⟨x, copy, action, hselect⟩ := h.select skipsNests_start?
  rw [hselect]
  exact List.append_nil _

/-- A nest that loops over all that its variables need has no projection around its body. -/
theorem NestOf.projections_eq_nil {limit : Nat} {vars : VarSet} {body : List Stmt → Prop} {stmts : List Stmt}
    (h : NestOf s entries limit vars body stmts) (hclosed : Generator.closure s.generators vars = vars)
    (hbody : ∀ inner, body inner → Stmt.select Stmt.projection? inner = []) : Stmt.select Stmt.projection? stmts = [] := by
  cases h with
  | plain _ hinner => exact hbody _ hinner
  | levels _ _ _ hinner =>
    rw [select_wrap (fun _ _ _ _ => rfl) (fun _ _ _ _ => rfl), Stmt.select_append, select_unsolved (fun _ => rfl),
      hbody _ hinner, List.append_nil]
  | projected _ hne => exact absurd hclosed hne

/-- A block whose nests loop over all that their variables need has no projection. -/
theorem BlockOf.projections_eq_nil {limit slot : Nat} {n : Node} {block : List Stmt} (h : BlockOf s entries limit slot n block)
    (hfree : Generator.closure s.generators n.info.free = n.info.free)
    (hall : Generator.closure s.generators (n.info.free ∪ n.info.bound) = n.info.free ∪ n.info.bound) :
    Stmt.select Stmt.projection? block = [] := by
  obtain ⟨start, steps, hstart, hsteps, rfl⟩ := h
  have htitle : Stmt.select Stmt.projection? (titleStmts s slot n ++ warningStmts s slot n) = [] := by
    unfold titleStmts warningStmts
    split <;> split <;> rfl
  have hstarts : Stmt.select Stmt.projection? start = [] := by
    rcases hstart with ⟨-, rfl⟩ | ⟨-, hnest⟩
    · rfl
    · refine hnest.projections_eq_nil hfree ?_
      rintro inner ⟨x, copy, -, rfl⟩
      rfl
  have hstep : Stmt.select Stmt.projection? steps = [] := by
    refine NestOf.projections_eq_nil hsteps hall ?_
    rintro inner ⟨action, -, rfl⟩
    rfl
  rw [Stmt.select_append, Stmt.select_append, htitle, hstarts, hstep]
  rfl

/-! ## What a block reads -/

/-- An expression reads slots of some entries, by as many keys as they are written by. -/
def ReadsFrom (entries : List Entry) (x : Expr) : Prop :=
  ∀ slot keys, .slot slot keys ∈ x.parts → ∃ y ∈ entries, y.slot = slot ∧ keys.length = y.node.info.free.toList.length

/-- The expression of a variable reads no slot. -/
theorem not_slot_mem_parts_varOf {env : VarSet} {v : Var} {slot : Nat} {keys : List Expr} :
    ¬ .slot slot keys ∈ (varOf s env v).parts := by
  intro h
  unfold varOf at h
  split at h <;> cases List.mem_singleton.1 h

/-- An expression reads slots of the entries, by as many keys as their aggregates take variables from around them. -/
theorem ExprOf.readsFrom {env : VarSet} {n : Node} {x : Expr} (h : ExprOf s entries env n x) : ReadsFrom entries x := by
  intro slot keys hslot
  induction h with
  | input | const | hint => cases List.mem_singleton.1 hslot
  | var i v => exact absurd hslot not_slot_mem_parts_varOf
  | @get i base key b k _ _ hbase hkey =>
    have hparts : .slot slot keys ∈ b.parts ++ k.parts := by
      split at hslot
      · exact (List.mem_cons.1 hslot).resolve_left nofun
      · exact (List.mem_cons.1 hslot).resolve_left nofun
    exact (List.mem_append.1 hparts).elim hbase hkey
  | pointwise hlen _ ih =>
    obtain ⟨x, hx, hslot⟩ := Expr.mem_listParts.1 ((List.mem_cons.1 hslot).resolve_left nofun)
    obtain ⟨n, -, hzip⟩ := Node.mem_zip_of_mem_right hlen hx
    exact ih _ hzip hslot
  | keySet _ ih => exact ih ((List.mem_cons.1 hslot).resolve_left nofun)
  | @slot n entry _ hentry hnode =>
    rcases List.mem_cons.1 hslot with heq | hslot
    · cases heq
      refine ⟨entry, hentry, rfl, ?_⟩
      rw [List.length_map, hnode]
    · obtain ⟨x, hx, hslot⟩ := Expr.mem_listParts.1 hslot
      obtain ⟨v, -, rfl⟩ := List.mem_map.1 hx
      exact absurd hslot not_slot_mem_parts_varOf

/-- A first state reads slots of the entries. -/
theorem FirstOf.readsFrom {env : VarSet} {n : Node} {x : Expr} {copy : Bool} (h : FirstOf s entries env n x copy) :
    ReadsFrom entries x := by
  cases h with
  | reduce | scan =>
    intro slot keys hslot
    cases List.mem_singleton.1 hslot
  | update hbase => exact hbase.readsFrom

/-- An action reads slots of the entries. -/
theorem ActionOf.readsFrom {env : VarSet} {n : Node} {a : Action} (h : ActionOf s entries env n a) :
    ∀ x ∈ a.exprs, ReadsFrom entries x := by
  intro x hx
  cases h with
  | reduce harg | scan harg =>
    rw [List.mem_singleton.1 hx]
    exact harg.readsFrom
  | update hlen hkeys hvalue =>
    rcases List.mem_append.1 hx with hx | hx
    · obtain ⟨n, -, hzip⟩ := Node.mem_zip_of_mem_right hlen hx
      exact (hkeys _ hzip).readsFrom
    · rw [List.mem_singleton.1 hx]
      exact hvalue.readsFrom

/-- The expressions of a statement read slots of some entries, and the projection that it may be marks its own tuples once. -/
structure Keeps (entries : List Entry) (st : Stmt) : Prop where
  reads : ∀ x ∈ st.exprs, ReadsFrom entries x
  marks : ∀ id keys fill inner, st = .project id keys fill inner → Stmt.select Stmt.mark? fill = [(id, keys)]

/-- The levels of a nest read slots of the entries, and its projection marks its own tuples once. -/
theorem nestIn_keeps (vars : VarSet) : NestIn s entries (fun _ => Keeps entries) vars where
  loop l _ x hx _ deep inner := by
    refine ⟨fun y hy => ?_, nofun⟩
    rw [List.mem_singleton.1 hy]
    exact hx.readsFrom
  test l _ x hx _ deep inner := by
    refine ⟨fun y hy => ?_, nofun⟩
    rw [List.mem_singleton.1 hy]
    exact hx.readsFrom
  unsolved _ _ := ⟨nofun, nofun⟩
  project id xs inner := by
    refine ⟨nofun, ?_⟩
    rintro _ _ _ _ ⟨⟩
    rw [select_wrap (fun _ _ _ _ => rfl) (fun _ _ _ _ => rfl), Stmt.select_append, select_unsolved (fun _ => rfl)]
    rfl
  mark _ := ⟨nofun, nofun⟩

/-- The statements of a block read slots of earlier entries, and its projections mark their own tuples once. -/
theorem BlockOf.keeps {limit slot : Nat} {n : Node} {block : List Stmt} (h : BlockOf s entries limit slot n block) :
    Stmt.Every (Keeps entries) block := by
  have hkeeps : Stmt.EveryIn (fun _ => Keeps entries) ∅ block := by
    refine h.everyIn (fun _ => ⟨nofun, nofun⟩) (nestIn_keeps _) (nestIn_keeps _) ?_ ?_
    · intro x copy hx
      refine ⟨fun y hy => ?_, nofun⟩
      rw [List.mem_singleton.1 hy]
      exact hx.readsFrom
    · intro action haction
      exact ⟨haction.readsFrom, nofun⟩
  exact Stmt.every_of_everyIn hkeeps

/-! ## Every aggregate is finished once -/

/-- If no finished aggregate needs itself, none was finished twice. -/
theorem Finished.nodup {xs : List (String × Nat)} (h : Finished s xs)
    (hself : ∀ n : Node, n.fingerprint ∈ xs.map Prod.fst → ¬ Relation.TransGen (Needs s) n n) : (xs.map Prod.fst).Nodup := by
  induction h with
  | nil => exact List.nodup_nil
  | @cons n slot new old _ hold hnew ih =>
    rw [List.map_cons, List.nodup_cons]
    refine ⟨fun hmem => ?_, ih fun m hm => hself m (List.mem_cons_of_mem _ hm)⟩
    rw [List.map_append] at hmem
    rcases List.mem_append.1 hmem with hmem | hmem
    · -- one that was finished since this one was begun is needed by it
      obtain ⟨x, hx, hfp⟩ := List.mem_map.1 hmem
      obtain ⟨m, hneeds, hxm⟩ := hnew x hx
      have hmn : m = n := Node.fingerprint_inj (hxm.symm.trans hfp)
      rw [hmn] at hneeds
      exact hself n List.mem_cons_self hneeds
    · exact hold hmem

/-- The block of an entry refers to the entries before it. -/
theorem Built.block {U : Node → Prop} {limit : Nat} (h : Built s U limit entries) {before after : List Entry} {x : Entry}
    (hsplit : entries = before ++ x :: after) : BlockOf s before limit x.slot x.node x.block := by
  induction h generalizing after with
  | nil => simp at hsplit
  | @snoc entries y hentries _ _ hblock _ ih =>
    rcases List.eq_nil_or_concat after with rfl | ⟨after, z, rfl⟩
    · obtain ⟨rfl, heq⟩ := List.append_inj' hsplit rfl
      cases heq
      exact hblock
    · rw [List.concat_eq_append, ← List.cons_append, ← List.append_assoc] at hsplit
      exact ih (List.append_inj' hsplit rfl).1

/-! ## Programs -/

/-- The blocks of a program belong to its slots. -/
structure SlotsOnce (p : Program) (entries : List Entry) : Prop where
  /-- The body is a sequence of blocks. -/
  body : p.body = entries.flatMap Entry.block
  /-- There is one block for each slot. -/
  slots : (entries.map Entry.slot).Perm (List.range p.slots)
  /-- Equal aggregates share a slot, different ones do not. -/
  shared : ∀ x ∈ entries, ∀ y ∈ entries, x.slot = y.slot ↔ x.node = y.node
  /-- Every slot is stepped by one statement of the program. -/
  stepped : ((Stmt.select Stmt.step? p.body).map Prod.fst).Perm (List.range p.slots)
  /-- No slot is given first states by two statements of the program. -/
  started : ((Stmt.select Stmt.start? p.body).map Prod.fst).Nodup
  /-- These statements stand in the block of the slot, and have the free variables of the aggregate for keys. -/
  steps : ∀ x ∈ entries, Stmt.select Stmt.step? x.block = [(x.slot, x.node.info.free.toList)]
  starts : ∀ x ∈ entries, ∀ y ∈ Stmt.select Stmt.start? x.block, y = (x.slot, x.node.info.free.toList)
  /-- A block reads slots of earlier blocks, by as many keys as they are written by. -/
  reads : ∀ before x after, entries = before ++ x :: after →
    ∀ st ∈ Stmt.listNested x.block, ∀ e ∈ st.exprs, ReadsFrom before e
  result : ReadsFrom entries p.result

/-- The projections of a program belong to their numbers. -/
structure ProjectionsOnce (p : Program) : Prop where
  /-- Every number is that of one projection. -/
  projections : (Stmt.select Stmt.projection? p.body).Perm (List.range p.projections)
  /-- Where the tuples of a projection are collected, one statement marks them, with the same keys. -/
  marks : ∀ id keys fill inner, .project id keys fill inner ∈ Stmt.listNested p.body →
    Stmt.select Stmt.mark? fill = [(id, keys)]

/-- Numbers below a bound that are all different, and as many as the bound, are all numbers below it. -/
theorem perm_range_of_nodup {xs : List Nat} {n : Nat} (hnodup : xs.Nodup) (hlt : ∀ x ∈ xs, x < n) (hlen : xs.length = n) :
    xs.Perm (List.range n) := by
  have hsubperm : xs.Subperm (List.range n) := List.subperm_of_subset hnodup fun x hx => List.mem_range.2 (hlt x hx)
  refine hsubperm.perm_of_length_le ?_
  rw [List.length_range, hlen]

/-- Finished entries whose aggregates are all different are as many as there are slots, if a program has no other slots. -/
theorem Built.slotsOnce {U : Node → Prop} {p : Program} (h : Built s U p.projections entries)
    (hbelow : ∀ x ∈ entries, x.slot < p.slots) (hlen : entries.length = p.slots)
    (hnodes : (entries.map Entry.node).Nodup) (hbody : p.body = entries.flatMap Entry.block) {root : Node}
    (hresult : ExprOf s entries ∅ root p.result) : SlotsOnce p entries := by
  have hslots : (entries.map Entry.slot).Perm (List.range p.slots) := by
    refine perm_range_of_nodup h.nodup_slots (fun slot hslot => ?_) ?_
    · obtain ⟨x, hx, rfl⟩ := List.mem_map.1 hslot
      exact hbelow x hx
    · rw [List.length_map, hlen]
  have hblock : ∀ x ∈ entries, ∃ earlier, BlockOf s earlier p.projections x.slot x.node x.block := fun x hx =>
    (h.forall_mem hx).2.2
  have hsteps : ∀ x ∈ entries, Stmt.select Stmt.step? x.block = [(x.slot, x.node.info.free.toList)] := by
    intro x hx
    obtain ⟨earlier, hx⟩ := hblock x hx
    exact hx.steps
  have hstarts : ∀ x ∈ entries, Stmt.select Stmt.start? x.block =
      if hasFirst x.node then [(x.slot, x.node.info.free.toList)] else [] := by
    intro x hx
    obtain ⟨earlier, hx⟩ := hblock x hx
    exact hx.starts
  refine ⟨hbody, hslots, fun x hx y hy => ⟨fun heq => ?_, fun heq => ?_⟩, ?_, ?_, hsteps, fun x hx y hy => ?_, ?_,
    hresult.readsFrom⟩
  · rw [List.inj_on_of_nodup_map h.nodup_slots hx hy heq]
  · rw [List.inj_on_of_nodup_map hnodes hx hy heq]
  · have hall : (Stmt.select Stmt.step? p.body).map Prod.fst = entries.map Entry.slot := by
      rw [hbody, Stmt.select_flatMap, List.map_flatMap, List.map_eq_flatMap]
      refine List.flatMap_congr fun x hx => ?_
      rw [hsteps x hx]
      rfl
    rw [hall]
    exact hslots
  · -- the slots that have first states are some of the slots
    have hsome : (Stmt.select Stmt.start? p.body).map Prod.fst =
        (entries.filter fun x => hasFirst x.node).map Entry.slot := by
      rw [hbody, Stmt.select_flatMap, List.map_flatMap, List.flatMap_congr fun x hx => congrArg _ (hstarts x hx)]
      clear hslots hblock hsteps hstarts hbelow hlen hnodes hbody hresult h
      induction entries with
      | nil => rfl
      | cons x entries ih =>
        rw [List.flatMap_cons, ih, List.filter_cons]
        split <;> rfl
    rw [hsome]
    exact h.nodup_slots.sublist (List.filter_sublist.map _)
  · rw [hstarts x hx] at hy
    split at hy
    · exact List.mem_singleton.1 hy
    · cases hy
  · intro before x after hsplit st hst
    exact ((h.block hsplit).keeps st hst).reads

/-- Aggregates that were finished one after the other are all different: none was begun when an equal one was finished, and
none is needed to compute itself. -/
theorem Built.nodup_nodes {U : Node → Prop} {limit : Nat} {assigned : List (String × Nat)} (h : Built s U limit entries)
    (hassigned : assigned = (entries.map fun x => (x.node.fingerprint, x.slot)).reverse) (hfinished : Finished s assigned) :
    (entries.map Entry.node).Nodup := by
  have hfingerprints : assigned.map Prod.fst = (entries.map fun x => x.node.fingerprint).reverse := by
    rw [hassigned, List.map_reverse, List.map_map]
    rfl
  have hnodup : (assigned.map Prod.fst).Nodup := by
    refine hfinished.nodup fun n hn => ?_
    rw [hfingerprints, List.mem_reverse] at hn
    obtain ⟨x, hx, hfp⟩ := List.mem_map.1 hn
    rw [← Node.fingerprint_inj hfp]
    exact h.not_needs_self hx
  rw [hfingerprints, List.nodup_reverse] at hnodup
  refine List.Nodup.of_map Node.fingerprint ?_
  rw [List.map_map]
  exact hnodup

/-- Where the tuples of a projection of a block are collected, one statement marks them. -/
theorem Built.marks {U : Node → Prop} {limit id : Nat} {keys : List Var} {fill inner : List Stmt} (h : Built s U limit entries)
    (hmem : .project id keys fill inner ∈ Stmt.listNested (entries.flatMap Entry.block)) :
    Stmt.select Stmt.mark? fill = [(id, keys)] := by
  have hmarks : Stmt.Every (fun st => ∀ id keys fill inner, st = .project id keys fill inner →
      Stmt.select Stmt.mark? fill = [(id, keys)]) (entries.flatMap Entry.block) := by
    refine Stmt.every_flatMap fun x hx st hst => ?_
    obtain ⟨earlier, hblock⟩ := (h.forall_mem hx).2.2
    exact (hblock.keeps st hst).marks
  exact hmarks _ hmem id keys fill inner rfl

/-- A generated program has one slot for each of its entries, whose aggregates are all different, and one number for each of its
projections. -/
theorem generate_numbers {U : Node → Prop} (hc : Universe s U) {root : Node} (hU : U root) {program : Program}
    {diagnostics : List Diagnostic} (h : generate s root = some (program, diagnostics)) :
    ∃ entries, Built s U program.projections entries ∧ (∀ x ∈ entries, x.slot < program.slots) ∧
      entries.length = program.slots ∧ (entries.map Entry.node).Nodup ∧ program.body = entries.flatMap Entry.block ∧
      ExprOf s entries ∅ root program.result ∧
      (Stmt.select Stmt.projection? program.body).Perm (List.range program.projections) := by
  obtain ⟨e, hrun, hprogram, -⟩ := run_of_generate h
  obtain ⟨G, _, -, he, -, hexpr⟩ := emitterOK_exprAt hc _ root ∅ _ hU _ _ _ holds_start hrun
  have hadvance := numbers_exprAt (s := s) _ root ∅ [] _ _ _ hrun
  have hslots : program.slots = e.slots := by rw [hprogram]
  have hprojections : program.projections = e.projections := by rw [hprogram]
  have hstmts : program.body = e.stmts := by rw [hprogram]
  have hbuilt : Built s U program.projections G.entries := by
    rw [hprojections, he.projections]
    exact he.built
  have hlen : G.entries.length = program.slots := by
    obtain ⟨new, hnew, hcount, -⟩ := hadvance.assigned
    have hassigned := congrArg List.length he.assigned
    rw [hnew, List.length_reverse, List.length_map, List.length_append] at hassigned
    rw [hslots, hcount]
    simpa using hassigned.symm
  refine ⟨G.entries, hbuilt, fun x hx => ?_, hlen, hbuilt.nodup_nodes he.assigned (hadvance.finished .nil),
    hstmts.trans he.stmts, hexpr, ?_⟩
  · rw [hslots, he.slots]
    exact he.below x hx
  · obtain ⟨blocks, count, hblocks, hcount, hperm⟩ := hadvance.projected
    have hcounted : e.projections = count := hcount.trans (Nat.zero_add count)
    have hall : e.stmts = blocks := hblocks
    rw [hstmts, hprojections, hall, hcounted, List.range_eq_range']
    simpa using hperm

/-- Slots and projections of generated programs. Whatever tree a program is generated from, its body consists of one block for
each slot; a slot is stepped by one statement and given its first states by at most one, in its own block and by the free
variables of its aggregate; what is read are slots of earlier blocks, by as many keys. Aggregates share a slot if and only if
they are equal. Each number of a projection belongs to one projection, whose tuples are marked by one statement. -/
theorem generated_slots_and_projections (s : Setting) (root : Node) (program : Program) (diagnostics : List Diagnostic)
    (h : generate s root = some (program, diagnostics)) :
    ∃ entries, Built s (fun _ => True) program.projections entries ∧ ExprOf s entries ∅ root program.result ∧
      SlotsOnce program entries ∧ ProjectionsOnce program := by
  have huniverse : Universe s fun _ => True := ⟨fun _ _ => trivial, fun _ _ => trivial⟩
  obtain ⟨entries, hbuilt, hbelow, hlen, hnodes, hbody, hexpr, hprojections⟩ := generate_numbers huniverse trivial h
  refine ⟨entries, hbuilt, hexpr, hbuilt.slotsOnce hbelow hlen hnodes hbody hexpr, hprojections, ?_⟩
  intro id keys fill inner hmem
  rw [hbody] at hmem
  exact hbuilt.marks hmem

end Program

/-- The totals below each key have a program with a block for each slot. -/
theorem generated_slots_and_projections_totalsBelow : ∃ s root program diagnostics,
    Program.generate s root = some (program, diagnostics) ∧
    ∃ entries, Program.Built s (fun _ => True) program.projections entries ∧
      Program.ExprOf s entries ∅ root program.result ∧ program.SlotsOnce entries ∧ program.ProjectionsOnce := by
  obtain ⟨c, hc, -⟩ := compile_totalsBelow
  obtain ⟨D, hD⟩ := compiles_of_ok hc
  exact ⟨_, _, _, _, hD.generated, Program.generated_slots_and_projections _ _ _ _ hD.generated⟩

end StarQuery
