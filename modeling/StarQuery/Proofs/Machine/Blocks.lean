import StarQuery.Proofs.Machine.Values
import StarQuery.Proofs.Plan.Levels

/-!
# Blocks of a run

A start or a step changes what a slot holds at the key texts of the present binding. A nest does so under one binding after the
other, so what is found in the slot at some key texts is what the changes under the bindings with these key texts make of it
(`at?_foldl_put`). So after its block the slot of an aggregate holds the direct value of the aggregate (`slotHolds_modify`).
-/

namespace StarQuery

/-! ## Changes under bindings -/

/-- What a change at the key texts of a binding makes of the content of a slot. -/
def put (keys : List Var) (change : Option (Option Json → Option Json)) (b : Binding) (content : Option Json) :
    Option Json :=
  match b.keyTexts? keys, change with
  | some path, some f => Json.alterAt path f content
  | _, _ => content

section
variable {keys : List Var} {change : Binding → Option (Option Json → Option Json)}
  (hchange : ∀ b f, change b = some f → ∀ x, (f (some x)).isSome = true)
include hchange

/-- One change is found at the key texts of its binding. -/
theorem at?_put {content : Option Json} (h : ∀ v ∈ content, Json.Nested keys.length v) (b : Binding) {path : List String}
    (hpath : path.length = keys.length) :
    Json.at? path (put keys (change b) b content) =
      if b.keyTexts? keys = some path then (change b).elim (Json.at? path content) (· (Json.at? path content))
      else Json.at? path content := by
  unfold put
  cases hkeys : b.keyTexts? keys with
  | none => rfl
  | some other =>
    have hother := Binding.length_of_keyTexts? hkeys
    cases hf : change b with
    | none => exact (ite_self _).symm
    | some f =>
      have hnested : ∀ v ∈ content, Json.Nested other.length v := hother ▸ h
      rw [Option.elim_some, Json.at?_alterAt (hchange b f hf) hnested (hpath.trans hother.symm)]
      by_cases heq : path = other
      · rw [if_pos heq, if_pos (congrArg some heq.symm), heq]
      · rw [if_neg heq, if_neg fun h => heq (Option.some.inj h).symm]

/-- One change leaves objects in objects, as many deep as there are keys. -/
theorem nested_put {content : Option Json} (h : ∀ v ∈ content, Json.Nested keys.length v) (b : Binding) :
    ∀ v ∈ put keys (change b) b content, Json.Nested keys.length v := by
  unfold put
  cases hkeys : b.keyTexts? keys with
  | none => exact h
  | some path =>
    cases hf : change b with
    | none => exact h
    | some f =>
      have hlen := Binding.length_of_keyTexts? hkeys
      rw [← hlen] at h ⊢
      exact Json.nested_alterAt (hchange b f hf) h

/-- Changes under one binding after the other leave objects in objects. -/
theorem nested_foldl_put (bs : List Binding) {content : Option Json} (h : ∀ v ∈ content, Json.Nested keys.length v) :
    ∀ v ∈ bs.foldl (fun c b => put keys (change b) b c) content, Json.Nested keys.length v := by
  induction bs generalizing content with
  | nil => exact h
  | cons b bs ih => exact ih (nested_put hchange h b)

/-- What is found at some key texts is what the changes under the bindings with these key texts make of it. -/
theorem at?_foldl_put (bs : List Binding) {content : Option Json} (h : ∀ v ∈ content, Json.Nested keys.length v)
    {path : List String} (hpath : path.length = keys.length) :
    Json.at? path (bs.foldl (fun c b => put keys (change b) b c) content) =
      (bs.filter fun b => b.keyTexts? keys = some path).foldl (fun state b => (change b).elim state (· state))
        (Json.at? path content) := by
  induction bs generalizing content with
  | nil => rfl
  | cons b bs ih =>
    rw [List.foldl_cons, ih (nested_put hchange h b), at?_put hchange h b hpath]
    by_cases hb : b.keyTexts? keys = some path
    · rw [if_pos hb, List.filter_cons_of_pos (by simpa using hb), List.foldl_cons]
    · rw [if_neg hb, List.filter_cons_of_neg (by simpa using hb)]

end

/-- The change that gives a first state where there is none yet. -/
def startWith (first : Option Json) : Option (Option Json → Option Json) := first.map fun x state => state.or (some x)

/-- A state that is there is kept when a first state is given. -/
theorem isSome_of_startWith {first : Option Json} {f : Option Json → Option Json} (h : startWith first = some f) (x : Json) :
    (f (some x)).isSome = true := by
  obtain ⟨y, -, rfl⟩ := Option.map_eq_some_iff.1 h
  rfl

/-- First states given one after the other leave the first defined one. -/
theorem foldl_startWith {first : Binding → Option Json} (bs : List Binding) (state : Option Json) :
    bs.foldl (fun state b => (startWith (first b)).elim state (· state)) state = state.or (bs.findSome? first) := by
  induction bs generalizing state with
  | nil => exact Option.or_none.symm
  | cons b bs ih =>
    rw [List.foldl_cons, ih, List.findSome?_cons]
    cases first b with
    | none => rfl
    | some x => cases state <;> rfl

namespace Store

/-- A store with a slot changed. -/
def alter (k : Store) (slot : Nat) (f : Option Json → Option Json) : Store := { k with slots := k.slots.modify slot f }

/-- A change that leaves the content of a slot leaves the store. -/
theorem alter_id (k : Store) (slot : Nat) : (k.alter slot fun content => content) = k := by
  unfold alter
  rw [show (fun content : Option Json => content) = id from rfl, List.modify_id]

/-- Changes of one slot, one after the other. -/
theorem foldl_alter {α : Type} (k : Store) (slot : Nat) (f : α → Option Json → Option Json) (items : List α) :
    items.foldl (fun k a => k.alter slot (f a)) k = k.alter slot fun content => items.foldl (fun c a => f a c) content := by
  induction items generalizing k with
  | nil => exact (k.alter_id slot).symm
  | cons a items ih =>
    rw [List.foldl_cons, ih]
    simp [alter, List.modify_modify_eq, Function.comp_def]

end Store

/-- Statements in two lists run one list after the other. -/
theorem execAll_append (given : Given) (xs ys : List Stmt) (st : State) :
    Stmt.execAll given (xs ++ ys) st = Stmt.execAll given ys (Stmt.execAll given xs st) := by
  induction xs generalizing st with
  | nil => rfl
  | cons x xs ih => rw [List.cons_append, Stmt.execAll, Stmt.execAll, ih]

namespace Program

variable {s : Setting} {entries : List Entry} {N limit : Nat} {given : Given} {aggregate : Direct.Valuation}

/-! ## Ready stores -/

/-- The slots of the entries so far hold what a valuation gives their aggregates, and there is room for the projections. -/
structure Ready (entries : List Entry) (limit : Nat) (aggregate : Direct.Valuation) (k : Store) : Prop where
  slots : ∀ x ∈ entries, SlotHolds k.slots x.slot x.node aggregate
  projections : limit ≤ k.projections.length

/-- Tuples of a projection are no part of what the slots hold. -/
theorem Ready.setProjection {k : Store} (h : Ready entries limit aggregate k) (id : Nat) (tree : KeyTree) :
    Ready entries limit aggregate (k.setProjection id tree) := by
  refine ⟨h.slots, ?_⟩
  rw [Store.setProjection, List.length_set]
  exact h.projections

/-- A slot keeps what it holds when another one is changed. -/
theorem SlotHolds.modify {slots : List (Option Json)} {slot other : Nat} {n : Node} (h : SlotHolds slots slot n aggregate)
    (hne : slot ≠ other) (f : Option Json → Option Json) : SlotHolds (slots.modify other f) slot n aggregate := by
  have hsame : (slots.modify other f)[slot]? = slots[slot]? := List.getElem?_modify_ne f slots (Ne.symm hne)
  exact ⟨hsame ▸ h.nested, hsame ▸ h.reads⟩

/-- A store stays ready when a slot is changed that belongs to none of the entries. -/
theorem Ready.alter {k : Store} (h : Ready entries limit aggregate k) {slot : Nat} (hslot : ∀ x ∈ entries, x.slot ≠ slot)
    (f : Option Json → Option Json) : Ready entries limit aggregate (k.alter slot f) :=
  ⟨fun x hx => (h.slots x hx).modify (hslot x hx) f, h.projections⟩

/-- What tells of generators that could not be ordered changes nothing. -/
theorem execAll_unsolved (gs : List Generator) (st : State) :
    Stmt.execAll given (gs.map (unsolvedStmt s)) st = st := by
  induction gs with
  | nil => rfl
  | cons g gs ih => exact ih

/-- The comments before a block change nothing. -/
theorem execAll_title (slot : Nat) (n : Node) (st : State) : Stmt.execAll given (titleStmts s slot n) st = st := by
  unfold titleStmts
  split <;> rfl

/-! ## Starts and steps -/

/-- A start puts its value at the key texts of the present binding, if nothing is there yet. -/
theorem execAll_start {k : Store} {b : Binding} (hb : b.Below N) {slot : Nat} {keys : List Var} {x : Expr} {copy : Bool}
    {first : Option Json} (heval : x.eval given (k.under N b) = first) :
    Stmt.execAll given [.start slot keys x copy] (k.under N b) =
      (k.alter slot (put keys (startWith first) b)).under N b := by
  simp only [Stmt.execAll, Stmt.exec, Store.keyTexts?_under hb, heval]
  unfold put startWith
  cases b.keyTexts? keys with
  | none => rw [Store.alter_id]
  | some path =>
    cases first with
    | none => exact (congrArg (Store.under N · b) (k.alter_id slot)).symm
    | some y => rfl

/-- A step changes what is at the key texts of the present binding as its action says. -/
theorem execAll_step {k : Store} {b : Binding} (hb : b.Below N) {slot : Nat} {keys : List Var} {action : Action}
    {change : Option (Option Json → Option Json)} (hchange : action.change? given (k.under N b) = change) :
    Stmt.execAll given [.step slot keys action] (k.under N b) = (k.alter slot (put keys change b)).under N b := by
  simp only [Stmt.execAll, Stmt.exec, Store.keyTexts?_under hb, hchange]
  unfold put
  cases b.keyTexts? keys with
  | none => rw [Store.alter_id]
  | some path =>
    cases change with
    | none => exact (congrArg (Store.under N · b) (k.alter_id slot)).symm
    | some f => rfl

/-- What the start of a block makes of the content of a slot. -/
def started (s : Setting) (given : Given) (value : Direct.Valuation) (n : Node) (content : Option Json) : Option Json :=
  (Direct.nestBindings given value s.generators n.info.free).foldl
    (fun c b => put n.info.free.toList (startWith (Direct.firstState value b n)) b c) content

/-- What the steps of a block make of the content of a slot. -/
def stepped (s : Setting) (given : Given) (value : Direct.Valuation) (n : Node) (content : Option Json) : Option Json :=
  (Direct.nestBindings given value s.generators (n.info.free ∪ n.info.bound)).foldl
    (fun c b => put n.info.free.toList (Direct.change? given value b n) b c) content

/-- An aggregate without a first state starts with what its slot holds. -/
theorem started_eq_self {value : Direct.Valuation} {n : Node} (h : hasFirst n = false) (content : Option Json) :
    started s given value n content = content := by
  have hfirst : ∀ b, Direct.firstState value b n = none := by
    intro b
    cases n with
    | reduce i op mode arg => exact Option.not_isSome_iff_eq_none.1 (Bool.eq_false_iff.1 h)
    | scan | update => cases h
    | _ => rfl
  have hput : ∀ b : Binding, put n.info.free.toList (startWith none) b content = content := by
    intro b
    unfold put startWith
    cases b.keyTexts? n.info.free.toList <;> rfl
  unfold started
  induction Direct.nestBindings given value s.generators n.info.free with
  | nil => rfl
  | cons b bs ih => rw [List.foldl_cons, hfirst, hput, ih]

/-! ## Levels and nests -/

section
variable (htable : given.table = s.table) (hvars : ∀ g ∈ s.generators, g.var < N)
include htable hvars

/-- The levels of a plan run what is inside them under the bindings of the plan. -/
theorem LevelsOf.acts {vars : VarSet} {xs : List (Level × Expr)} (h : LevelsOf s entries (nestPlan s vars).levels xs)
    (hreports : planReports s (nestPlan s vars) = []) {G : Binding → Store → Store} {inner : List Stmt}
    (hinner : ∀ b : Binding, b.Below N → Acts N (Ready entries limit aggregate) (Stmt.execAll given inner) b (G b)) :
    Acts N (Ready entries limit aggregate)
      (Stmt.execAll given (wrap s xs ((nestPlan s vars).unsolved.map (unsolvedStmt s) ++ inner))) Binding.empty fun k =>
        (Direct.planBindings given (Direct.valueWith given aggregate) s.generators vars).foldl (fun k b => G b k) k := by
  have hsource := List.flatMap_eq_nil_iff.1 (List.append_eq_nil_iff.1 hreports).1
  have hmem : ∀ x ∈ xs, x.1 ∈ (nestPlan s vars).levels := fun x hx => h.1 ▸ List.mem_map_of_mem hx
  have hbody : ∀ b : Binding, b.Below N → Acts N (Ready entries limit aggregate)
      (Stmt.execAll given ((nestPlan s vars).unsolved.map (unsolvedStmt s) ++ inner)) b (G b) := by
    intro b hb k hk
    rw [execAll_append, execAll_unsolved]
    exact hinner b hb k hk
  have hwrap := acts_wrap s (fun x b => Direct.valueWith given aggregate b x.1.generator.source) hbody xs
    (fun x hx b k hb hk => (h.2 x hx).eval_eq htable hb hk.slots (hsource x.1 (hmem x hx)))
    (fun x hx => hvars _ (Plan.mem_levels_ofGenerators (hmem x hx)).1) (Binding.below_empty N)
  rw [← htable, Level.enumerate_eq, h.1] at hwrap
  exact hwrap

/-- A nest runs its body under the bindings of the nest. -/
theorem NestOf.runs {vars : VarSet} {body : List Stmt → Prop} {stmts : List Stmt}
    (h : NestOf s entries limit vars body stmts) (hreports : vars ≠ ∅ → planReports s (nestPlan s vars) = [])
    {G : Binding → Store → Store} (hbody : ∀ inner, body inner → ∀ b : Binding, b.Below N →
      Acts N (Ready entries limit aggregate) (Stmt.execAll given inner) b (G b))
    {k : Store} (hk : Ready entries limit aggregate k) :
    ∃ k', k'.slots = k.slots ∧ Ready entries limit aggregate k' ∧
      Stmt.execAll given stmts (k.under N Binding.empty) =
        ((Direct.nestBindings given (Direct.valueWith given aggregate) s.generators vars).foldl
          (fun k b => G b k) k').under N Binding.empty := by
  unfold Direct.nestBindings
  cases h with
  | plain hempty hinner =>
    rw [if_pos hempty]
    exact ⟨k, rfl, hk, (hbody _ hinner _ (Binding.below_empty N) k hk).1⟩
  | levels hne hclosure hxs hinner =>
    rw [if_neg hne, if_pos hclosure]
    exact ⟨k, rfl, hk, (hxs.acts htable hvars (hreports hne) (hbody _ hinner) k hk).1⟩
  | @projected id _ _ hne hclosure hid hxs hinner =>
    rw [if_neg hne, if_neg hclosure]
    have hset : ∀ (k : Store) id tree, Ready entries limit aggregate k → Ready entries limit aggregate (k.setProjection id tree) :=
      fun k id tree hk => hk.setProjection id tree
    have hfill := hxs.acts (G := fun b => markStore id vars.toList b) htable hvars (hreports hne)
      fun b hb => acts_mark hset id vars.toList hb
    have hbelow := below_enumerate (Direct.valueWith given aggregate) given (nestPlan s vars).levels
      (fun l hl => hvars _ (Plan.mem_levels_ofGenerators hl).1) (Binding.below_empty N)
    have hproject := acts_project hset (fun k hk => Nat.lt_of_lt_of_le hid hk.projections) (Binding.below_empty N) hbelow
      hfill (hbody _ hinner)
    exact ⟨k.setProjection id .nil, rfl, hk.setProjection id .nil, (hproject k hk).1⟩

/-! ## Blocks -/

/-- What starts the slot of an aggregate leaves the store ready. -/
theorem StartOf.runs {slot : Nat} {n : Node} {stmts : List Stmt} (h : StartOf s entries limit slot n stmts)
    (hslot : ∀ x ∈ entries, x.slot ≠ slot)
    (hreports : hasFirst n = true → nestReports s n.info.free (firstReports s (nestEnv s n.info.free) n) = [])
    {k : Store} (hk : Ready entries limit aggregate k) :
    ∃ k', k'.slots = k.slots.modify slot (started s given (Direct.valueWith given aggregate) n) ∧
      Ready entries limit aggregate k' ∧
      Stmt.execAll given stmts (k.under N Binding.empty) = k'.under N Binding.empty := by
  rcases h with ⟨hnone, rfl⟩ | ⟨hsome, hnest⟩
  · refine ⟨k, ?_, hk, rfl⟩
    rw [show started s given (Direct.valueWith given aggregate) n = id from funext (started_eq_self hnone), List.modify_id]
  · obtain ⟨hplan, hfirst⟩ := List.append_eq_nil_iff.1 (hreports hsome)
    obtain ⟨k', hslots, hk', hrun⟩ := hnest.runs htable hvars (fun hne => by rwa [if_neg hne] at hplan)
      (G := fun b k => k.alter slot
        (put n.info.free.toList (startWith (Direct.firstState (Direct.valueWith given aggregate) b n)) b))
      (by
        rintro _ ⟨x, copy, hx, rfl⟩ b hb k hk
        exact ⟨execAll_start hb (hx.eval_eq htable hb hk.slots hfirst), hk.alter hslot _⟩) hk
    rw [Store.foldl_alter] at hrun
    exact ⟨_, congrArg (List.modify · slot _) hslots, hk'.alter hslot _, hrun⟩

/-- What steps the slot of an aggregate leaves the store ready. -/
theorem StepsOf.runs {slot : Nat} {n : Node} {stmts : List Stmt} (h : StepsOf s entries limit slot n stmts)
    (hslot : ∀ x ∈ entries, x.slot ≠ slot)
    (hreports : nestReports s (n.info.free ∪ n.info.bound)
      (actionReports s (nestEnv s (n.info.free ∪ n.info.bound)) n) = [])
    {k : Store} (hk : Ready entries limit aggregate k) :
    ∃ k', k'.slots = k.slots.modify slot (stepped s given (Direct.valueWith given aggregate) n) ∧
      Ready entries limit aggregate k' ∧
      Stmt.execAll given stmts (k.under N Binding.empty) = k'.under N Binding.empty := by
  obtain ⟨hplan, haction⟩ := List.append_eq_nil_iff.1 hreports
  obtain ⟨k', hslots, hk', hrun⟩ := NestOf.runs htable hvars h (fun hne => by rwa [if_neg hne] at hplan)
    (G := fun b k => k.alter slot
      (put n.info.free.toList (Direct.change? given (Direct.valueWith given aggregate) b n) b))
    (by
      rintro _ ⟨action, hx, rfl⟩ b hb k hk
      exact ⟨execAll_step hb (hx.change?_eq htable hb hk.slots haction), hk.alter hslot _⟩) hk
  rw [Store.foldl_alter] at hrun
  exact ⟨_, congrArg (List.modify · slot _) hslots, hk'.alter hslot _, hrun⟩

/-- After its block, the slot of an aggregate is started and stepped. -/
theorem BlockOf.runs {slot : Nat} {n : Node} {block : List Stmt} (h : BlockOf s entries limit slot n block)
    (hslot : ∀ x ∈ entries, x.slot ≠ slot) (hreports : blockReports s slot n = []) {k : Store}
    (hk : Ready entries limit aggregate k) :
    ∃ k', k'.slots = k.slots.modify slot (fun content => stepped s given (Direct.valueWith given aggregate) n
        (started s given (Direct.valueWith given aggregate) n content)) ∧
      Ready entries limit aggregate k' ∧
      Stmt.execAll given block (k.under N Binding.empty) = k'.under N Binding.empty := by
  obtain ⟨start, steps, hstart, hsteps, rfl⟩ := h
  obtain ⟨hrest, hrsteps⟩ := List.append_eq_nil_iff.1 hreports
  obtain ⟨hwarning, hrstart⟩ := List.append_eq_nil_iff.1 hrest
  obtain ⟨k1, hslots1, hk1, hrun1⟩ := hstart.runs htable hvars hslot (fun hfirst => by rwa [if_pos hfirst] at hrstart) hk
  obtain ⟨k2, hslots2, hk2, hrun2⟩ := hsteps.runs htable hvars hslot hrsteps hk1
  have hcomments : warningStmts s slot n = [] := by
    unfold warningReports at hwarning
    unfold warningStmts
    split at hwarning
    · rename_i hloops
      rw [if_pos hloops]
    · cases hwarning
  refine ⟨k2, ?_, hk2, ?_⟩
  · rw [hslots2, hslots1, List.modify_modify_eq]
    rfl
  · rw [hcomments, List.append_nil, execAll_append, execAll_append, execAll_title, hrun1, hrun2]

end

/-! ## What a slot holds -/

/-- A binding agrees with another on some variables if it gives them the key texts that the other gives them. -/
theorem filter_agrees {b : Binding} {vars : VarSet} {path : List String} (h : b.keyTexts? vars.toList = some path)
    (bs : List Binding) : bs.filter (·.agrees b vars) = bs.filter fun c => c.keyTexts? vars.toList = some path := by
  refine List.filter_congr fun c _ => ?_
  rw [Bool.eq_iff_iff, Binding.agrees_iff, decide_eq_true_iff, h]
  simp

/-- Where a binding misses one of the variables, no binding agrees with it. -/
theorem filter_agrees_of_none {b : Binding} {vars : VarSet} (h : b.keyTexts? vars.toList = none) (bs : List Binding) :
    bs.filter (·.agrees b vars) = [] := by
  rw [List.filter_eq_nil_iff]
  intro c _ hc
  obtain ⟨path, hpath, -⟩ := Binding.agrees_iff.1 hc
  rw [h] at hpath
  cases hpath

/-- A slot that was empty before holds the direct value of an aggregate, once it is started and stepped. -/
theorem slotHolds_modify {slots : List (Option Json)} {slot : Nat} (hempty : slots[slot]? = some none)
    (value : Direct.Valuation) (n : Node) :
    SlotHolds (slots.modify slot fun content => stepped s given value n (started s given value n content)) slot n
      (Direct.aggregateWith given value s.generators) := by
  have hfirst : ∀ b f, startWith (Direct.firstState value b n) = some f → ∀ x, (f (some x)).isSome = true :=
    fun _ _ => isSome_of_startWith
  have hchange : ∀ b f, Direct.change? given value b n = some f → ∀ x, (f (some x)).isSome = true :=
    fun _ _ => Direct.isSome_of_change?
  have hnone : ∀ v ∈ (none : Option Json), Json.Nested n.info.free.toList.length v :=
    fun v hv => absurd hv (Option.not_mem_none v)
  have hstarted : ∀ v ∈ started s given value n none, Json.Nested n.info.free.toList.length v :=
    nested_foldl_put hfirst _ hnone
  have hheld : (slots.modify slot fun content => stepped s given value n (started s given value n content))[slot]?.join =
      stepped s given value n (started s given value n none) := by
    rw [List.getElem?_modify_eq, hempty]
    rfl
  refine ⟨?_, fun b => ?_⟩
  · rw [hheld]
    exact nested_foldl_put hchange _ hstarted
  · rw [hheld]
    unfold Direct.aggregateWith
    cases hpath : b.keyTexts? n.info.free.toList with
    | none =>
      simp only [filter_agrees_of_none hpath]
      rfl
    | some path =>
      have hlen := Binding.length_of_keyTexts? hpath
      simp only [filter_agrees hpath, Option.bind_some]
      rw [stepped, at?_foldl_put hchange _ hstarted hlen, started, at?_foldl_put hfirst _ hnone hlen, foldl_startWith,
        Json.at?_none, Option.none_or]

end Program

end StarQuery
