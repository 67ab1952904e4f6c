import StarQuery.Proofs.Machine.Enumeration
import StarQuery.Proofs.Machine.Proper
import StarQuery.Proofs.Machine.Reaches
import StarQuery.Proofs.Machine.Reading
import StarQuery.Proofs.Machine.Tuples
import StarQuery.Proofs.Program.Greedy

/-!
# What a nest runs its body for

A nest whose generators can all be ordered runs its body for the assignments to its variables that satisfy them, if the body leaves
alone what the generators read (`State.execAll_levels`). If the generators need other variables, the body is run for the different
tuples among such assignments to all of them (`State.execAll_projected`, `nests_run_for_satisfying_assignments`).
-/

namespace StarQuery

namespace State

/-! ## Running under bindings -/

/-- A state with the values of a binding for its variables. -/
def under (st : State) (b : Binding) : State := { st with env := (List.range st.env.length).map b }

/-- What a state holds apart from the values of the variables. -/
def store (st : State) : Store := ⟨st.slots, st.projections⟩

/-- Runs something under one binding after the other, and puts back each time what the variables had. -/
def runUnder (run : State → State) (bs : List Binding) (st : State) : State :=
  bs.foldl (fun st c => (run (st.under c)).under st.value?) st

/-- A state has values for as many variables as it has places. -/
theorem value?_below (st : State) : Binding.Below st.value? st.env.length := by
  intro v hv
  rw [value?, List.getElem?_eq_none hv]
  rfl

/-- With its own values for a binding a state is itself. -/
theorem under_value? (st : State) : st.under st.value? = st := by
  unfold under
  refine congrArg (State.mk · st.slots st.projections) (List.ext_getElem? fun i => ?_)
  by_cases hi : i < st.env.length
  · simp [value?, hi]
  · simp [hi]

/-- Under a binding the variables that have a place have its values, and no others have one. -/
theorem value?_under (st : State) (b : Binding) (v : Var) :
    (st.under b).value? v = if v < st.env.length then b v else none := by
  unfold under value?
  by_cases hv : v < st.env.length
  · simp [hv]
  · simp [hv]

section
variable {run : State → State} (hrun : ∀ st, (run st).env = st.env)
include hrun

/-- Whatever leaves the variables as they are only acts on the store. -/
theorem run_under (N : Nat) (k : Store) (c : Binding) : run (k.under N c) = (run (k.under N c)).store.under N c := by
  have henv : (run (k.under N c)).env = (List.range N).map c := hrun _
  exact congrArg (State.mk · (run (k.under N c)).slots (run (k.under N c)).projections) henv

/-- Running under one binding after the other acts on the store only, and puts the first binding back. -/
theorem runUnder_under {N : Nat} {b : Binding} (hb : b.Below N) (bs : List Binding) (k : Store) :
    runUnder run bs (k.under N b) = (bs.foldl (fun k c => (run (k.under N c)).store) k).under N b := by
  induction bs generalizing k with
  | nil => rfl
  | cons c bs ih =>
    have hunder : (k.under N b).under c = k.under N c := by simp [under, Store.under]
    have hvalues : (k.under N b).value? = b := funext (Store.value?_under hb)
    have hlength : (run (k.under N c)).env.length = N := by rw [hrun]; simp [Store.under]
    have hround : (run ((k.under N b).under c)).under (k.under N b).value? = (run (k.under N c)).store.under N b := by
      rw [hunder, hvalues, under, hlength]
      rfl
    rw [runUnder, List.foldl_cons, hround, List.foldl_cons]
    exact ih _

end

/-! ## Sources -/

/-- The value of the source of a level under a binding. -/
def sourceUnder (given : Given) (st : State) (x : Level × Expr) (c : Binding) : Option Json := x.2.eval given (st.under c)

/-- Levels whose sources read bound variables only. -/
def ReadsBound (xs : List (Level × Expr)) : Prop := ∀ x ∈ xs, ∀ v, .var v ∈ x.2.parts → v ∈ x.1.seen

/-- Something leaves the slots as they are that the sources of levels read. -/
def LeavesSources (run : State → State) (xs : List (Level × Expr)) : Prop :=
  ∀ x ∈ xs, ∀ slot keys, .slot slot keys ∈ x.2.parts → ∀ st, (run st).slot? slot = st.slot? slot

/-- The slots that the sources of levels read hold what they hold in a state. -/
def SameSources (st : State) (xs : List (Level × Expr)) (k : Store) : Prop :=
  ∀ x ∈ xs, ∀ slot keys, .slot slot keys ∈ x.2.parts → k.slots[slot]?.join = st.slot? slot

/-- A source is worth what it was worth at first, while the slots that it reads hold the same. -/
theorem eval_eq_sourceUnder {given : Given} {st : State} {xs : List (Level × Expr)} {k : Store} (hk : SameSources st xs k)
    {x : Level × Expr} (hx : x ∈ xs) (b : Binding) :
    x.2.eval given (k.under st.env.length b) = sourceUnder given st x b :=
  Expr.eval_congr given x.2 ⟨fun _ _ => rfl, fun slot keys hslot => hk x hx slot keys hslot⟩

/-- A source that reads bound variables only is worth the same under bindings that agree on them. -/
theorem local_sourceUnder (given : Given) (st : State) {xs : List (Level × Expr)} (hreads : ReadsBound xs) :
    Level.Local (sourceUnder given st) xs := by
  intro x hx b c hagree
  refine Expr.eval_congr given x.2 ⟨fun v hv => ?_, fun _ _ _ => rfl⟩
  rw [value?_under, value?_under, hagree v (hreads x hx v hv)]

/-- No object that the sources of levels come upon has a name twice. -/
structure ProperData (given : Given) (st : State) (xs : List (Level × Expr)) : Prop where
  given : given.Proper
  constants : ∀ x ∈ xs, ∀ value, .const value ∈ x.2.parts → value.proper = true
  slots : ∀ slot, ProperIfDefined (st.slot? slot)

/-- Under a binding that levels accept, no source has an object with a name twice: the variables have keys and paths for values. -/
theorem ProperData.sources {given : Given} {st : State} {table : NameTable} {xs : List (Level × Expr)} {seen bound : VarSet}
    (h : ProperData given st xs) (hreads : ReadsBound xs) (hchain : Plan.Chained seen (xs.map Prod.fst) bound) {c : Binding}
    (hseen : ∀ v ∈ seen, ProperIfDefined (c v))
    (haccepts : ∀ x ∈ xs, Level.Accepts table (sourceUnder given st) x.1.fresh x c) :
    ∀ x ∈ xs, ProperIfDefined (sourceUnder given st x c) := by
  induction xs generalizing seen with
  | nil => exact fun x hx => absurd hx List.not_mem_nil
  | cons x xs ih =>
    obtain ⟨hfirst, hrest⟩ := hchain
    have hx : x.1.seen = seen := hfirst
    have hreads' := List.forall_mem_cons.1 hreads
    have hconstants := List.forall_mem_cons.1 h.constants
    rw [List.forall_mem_cons] at haccepts
    have hsource : ProperIfDefined (sourceUnder given st x c) := by
      refine Expr.proper_eval h.given x.2 ⟨hconstants.1, fun v hv => ?_, fun slot _ _ => h.slots slot⟩
      rw [value?_under]
      split
      · exact hseen v (hx ▸ hreads'.1 v hv)
      · exact properIfDefined_none
    refine List.forall_mem_cons.2 ⟨hsource, ih ⟨h.given, hconstants.2, h.slots⟩ hreads'.2 hrest (fun v hv => ?_) haccepts.2⟩
    by_cases hold : v ∈ seen
    · exact hseen v hold
    · have hvar : v = x.1.generator.var := (VarSet.mem_insert.1 hv).resolve_right hold
      have hfresh : x.1.fresh = true := by simpa [Level.fresh, hx, hvar] using hold
      obtain ⟨collection, value, -, hvalue, hchoice⟩ := haccepts.1
      rw [hfresh, if_pos rfl] at hchoice
      rw [hvar, hvalue]
      exact properIfDefined_some (Stmt.proper_of_mem_choices hchoice)

/-! ## Levels and projections -/

section
variable {given : Given} {s : Program.Setting} {st : State} {xs : List (Level × Expr)} {inner : List Stmt}

/-- What leaves the sources alone acts on the store under each binding. -/
theorem acts_inner (hleaves : LeavesSources (Stmt.execAll given inner) xs) (N : Nat) (c : Binding) :
    Acts N (SameSources st xs) (Stmt.execAll given inner) c fun k => (Stmt.execAll given inner (k.under N c)).store := by
  intro k hk
  refine ⟨run_under (Stmt.env_execAll given inner) N k c, fun x hx slot keys hslot => ?_⟩
  exact (hleaves x hx slot keys hslot (k.under N c)).trans (hk x hx slot keys hslot)

/-- Levels run what is inside them under the bindings that they enumerate. -/
theorem execAll_levels (hvars : ∀ x ∈ xs, x.1.generator.var < st.env.length)
    (hleaves : LeavesSources (Stmt.execAll given inner) xs) :
    Stmt.execAll given (Program.wrap s xs inner) st =
      st.runUnder (Stmt.execAll given inner) (Level.enumerate s.table (sourceUnder given st) xs st.value?) := by
  have hwrap := acts_wrap s (sourceUnder given st) (fun c _ => acts_inner hleaves st.env.length c) xs
    (fun x hx b k _ hk => eval_eq_sourceUnder hk hx b) hvars st.value?_below
  have hrun := (hwrap st.store fun _ _ _ _ _ => rfl).1
  have hstart : st.store.under st.env.length st.value? = st := st.under_value?
  rw [hstart, ← runUnder_under (Stmt.env_execAll given inner) st.value?_below, hstart] at hrun
  exact hrun

/-- A projection runs its body under the bindings of the tuples among those that the levels of its filling enumerate. -/
theorem execAll_projected (hvars : ∀ x ∈ xs, x.1.generator.var < st.env.length) {id : Nat} (hid : id < st.projections.length)
    {keys : List Var} {bs : List Binding} (hbs : Level.enumerate s.table (sourceUnder given st) xs st.value? = bs)
    (hbelow : ∀ c ∈ bs, Binding.Below c st.env.length) :
    Stmt.execAll given [.project id keys (Program.wrap s xs [.mark id keys]) inner] st =
      (st.setProjection id .nil).runUnder (Stmt.execAll given inner) ((Direct.tuples keys bs).bindings keys st.value?) := by
  have hset : ∀ k id tree, SameSources st xs k → SameSources st xs (Store.setProjection k id tree) := fun _ _ _ hk => hk
  have hfill : Acts st.env.length (SameSources st xs) (Stmt.execAll given (Program.wrap s xs [.mark id keys])) st.value? fun k =>
      (Level.enumerate s.table (sourceUnder given st) xs st.value?).foldl (fun k c => markStore id keys c k) k :=
    acts_wrap s (sourceUnder given st) (fun c hc => acts_mark hset id keys hc) xs
      (fun x hx b k _ hk => eval_eq_sourceUnder hk hx b) hvars st.value?_below
  rw [hbs] at hfill
  have hfilled := (hfill (st.store.setProjection id .nil) fun _ _ _ _ _ => rfl).1
  have hproject : Stmt.execAll given [.project id keys (Program.wrap s xs [.mark id keys]) inner]
      (st.store.under st.env.length st.value?) = _ := exec_project hid hfilled
  have hbody : ∀ c : Binding, c.Below st.env.length → Acts st.env.length (fun _ => True) (Stmt.execAll given inner) c fun k =>
      (Stmt.execAll given inner (k.under st.env.length c)).store :=
    fun c _ k _ => ⟨run_under (Stmt.env_execAll given inner) _ k c, trivial⟩
  have htuples := (acts_forTuples hbody keys (Direct.tuples keys bs) (lt_of_tuples hbelow) st.value?_below
    (st.store.setProjection id .nil) trivial).1
  have hstart : st.store.under st.env.length st.value? = st := st.under_value?
  have hcleared : (st.store.setProjection id .nil).under st.env.length st.value? = st.setProjection id .nil :=
    congrArg (setProjection · id .nil) hstart
  rw [hstart, htuples, ← runUnder_under (Stmt.env_execAll given inner) st.value?_below, hcleared] at hproject
  exact hproject

variable {bound : VarSet} (hchain : Plan.Chained ∅ (xs.map Prod.fst) bound) (hreads : ReadsBound xs)
  (hvars : ∀ x ∈ xs, x.1.generator.var < st.env.length)
include hchain hreads hvars

/-- Levels run what is inside them for the assignments that satisfy them, in their order, each once. -/
theorem levels_run (hleaves : LeavesSources (Stmt.execAll given inner) xs) :
    ∃ bs : List Binding, Stmt.execAll given (Program.wrap s xs inner) st = st.runUnder (Stmt.execAll given inner) bs ∧
      (∀ c, c ∈ bs ↔ Level.Satisfies s.table (st.sourceUnder given) xs bound st.value? c) ∧
      bs.Pairwise (Level.Precedes s.table (st.sourceUnder given) xs) ∧ (st.ProperData given xs → bs.Nodup) := by
  have hlocal := local_sourceUnder given st hreads
  refine ⟨_, execAll_levels hvars hleaves, fun c => Level.mem_enumerate hchain hlocal, Level.pairwise_enumerate hchain hlocal, ?_⟩
  intro hproper
  refine Level.nodup_enumerate hchain hlocal fun c hc x hx collection hcollection => ?_
  have haccepts := ((Level.mem_enumerate_iff hchain hlocal).1 hc).2
  have hsources := hproper.sources hreads hchain (fun v hv => absurd hv (VarSet.not_mem_empty v)) haccepts
  exact Stmt.nodup_choices _ (hsources x hx collection hcollection)

/-- A projection runs its body for the different tuples among the assignments that satisfy the levels of its filling. -/
theorem projection_run {id : Nat} (hid : id < st.projections.length) {keys : VarSet} (hkeys : keys ≠ ∅) :
    ∃ (bs : List Binding) (tuples : List (List String)),
      Stmt.execAll given [.project id keys.toList (Program.wrap s xs [.mark id keys.toList]) inner] st =
        (st.setProjection id .nil).runUnder (Stmt.execAll given inner) bs ∧
      (∀ c ∈ bs, ∀ v, ¬ v ∈ keys → c v = st.value? v) ∧
      bs.map (·.keyTexts? keys.toList) = tuples.map some ∧ tuples.Nodup ∧
      ∀ texts, texts ∈ tuples ↔ ∃ c, Level.Satisfies s.table (st.sourceUnder given) xs bound st.value? c ∧
        c.keyTexts? keys.toList = some texts := by
  have hlocal := local_sourceUnder given st hreads
  have hbelow : ∀ c ∈ Level.enumerate s.table (sourceUnder given st) xs st.value?, Binding.Below c st.env.length := by
    intro c hc v hv
    have hout : ¬ v ∈ bound := by
      rw [hchain.mem_bound, or_iff_right (VarSet.not_mem_empty v)]
      rintro ⟨l, hl, rfl⟩
      obtain ⟨x, hx, rfl⟩ := List.mem_map.1 hl
      exact absurd (hvars x hx) (Nat.not_lt.2 hv)
    rw [((Level.mem_enumerate hchain hlocal).1 hc).outside v hout]
    exact st.value?_below v hv
  have hne : keys.toList ≠ [] := fun hnil => hkeys (VarSet.isEmpty_iff.1 (List.isEmpty_iff.2 hnil))
  let tree := Direct.tuples keys.toList (Level.enumerate s.table (sourceUnder given st) xs st.value?)
  refine ⟨tree.bindings keys.toList st.value?, tree.texts keys.toList.length, execAll_projected hvars hid rfl hbelow,
    fun c hc v hv => KeyTree.eq_of_mem_bindings hc hv, KeyTree.keyTexts?_bindings keys.nodup_toList tree st.value?,
    KeyTree.nodup_texts (Direct.distinct_tuples _ _) _, fun texts => ?_⟩
  rw [Direct.mem_texts_tuples hne]
  simp only [Level.mem_enumerate hchain hlocal]

end

end State

namespace Program

variable {s : Setting} {vars : VarSet}

/-! ## Plans that leave nothing over -/

/-- A plan that leaves nothing over has a level for each generator of what its variables need. -/
theorem perm_nestPlan (hsolved : (nestPlan s vars).unsolved = []) :
    ((nestPlan s vars).levels.map Level.generator).Perm
      (Generator.generating s.generators (Generator.closure s.generators vars)) := by
  have hperm : ((nestPlan s vars).levels.map Level.generator ++ (nestPlan s vars).unsolved).Perm _ :=
    Plan.perm_ofGenerators s.generators ∅ (Generator.closure s.generators vars)
  rwa [hsolved, List.append_nil] at hperm

/-- A plan that leaves nothing over binds every variable that is generated. -/
theorem bound_nestPlan (hsolved : (nestPlan s vars).unsolved = [])
    (hgenerated : ∀ v ∈ Generator.closure s.generators vars, ∃ g ∈ s.generators, g.var = v) :
    (nestPlan s vars).bound = Generator.closure s.generators vars := by
  have hchain : Plan.Chained ∅ (nestPlan s vars).levels (nestPlan s vars).bound := Plan.chained_ofGenerators _ _ _
  refine VarSet.ext fun v => ?_
  rw [hchain.mem_bound, or_iff_right (VarSet.not_mem_empty v)]
  constructor
  · rintro ⟨l, hl, rfl⟩
    exact (Plan.mem_levels_ofGenerators hl).2
  · intro hv
    obtain ⟨g, hg, rfl⟩ := hgenerated v hv
    have hmem : g ∈ (nestPlan s vars).levels.map Level.generator :=
      (perm_nestPlan hsolved).mem_iff.2 (List.mem_filter.2 ⟨hg, decide_eq_true hv⟩)
    obtain ⟨l, hl, rfl⟩ := List.mem_map.1 hmem
    exact ⟨l, hl, rfl⟩

/-- Inside a nest that leaves nothing over, and where all that is needed is generated, its variables are bound and no others.
-/
theorem nestEnv_eq (hsolved : (nestPlan s vars).unsolved = [])
    (hgenerated : ∀ v ∈ Generator.closure s.generators vars, ∃ g ∈ s.generators, g.var = v) : nestEnv s vars = vars := by
  unfold nestEnv
  split
  · rename_i hempty
    exact hempty.symm
  · split
    · rename_i hclosure
      rw [bound_nestPlan hsolved hgenerated, hclosure]
    · rfl

/-- The sources of levels are expressions where the variables before them are bound, so they read no others. -/
theorem Sourced.readsBound {depth : Nat} {levels : List Level} {xs : List (Level × Expr)}
    (h : Sourced (exprAt s depth) levels xs) : State.ReadsBound xs :=
  fun x hx _ hv => (h.2 x hx).var_mem hv

/-! ## Nests -/

/-- A nest for variables, all of whose generators can be ordered, and in which all that they need is generated. In a state with room
for its variables and projections, and around a body that leaves the slots as they are that the sources read, it runs the body

* if the variables need no others, for the assignments to them that satisfy the levels: the first generator of every variable yields
  its value, and every other one admits it. They come in the order of the levels, and none comes twice if no object in the data has
  a name twice;
* if they need others, for the tuples of key texts of the variables in those assignments to all of them that satisfy the levels, each
  different tuple once. -/
theorem nests_run_for_satisfying_assignments {depth : Nat} {body : VarSet → EmissionM (List Stmt)} {stmts : List Stmt}
    (hnest : Gives (loopNest s (exprAt s depth) ∅ vars body) stmts) (hsolved : (nestPlan s vars).unsolved = [])
    (hgenerated : ∀ v ∈ Generator.closure s.generators vars, ∃ g ∈ s.generators, g.var = v) :
    ∃ xs inner, Sourced (exprAt s depth) (nestPlan s vars).levels xs ∧
      (xs.map (·.1.generator)).Perm (Generator.generating s.generators (Generator.closure s.generators vars)) ∧
      Gives (body vars) inner ∧
      ∀ (given : Given) (st : State), (∀ g ∈ s.generators, g.var < st.env.length) →
        (∀ id ∈ Stmt.select Stmt.projection? stmts, id < st.projections.length) →
        State.LeavesSources (Stmt.execAll given inner) xs →
        (Generator.closure s.generators vars = vars → ∃ bs : List Binding,
          Stmt.execAll given stmts st = st.runUnder (Stmt.execAll given inner) bs ∧
          (∀ c, c ∈ bs ↔ Level.Satisfies s.table (st.sourceUnder given) xs vars st.value? c) ∧
          bs.Pairwise (Level.Precedes s.table (st.sourceUnder given) xs) ∧
          (st.ProperData given xs → bs.Nodup)) ∧
        (Generator.closure s.generators vars ≠ vars → ∃ (id : Nat) (bs : List Binding) (tuples : List (List String)),
          Stmt.execAll given stmts st = (st.setProjection id .nil).runUnder (Stmt.execAll given inner) bs ∧
          (∀ c ∈ bs, ∀ v, ¬ v ∈ vars → c v = st.value? v) ∧
          bs.map (·.keyTexts? vars.toList) = tuples.map some ∧ tuples.Nodup ∧
          ∀ texts, texts ∈ tuples ↔ ∃ c,
            Level.Satisfies s.table (st.sourceUnder given) xs (Generator.closure s.generators vars) st.value? c ∧
              c.keyTexts? vars.toList = some texts) := by
  obtain ⟨xs, inner, hsourced, hinner, hshape⟩ := hnest.loopNest
  rw [nestEnv_eq hsolved hgenerated] at hinner
  simp only [hsolved, List.map_nil, List.nil_append] at hshape
  have hlevels : xs.map Prod.fst = (nestPlan s vars).levels := hsourced.1
  have hperm : (xs.map (·.1.generator)).Perm (Generator.generating s.generators (Generator.closure s.generators vars)) := by
    have hgenerators := perm_nestPlan hsolved
    rwa [← hlevels, List.map_map] at hgenerators
  have hchain : Plan.Chained ∅ (xs.map Prod.fst) (Generator.closure s.generators vars) := by
    rw [hlevels, ← bound_nestPlan hsolved hgenerated]
    exact Plan.chained_ofGenerators _ _ _
  refine ⟨xs, inner, hsourced, hperm, hinner, fun given st hroom hprojections hleaves => ?_⟩
  have hvars : ∀ x ∈ xs, x.1.generator.var < st.env.length := fun x hx =>
    hroom _ (List.mem_filter.1 (hperm.mem_iff.1 (List.mem_map_of_mem hx))).1
  rcases hshape with ⟨hclosure, rfl⟩ | ⟨hclosure, id, rfl⟩
  · refine ⟨fun _ => ?_, fun hne => absurd hclosure hne⟩
    rw [hclosure] at hchain
    exact State.levels_run hchain hsourced.readsBound hvars hleaves
  · refine ⟨fun heq => absurd heq hclosure, fun _ => ?_⟩
    have hid : id < st.projections.length :=
      hprojections id (List.mem_filterMap.2 ⟨_, List.mem_append_left _ List.mem_cons_self, rfl⟩)
    have hkeys : vars ≠ ∅ := by
      rintro rfl
      exact hclosure (Generator.closure_empty s.generators)
    exact ⟨id, State.projection_run hchain hsourced.readsBound hvars hid hkeys⟩

/-- The parts of the input, and the names in every part. -/
def namesInParts : Setting where
  table := ⟨["*P", "*N"]⟩
  generators := [⟨0, .input {}, "input[*P]"⟩,
    ⟨1, .get { free := .single 0 } (.input {}) (.var { free := .single 0 } 0), "input[*P][*N]"⟩]
  listing := ""
  comments := false

/-- The nest that collects the different names in a second projection. -/
def namesNest : List Stmt :=
  [.project 0 [1] [.loop false 0 .input [.loop false 1 (.get .input (.var 0)) [.mark 0 [1]]]] [.mark 1 [1]]]

/-- The nest marks each name once, though two parts have it. -/
theorem nests_run_for_satisfying_assignments_names :
    let vars := VarSet.single 1
    let body : VarSet → EmissionM (List Stmt) := fun _ => return [.mark 1 [1]]
    let input := Json.obj [("a", .obj [("x", .null), ("y", .null)]), ("b", .obj [("y", .null)])]
    let given : Given := ⟨input, Functions.none, namesInParts.table⟩
    let st : State := ⟨[none, none], [], [.nil, .nil]⟩
    Gives (loopNest namesInParts (exprAt namesInParts 0) ∅ vars body) namesNest ∧
    (nestPlan namesInParts vars).unsolved = [] ∧ Generator.closure namesInParts.generators vars ≠ vars ∧
    ((Stmt.execAll given namesNest st).projection 1).texts 1 = [["x"], ["y"]] ∧
    ∃ (xs : List (Level × Expr)) (id : Nat) (bs : List Binding) (tuples : List (List String)),
      Sourced (exprAt namesInParts 0) (nestPlan namesInParts vars).levels xs ∧
      Stmt.execAll given namesNest st = (st.setProjection id .nil).runUnder (Stmt.execAll given [.mark 1 [1]]) bs ∧
      bs.map (·.keyTexts? vars.toList) = tuples.map some ∧ tuples.Nodup ∧
      ∀ texts, texts ∈ tuples ↔ ∃ c,
        Level.Satisfies namesInParts.table (st.sourceUnder given) xs (Generator.closure namesInParts.generators vars) st.value? c ∧
          c.keyTexts? vars.toList = some texts := by
  intro vars body input given st
  have hnest : Gives (loopNest namesInParts (exprAt namesInParts 0) ∅ (.single 1) fun _ => return [.mark 1 [1]]) namesNest :=
    ⟨{}, _, rfl⟩
  have hsolved : (nestPlan namesInParts vars).unsolved = [] := by decide
  have hgenerated : ∀ v ∈ Generator.closure namesInParts.generators vars, ∃ g ∈ namesInParts.generators, g.var = v := by decide
  have hclosure : Generator.closure namesInParts.generators vars ≠ vars := by decide
  obtain ⟨xs, inner, hxs, -, hinner, hrun⟩ := nests_run_for_satisfying_assignments hnest hsolved hgenerated
  rw [hinner.pure] at hrun
  have hleaves : State.LeavesSources (Stmt.execAll given [.mark 1 [1]]) xs := by
    intro x _ slot keys _ st
    simp only [Stmt.execAll, Stmt.exec]
    split <;> rfl
  obtain ⟨id, bs, tuples, hexec, -, htuples⟩ := (hrun given st (by decide) (by decide) hleaves).2 hclosure
  exact ⟨hnest, hsolved, hclosure, by decide, xs, id, bs, tuples, hxs, hexec, htuples⟩

end Program

end StarQuery
