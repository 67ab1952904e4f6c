import StarQuery.Proofs.Fingerprint
import StarQuery.Proofs.Node.Parts
import StarQuery.Proofs.Plan.Levels
import StarQuery.Proofs.Program.Shape

/-!
# The history of a generated program

The blocks of a program are the blocks of its entries, in the order in which they were finished. Each block refers to slots of
earlier entries only, an expression to slots of finished entries. `Emits` says this of a part of generation, with what the part
reports; there is one lemma for each function of generation, and `generate_history` says it of a whole program.
-/

namespace StarQuery

namespace Program

/-- How far generation is: the entries in the order in which they were finished, and the numbers that are used up. -/
structure Progress where
  entries : List Entry
  slots : Nat
  projections : Nat

/-- Further progress: some entries are new, and their slots were not used before. -/
structure Progress.Adds (G G' : Progress) (new : List Entry) : Prop where
  entries : G'.entries = G.entries ++ new
  slots : G.slots ≤ G'.slots
  projections : G.projections ≤ G'.projections
  fresh : ∀ x ∈ new, G.slots ≤ x.slot

theorem Progress.Adds.refl (G : Progress) : G.Adds G [] :=
  ⟨(List.append_nil _).symm, Nat.le_refl _, Nat.le_refl _, fun _ h => absurd h List.not_mem_nil⟩

/-- Progress after progress adds the entries of both. -/
theorem Progress.Adds.trans {G G' G'' : Progress} {new new' : List Entry} (h : G.Adds G' new) (h' : G'.Adds G'' new') :
    G.Adds G'' (new ++ new') := by
  refine ⟨?_, h.slots.trans h'.slots, h.projections.trans h'.projections, fun x hx => ?_⟩
  · rw [h'.entries, h.entries, List.append_assoc]
  · exact (List.mem_append.1 hx).elim (h.fresh x) fun hx => h.slots.trans (h'.fresh x hx)

/-- No entry is lost. -/
theorem Progress.Adds.subset {G G' : Progress} {new : List Entry} (h : G.Adds G' new) : G.entries ⊆ G'.entries := by
  rw [h.entries]
  exact List.subset_append_left _ _

section
variable (s : Setting) (U : Node → Prop)

/-- Entries that were finished one after the other: the block of each refers to earlier ones, and its slot is its own. -/
inductive Built (limit : Nat) : List Entry → Prop where
  | nil : Built limit []
  | snoc {entries : List Entry} {x : Entry} : Built limit entries → U x.node → x.node.gathers = true →
      BlockOf s entries limit x.slot x.node x.block → (∀ y ∈ entries, y.slot ≠ x.slot) → Built limit (entries ++ [x])

variable {s U} in
/-- Entries stay built when more projections are numbered. -/
theorem Built.mono {limit limit' : Nat} (h : limit ≤ limit') {entries : List Entry} (hb : Built s U limit entries) :
    Built s U limit' entries := by
  induction hb with
  | nil => exact .nil
  | snoc _ hU hg hblock hslot ih => exact .snoc ih hU hg (hblock.mono (List.Subset.refl _) h) hslot

variable {s U} in
/-- No two entries have the same slot. -/
theorem Built.nodup_slots {limit : Nat} {entries : List Entry} (h : Built s U limit entries) :
    (entries.map Entry.slot).Nodup := by
  induction h with
  | nil => exact List.nodup_nil
  | snoc _ _ _ _ hslot ih =>
    rw [List.map_append, List.nodup_append]
    refine ⟨ih, by simp, fun a ha b hb => ?_⟩
    obtain ⟨y, hy, rfl⟩ := List.mem_map.1 ha
    rw [List.mem_singleton.1 hb]
    exact hslot y hy

/-- What has been emitted is what the entries say. -/
structure Holds (e : Emission) (G : Progress) : Prop where
  stmts : e.stmts = G.entries.flatMap Entry.block
  assigned : e.assigned = (G.entries.map fun x => (x.node.fingerprint, x.slot)).reverse
  slots : e.slots = G.slots
  projections : e.projections = G.projections
  built : Built s U G.projections G.entries
  below : ∀ x ∈ G.entries, x.slot < G.slots

/-- A part of generation that starts at `G`: if it succeeds it adds entries, reports `reports` and what the blocks of the new
entries report, and its result is as `P` says. -/
def Emits {α : Type} (m : EmissionM α) (G : Progress) (reports : List Diagnostic) (P : Progress → α → Prop) : Prop :=
  ∀ e a e', Holds s U e G → m.run e = some (a, e') →
    ∃ G' new, G.Adds G' new ∧ Holds s U e' G' ∧
      e'.diagnostics.Perm (e.diagnostics ++ (new.flatMap (Entry.reports s) ++ reports)) ∧ P G' a

variable {s U}

namespace Emits

variable {α β : Type} {G : Progress} {R R' : List Diagnostic}

/-- A result without a run adds nothing and reports nothing. -/
theorem pure {P : Progress → α → Prop} {a : α} (h : P G a) : Emits s U (pure a) G [] P := by
  intro e b e' he hrun
  cases hrun
  refine ⟨G, [], .refl G, he, ?_, h⟩
  simp

/-- One part after another. -/
theorem bind {m : EmissionM α} {f : α → EmissionM β} {P : Progress → α → Prop} {Q : Progress → β → Prop}
    (hm : Emits s U m G R P) (hf : ∀ a G' new, G.Adds G' new → P G' a → Emits s U (f a) G' R' Q) :
    Emits s U (m >>= f) G (R ++ R') Q := by
  intro e b e'' he hrun
  rw [StateT.run_bind, Option.bind_eq_bind, Option.bind_eq_some_iff] at hrun
  obtain ⟨⟨a, e'⟩, hmrun, hfrun⟩ := hrun
  obtain ⟨G', new, hG', he', hperm, ha⟩ := hm e a e' he hmrun
  obtain ⟨G'', new', hG'', he'', hperm', hb⟩ := hf a G' new hG' ha e' b e'' he' hfrun
  refine ⟨G'', new ++ new', hG'.trans hG'', he'', hperm'.trans ((hperm.append_right _).trans ?_), hb⟩
  rw [List.flatMap_append, List.append_assoc, List.append_assoc, List.append_assoc, List.perm_append_left_iff,
    List.perm_append_left_iff]
  exact List.perm_append_comm_assoc _ _ _

/-- More may be said of what is emitted, if it follows. -/
theorem mono {m : EmissionM α} {P Q : Progress → α → Prop} (hm : Emits s U m G R P)
    (h : ∀ G' new a, G.Adds G' new → P G' a → Q G' a) : Emits s U m G R Q := by
  intro e a e' he hrun
  obtain ⟨G', new, hG', he', hperm, ha⟩ := hm e a e' he hrun
  exact ⟨G', new, hG', he', hperm, h G' new a hG' ha⟩

/-- A part whose reports are known in another way. -/
theorem of_reports_eq {m : EmissionM α} {P : Progress → α → Prop} (hm : Emits s U m G R P) (h : R = R') :
    Emits s U m G R' P := h ▸ hm

/-- A change of one result into another. -/
theorem map {m : EmissionM α} {f : α → β} {P : Progress → α → Prop} {Q : Progress → β → Prop} (hm : Emits s U m G R P)
    (h : ∀ G' new a, G.Adds G' new → P G' a → Q G' (f a)) : Emits s U (m >>= fun a => Pure.pure (f a)) G R Q :=
  (hm.bind fun a G' new hG' ha => .pure (h G' new a hG' ha)).of_reports_eq (List.append_nil R)

end Emits

/-! ## Reports and numbers -/

/-- A report is made and nothing else happens. -/
theorem emits_report (G : Progress) (severity : Severity) (message subterm : String) :
    Emits s U (report s severity message subterm) G [Diagnostic.about severity s.listing message subterm]
      fun G' _ => G' = G := by
  intro e a e' he hrun
  cases hrun
  exact ⟨G, [], .refl G, ⟨he.stmts, he.assigned, he.slots, he.projections, he.built, he.below⟩, by simp, rfl⟩

/-- A projection gets the next number. -/
theorem emits_newProjection (G : Progress) :
    Emits s U newProjection G [] fun G' id => id < G'.projections := by
  intro e a e' he hrun
  cases hrun
  refine ⟨{ G with projections := G.projections + 1 }, [], ⟨by simp, Nat.le_refl _, Nat.le_succ _, by simp⟩,
    ⟨he.stmts, he.assigned, he.slots, congrArg (· + 1) he.projections, he.built.mono (Nat.le_succ _), he.below⟩, by simp, ?_⟩
  change e.projections < G.projections + 1
  rw [he.projections]
  exact Nat.lt_succ_self _

/-! ## Expressions -/

/-- A variable is emitted as itself, or reported. -/
theorem emits_varExpr (G : Progress) (env : VarSet) (v : Var) :
    Emits s U (varExpr s env v) G (varReports s env v) fun _ x => x = varOf s env v := by
  unfold varExpr varReports varOf
  split
  · exact .pure rfl
  · exact (emits_report G _ _ _).map fun _ _ _ _ _ => rfl

/-- Variables are emitted one by one. -/
theorem emits_varExprs (G : Progress) (env : VarSet) (vs : List Var) :
    Emits s U (varExprs s env vs) G (vs.flatMap (varReports s env)) fun _ xs => xs = vs.map (varOf s env) := by
  induction vs generalizing G with
  | nil => exact .pure rfl
  | cons v vs ih =>
    refine (emits_varExpr G env v).bind fun x G' _ _ hx => (ih G').map fun _ _ xs _ hxs => ?_
    rw [hx, hxs, List.map_cons]

/-- Slots are given to aggregates as they should be. -/
def SlotsOK (s : Setting) (U : Node → Prop) (slotOf : Node → EmissionM Nat) : Prop :=
  ∀ n G, U n → n.gathers = true →
    Emits s U (slotOf n) G [] fun G' slot => ∃ x ∈ G'.entries, x.node = n ∧ x.slot = slot

/-- Expressions are emitted as they should be. -/
def EmitterOK (s : Setting) (U : Node → Prop) (emit : Emitter) : Prop :=
  ∀ n env G, U n → Emits s U (emit n env) G (exprReports s env n) fun G' x => ExprOf s G'.entries env n x

/-- An aggregate is emitted as the slot of its entry, read by the variables that it takes from around it. -/
theorem emits_slotExpr {slotOf : Node → EmissionM Nat} (hslot : SlotsOK s U slotOf) {n : Node} (hU : U n)
    (hn : n.gathers = true) (env : VarSet) (G : Progress) :
    Emits s U (slotExpr s slotOf n env) G (n.info.free.toList.flatMap (varReports s env)) fun G' x =>
      ExprOf s G'.entries env n x := by
  refine (hslot n G hU hn).bind fun slot G' _ _ hx => (emits_varExprs G' env _).map fun G'' new ks hG'' hks => ?_
  obtain ⟨x, hx, hnode, rfl⟩ := hx
  rw [hks]
  exact .slot hn (hG''.subset hx) hnode

/-- Nodes that are closed under what generation goes on to: their parts, and the sources of the generators. -/
structure Universe (s : Setting) (U : Node → Prop) : Prop where
  part : ∀ {n c : Node}, U n → c ∈ n.children → U c
  source : ∀ g ∈ s.generators, U g.source

mutual
/-- The expression of a node stands for it. -/
theorem emits_exprWith (hc : Universe s U) {slotOf : Node → EmissionM Nat} (hslot : SlotsOK s U slotOf) : ∀ (n : Node), U n →
    ∀ (env : VarSet) (G : Progress),
      Emits s U (exprWith s slotOf n env) G (exprReports s env n) fun G' x => ExprOf s G'.entries env n x
  | .input i, _, env, G => .pure (.input i)
  | .const i value, _, env, G => .pure (.const i value)
  | .var i v, _, env, G => (emits_varExpr G env v).mono fun _ _ x _ hx => hx ▸ .var i v
  | .get i base key, hU, env, G => by
    rw [exprWith, exprReports]
    refine (emits_exprWith hc hslot base (hc.part hU (by simp [Node.children])) env G).bind fun b G' _ _ hb => ?_
    refine (emits_exprWith hc hslot key (hc.part hU (by simp [Node.children])) env G').map fun G'' _ k hG'' hk => ?_
    exact .get (hb.mono hG''.subset) hk
  | .pointwise i op args, hU, env, G => by
    rw [exprWith, exprReports]
    refine (emits_exprsWith hc hslot args (fun n hn => hc.part hU hn) env G).map fun G' _ xs _ hxs => ?_
    exact .pointwise hxs.1 hxs.2
  | .hint i op args, _, env, G => .pure (.hint i op args)
  | .keySet i arg, hU, env, G => by
    rw [exprWith, exprReports]
    exact (emits_exprWith hc hslot arg (hc.part hU List.mem_cons_self) env G).map fun G' _ x _ hx => .keySet hx
  | .reduce i op mode arg, hU, env, G => emits_slotExpr hslot hU rfl env G
  | .scan i op mode arg, hU, env, G => emits_slotExpr hslot hU rfl env G
  | .update i base key value filter, hU, env, G => emits_slotExpr hslot hU rfl env G
/-- The expressions of a list of nodes stand for the nodes, one by one. -/
theorem emits_exprsWith (hc : Universe s U) {slotOf : Node → EmissionM Nat} (hslot : SlotsOK s U slotOf) : ∀ (ns : List Node),
    (∀ n ∈ ns, U n) → ∀ (env : VarSet) (G : Progress),
      Emits s U (exprsWith s slotOf ns env) G (listReports s env ns) fun G' xs =>
        ns.length = xs.length ∧ ∀ p ∈ ns.zip xs, ExprOf s G'.entries env p.1 p.2
  | [], _, env, G => .pure ⟨rfl, fun _ h => absurd h List.not_mem_nil⟩
  | n :: ns, hU, env, G => by
    rw [exprsWith, listReports]
    refine (emits_exprWith hc hslot n (hU n List.mem_cons_self) env G).bind fun x G' _ _ hx => ?_
    refine (emits_exprsWith hc hslot ns (fun m hm => hU m (List.mem_cons_of_mem _ hm)) env G').map fun G'' _ xs hG'' hxs => ?_
    refine ⟨congrArg (· + 1) hxs.1, ?_⟩
    rw [List.zip_cons_cons, List.forall_mem_cons]
    exact ⟨hx.mono hG''.subset, hxs.2⟩
end

/-! ## Nests -/

variable {emit : Emitter} (hc : Universe s U) (hemit : EmitterOK s U emit)
include hemit

/-- The sources of levels are emitted where the levels before them are bound. -/
theorem emits_sourceExprs {levels : List Level} (hU : ∀ l ∈ levels, U l.generator.source) (G : Progress) :
    Emits s U (sourceExprs emit levels) G (levels.flatMap fun l => exprReports s l.seen l.generator.source) fun G' xs =>
      LevelsOf s G'.entries levels xs := by
  induction levels generalizing G with
  | nil => exact .pure ⟨rfl, fun _ h => absurd h List.not_mem_nil⟩
  | cons l levels ih =>
    rw [List.forall_mem_cons] at hU
    refine (hemit _ l.seen G hU.1).bind fun x G' _ _ hx => (ih hU.2 G').map fun G'' _ xs hG'' hxs => ?_
    refine ⟨congrArg (l :: ·) hxs.1, ?_⟩
    rw [List.forall_mem_cons]
    exact ⟨hx.mono hG''.subset, hxs.2⟩

omit hemit in
/-- Generators that cannot be ordered are reported, each with a statement in the program. -/
theorem emits_unsolvedStmts (gs : List Generator) (G : Progress) :
    Emits s U (unsolvedStmts s gs) G (gs.map (unsolvedReport s)) fun _ stmts => stmts = gs.map (unsolvedStmt s) := by
  induction gs generalizing G with
  | nil => exact .pure rfl
  | cons g gs ih =>
    refine (emits_report G _ _ _).bind fun _ G' _ _ _ => (ih G').map fun _ _ stmts _ hstmts => ?_
    rw [hstmts]
    rfl

include hc

/-- The levels of a plan around a body. -/
theorem emits_levelNest {vars : VarSet} {body : VarSet → EmissionM (List Stmt)} {R : List Diagnostic} {G : Progress}
    {P : Progress → List Stmt → Prop}
    (hbody : ∀ G' new, G.Adds G' new → Emits s U (body (planOf s vars).bound) G' R P) :
    Emits s U (levelNest s emit ∅ vars body) G (planReports s (planOf s vars) ++ R) fun G' stmts =>
      ∃ xs inner, LevelsOf s G'.entries (planOf s vars).levels xs ∧ P G' inner ∧
        stmts = wrap s xs ((planOf s vars).unsolved.map (unsolvedStmt s) ++ inner) := by
  have hlevels : ∀ l ∈ (planOf s vars).levels, U l.generator.source := fun l hl =>
    hc.source _ (Plan.mem_levels_ofGenerators hl).1
  rw [planReports, List.append_assoc]
  refine (emits_sourceExprs hemit hlevels G).bind fun xs G1 _ hG1 hxs => ?_
  refine (emits_unsolvedStmts _ G1).bind fun errors G2 _ hG2 herrors => ?_
  refine (hbody G2 _ (hG1.trans hG2)).map fun G3 _ inner hG3 hinner => ?_
  exact ⟨xs, inner, hxs.mono (hG2.trans hG3).subset, hinner, by rw [herrors]; rfl⟩

/-- The levels of a plan around a mark. -/
theorem emits_mark (vars : VarSet) (id : Nat) (keys : List Var) (G : Progress) :
    Emits s U (levelNest s emit ∅ vars fun _ => return [.mark id keys]) G (planReports s (planOf s vars)) fun G' stmts =>
      ∃ xs, LevelsOf s G'.entries (planOf s vars).levels xs ∧
        stmts = wrap s xs ((planOf s vars).unsolved.map (unsolvedStmt s) ++ [.mark id keys]) := by
  have h : Emits s U (levelNest s emit ∅ vars fun _ => return [.mark id keys]) G
      (planReports s (planOf s vars) ++ []) fun G' stmts =>
        ∃ xs inner, LevelsOf s G'.entries (planOf s vars).levels xs ∧ inner = [.mark id keys] ∧
          stmts = wrap s xs ((planOf s vars).unsolved.map (unsolvedStmt s) ++ inner) :=
    emits_levelNest hc hemit fun _ _ _ => .pure rfl
  refine (h.of_reports_eq (List.append_nil _)).mono fun G' _ stmts _ hstmts => ?_
  obtain ⟨xs, _, hxs, rfl, rfl⟩ := hstmts
  exact ⟨xs, hxs, rfl⟩

/-- A nest around a body. -/
theorem emits_loopNest {vars : VarSet} {body : VarSet → EmissionM (List Stmt)} {R : List Diagnostic} {G : Progress}
    {P : Progress → List Stmt → Prop} (hbody : ∀ G', Emits s U (body (nestEnv s vars)) G' R P) :
    Emits s U (loopNest s emit ∅ vars body) G (nestReports s vars R) fun G' stmts =>
      NestOf s G'.entries G'.projections vars (P G') stmts := by
  unfold nestEnv at hbody
  unfold loopNest nestReports
  simp only [sdiff_empty, VarSet.empty_union, VarSet.isEmpty_iff]
  split
  · rename_i hvars
    rw [if_pos hvars] at hbody
    exact (hbody G).mono fun G' _ inner _ hinner => .plain hvars hinner
  · rename_i hvars
    rw [if_neg hvars] at hbody
    split
    · rename_i hclosure
      have hplan : nestPlan s vars = planOf s vars := congrArg (planOf s) hclosure
      rw [if_pos hclosure, hplan] at hbody
      rw [hplan]
      refine (emits_levelNest hc hemit fun G' _ _ => hbody G').mono fun G' _ stmts _ h => ?_
      obtain ⟨xs, inner, hxs, hinner, rfl⟩ := h
      rw [← hplan] at hxs ⊢
      exact .levels hvars hclosure hxs hinner
    · rename_i hclosure
      rw [if_neg hclosure] at hbody
      refine ((emits_newProjection G).bind fun id G1 _ hG1 hid => ?_).of_reports_eq (List.nil_append _)
      refine (emits_mark hc hemit _ id vars.toList G1).bind fun fill G2 _ hG2 hfill => ?_
      refine (hbody G2).map fun G3 _ inner hG3 hinner => ?_
      obtain ⟨xs, hxs, rfl⟩ := hfill
      exact .projected hvars hclosure (Nat.lt_of_lt_of_le hid (hG2.trans hG3).projections) (hxs.mono hG3.subset) hinner

/-! ## Blocks -/

omit hemit hc in
/-- An aggregate whose loops are not those that the analysis found is reported, with a comment in the program. -/
theorem emits_disagreementStmts (slot : Nat) (n : Node) (G : Progress) :
    Emits s U (disagreementStmts s slot n) G (warningReports s slot n) fun _ stmts => stmts = warningStmts s slot n := by
  unfold disagreementStmts warningReports warningStmts
  split
  · exact .pure rfl
  · exact (emits_report G _ _ _).map fun _ _ _ _ _ => rfl

omit hc in
/-- Expressions are emitted one by one, for the keys of an update. -/
theorem emits_exprsBy {ns : List Node} (hU : ∀ n ∈ ns, U n) (env : VarSet) (G : Progress) :
    Emits s U (exprsBy emit env ns) G (listReports s env ns) fun G' xs =>
      ns.length = xs.length ∧ ∀ p ∈ ns.zip xs, ExprOf s G'.entries env p.1 p.2 := by
  induction ns generalizing G with
  | nil => exact .pure ⟨rfl, fun _ h => absurd h List.not_mem_nil⟩
  | cons n ns ih =>
    rw [List.forall_mem_cons] at hU
    rw [listReports]
    refine (hemit n env G hU.1).bind fun x G' _ _ hx => (ih hU.2 G').map fun G'' _ xs hG'' hxs => ?_
    refine ⟨congrArg (· + 1) hxs.1, ?_⟩
    rw [List.zip_cons_cons, List.forall_mem_cons]
    exact ⟨hx.mono hG''.subset, hxs.2⟩

omit hemit in
/-- The parts of the key of an update are among the nodes that generation goes on to. -/
theorem Universe.keyNodes {key : Node} (hkey : U key) : ∀ n ∈ keyNodes key, U n := by
  intro n hn
  unfold Program.keyNodes at hn
  split at hn
  · exact hc.part hkey hn
  · rwa [List.mem_singleton.1 hn]

/-- Every aggregate has an action. -/
theorem emits_actionOf? {n : Node} (hU : U n) (hn : n.gathers = true) (env : VarSet) (G : Progress) :
    Emits s U (actionOf? emit env n) G (actionReports s env n) fun G' a =>
      ∃ action, a = some action ∧ ActionOf s G'.entries env n action := by
  cases n with
  | reduce i op mode arg =>
    refine (hemit arg env G (hc.part hU List.mem_cons_self)).map fun G' _ x _ hx => ?_
    exact ⟨_, rfl, .reduce hx⟩
  | scan i op mode arg =>
    refine (hemit arg env G (hc.part hU List.mem_cons_self)).map fun G' _ x _ hx => ?_
    exact ⟨_, rfl, .scan hx⟩
  | update i base key value filter =>
    have hkey : U key := hc.part hU Node.key_mem_children
    have hvalue : U value := hc.part hU Node.value_mem_children
    refine (emits_exprsBy hemit (hc.keyNodes hkey) env G).bind fun ks G' _ _ hks => ?_
    refine (hemit value env G' hvalue).map fun G'' _ x hG'' hx => ?_
    exact ⟨_, rfl, .update hks.1 (fun p hp => (hks.2 p hp).mono hG''.subset) hx⟩
  | _ => cases hn

/-- The first states of an aggregate that has one. -/
theorem emits_start {n : Node} {slot : Nat} (hfirst : hasFirst n = true) {state : VarSet → EmissionM (Expr × Bool)}
    (hstate : ∀ env G, Emits s U (state env) G (firstReports s env n) fun G' r => FirstOf s G'.entries env n r.1 r.2)
    (G : Progress) :
    Emits s U (loopNest s emit ∅ n.info.free fun env => do
        let (value, copy) ← state env
        return [.start slot n.info.free.toList value copy]) G
      (if hasFirst n then nestReports s n.info.free (firstReports s (nestEnv s n.info.free) n) else []) fun G' stmts =>
        StartOf s G'.entries G'.projections slot n stmts := by
  rw [if_pos hfirst]
  refine (emits_loopNest (P := fun G' inner => ∃ x copy, FirstOf s G'.entries (nestEnv s n.info.free) n x copy ∧
    inner = [.start slot n.info.free.toList x copy]) hc hemit fun G' => ?_).mono fun G' _ stmts _ h => .inr ⟨hfirst, h⟩
  exact (hstate _ G').map fun G'' _ r _ hr => ⟨r.1, r.2, hr, rfl⟩

/-- The nest of the first states of an aggregate, if it has one. -/
theorem emits_startNest {n : Node} (hU : U n) (slot : Nat) (G : Progress) :
    Emits s U (startNest s emit slot n) G
      (if hasFirst n then nestReports s n.info.free (firstReports s (nestEnv s n.info.free) n) else []) fun G' stmts =>
        StartOf s G'.entries G'.projections slot n stmts := by
  unfold startNest
  cases n with
  | reduce i op mode arg =>
    cases hop : op.start with
    | none =>
      have hfirst : hasFirst (.reduce i op mode arg) = false := by simp [hasFirst, hop]
      simp only [firstState?, hop, Option.map_none, hfirst]
      exact .pure (.inl ⟨hfirst, rfl⟩)
    | some value =>
      have hfirst : hasFirst (.reduce i op mode arg) = true := by simp [hasFirst, hop]
      simp only [firstState?, hop, Option.map_some]
      exact emits_start hc hemit hfirst (fun env G' => .pure (.reduce hop)) G
  | scan i op mode arg => exact emits_start hc hemit rfl (fun env G' => .pure (.scan i op mode arg)) G
  | update i base key value filter =>
    refine emits_start hc hemit rfl (fun env G' => ?_) G
    exact (hemit base env G' (hc.part hU Node.base_mem_children)).map fun G'' _ x _ hx => .update hx
  | _ => exact .pure (.inl ⟨rfl, rfl⟩)

/-- The nest of the steps of an aggregate. -/
theorem emits_stepNest {n : Node} (hU : U n) (hn : n.gathers = true) (slot : Nat) (G : Progress) :
    Emits s U (stepNest s emit slot n) G
      (nestReports s (n.info.free ∪ n.info.bound) (actionReports s (nestEnv s (n.info.free ∪ n.info.bound)) n))
      fun G' stmts => StepsOf s G'.entries G'.projections slot n stmts := by
  refine emits_loopNest (P := fun G' inner => ∃ action,
    ActionOf s G'.entries (nestEnv s (n.info.free ∪ n.info.bound)) n action ∧
      inner = [.step slot n.info.free.toList action]) hc hemit fun G' => ?_
  refine (emits_actionOf? hc hemit hU hn _ G').map fun G'' _ a _ ha => ?_
  obtain ⟨action, rfl, haction⟩ := ha
  exact ⟨action, haction, rfl⟩

/-- The block of an aggregate: its comments, the nest of its first states and the nest of its steps. -/
theorem emits_blockOf {n : Node} (hU : U n) (hn : n.gathers = true) (slot : Nat) (G : Progress) :
    Emits s U (blockOf s emit slot n) G (blockReports s slot n) fun G' block =>
      BlockOf s G'.entries G'.projections slot n block := by
  rw [blockReports, List.append_assoc]
  refine (emits_disagreementStmts slot n G).bind fun warning G1 _ _ hwarning => ?_
  refine (emits_startNest hc hemit hU slot G1).bind fun start G2 _ _ hstart => ?_
  refine (emits_stepNest hc hemit hU hn slot G2).map fun G3 _ steps hG3 hsteps => ?_
  exact ⟨start, steps, hstart.mono hG3.subset hG3.projections, hsteps, by rw [hwarning]⟩

omit hemit hc in
/-- What is looked up is there. -/
theorem mem_of_lookup {xs : List (String × Nat)} {key : String} {slot : Nat} (h : xs.lookup key = some slot) :
    (key, slot) ∈ xs := by
  obtain ⟨before, after, rfl, -⟩ := List.lookup_eq_some_iff.1 h
  simp

omit hemit hc in
/-- What getting a slot can do: an aggregate that has one keeps it, and one that has none is given the next number, under which
its block is put after the blocks that were finished on the way. -/
theorem slotWith_cases {n : Node} {e e' : Emission} {slot : Nat} (hrun : (slotWith s emit n).run e = some (slot, e')) :
    (e.assigned.lookup n.fingerprint = some slot ∧ e' = e) ∨
    (e.assigned.lookup n.fingerprint = none ∧ slot = e.slots ∧
      ∃ block e2, (blockOf s emit e.slots n).run { e with slots := e.slots + 1 } = some (block, e2) ∧
        e' = { e2 with assigned := (n.fingerprint, e.slots) :: e2.assigned, stmts := e2.stmts ++ block }) := by
  unfold slotWith at hrun
  simp only [StateT.run_bind, StateT.run_get, Option.pure_def, Option.bind_eq_bind, Option.bind_some] at hrun
  cases hlookup : e.assigned.lookup n.fingerprint with
  | some slot =>
    rw [hlookup] at hrun
    cases hrun
    exact .inl ⟨rfl, rfl⟩
  | none =>
    rw [hlookup] at hrun
    change StateT.run (blockOf s emit e.slots n >>= fun block => modify (fun e' =>
      { e' with assigned := (n.fingerprint, e.slots) :: e'.assigned, stmts := e'.stmts ++ block }) >>= fun _ =>
        pure e.slots) { e with slots := e.slots + 1 } = some (slot, e') at hrun
    rw [StateT.run_bind, Option.bind_eq_bind, Option.bind_eq_some_iff] at hrun
    obtain ⟨⟨block, e2⟩, hblock, hrest⟩ := hrun
    cases hrest
    exact .inr ⟨rfl, rfl, block, e2, hblock, rfl⟩

/-- An aggregate gets the slot of an equal one, or a block of its own after all blocks that it refers to. -/
theorem slotsOK_slotWith : SlotsOK s U (slotWith s emit) := by
  intro n G hU hn e a e' he hrun
  obtain ⟨hlookup, rfl⟩ | ⟨-, rfl, block, e2, hblock, rfl⟩ := slotWith_cases hrun
  · refine ⟨G, [], .refl G, he, by simp, ?_⟩
    have hmem := mem_of_lookup hlookup
    rw [he.assigned, List.mem_reverse, List.mem_map] at hmem
    obtain ⟨x, hx, heq⟩ := hmem
    exact ⟨x, hx, Node.fingerprint_inj (Prod.mk.inj heq).1, (Prod.mk.inj heq).2⟩
  · let G1 : Progress := { G with slots := G.slots + 1 }
    have he1 : Holds s U { e with slots := e.slots + 1 } G1 :=
      ⟨he.stmts, he.assigned, congrArg (· + 1) he.slots, he.projections, he.built, fun x hx => Nat.lt_succ_of_lt (he.below x hx)⟩
    obtain ⟨G2, new, hG2, he2, hperm, hshape⟩ := emits_blockOf hc hemit hU hn e.slots G1 _ _ _ he1 hblock
    -- the slot was counted before the block was made, so neither older nor newer entries have it
    have hfresh : ∀ y ∈ G2.entries, y.slot ≠ e.slots := by
      intro y hy
      rw [hG2.entries] at hy
      rw [he.slots]
      rcases List.mem_append.1 hy with hy | hy
      · exact (he.below y hy).ne
      · exact (Nat.lt_of_succ_le (hG2.fresh y hy)).ne'
    have hlt : e.slots < G2.slots := by
      rw [he.slots]
      exact Nat.lt_of_succ_le hG2.slots
    let x : Entry := ⟨n, e.slots, block⟩
    refine ⟨{ G2 with entries := G2.entries ++ [x] }, new ++ [x], ⟨?_, ?_, hG2.projections, ?_⟩, ⟨?_, ?_, he2.slots,
      he2.projections, .snoc he2.built hU hn hshape hfresh, ?_⟩, ?_, x, by simp, rfl, rfl⟩
    · rw [← List.append_assoc]
      exact congrArg (· ++ [x]) hG2.entries
    · exact (Nat.le_succ _).trans hG2.slots
    · intro y hy
      rcases List.mem_append.1 hy with hy | hy
      · exact (Nat.le_succ _).trans (hG2.fresh y hy)
      · rw [List.mem_singleton.1 hy]
        exact he.slots.ge
    · rw [List.flatMap_append, ← he2.stmts]
      simp [x]
    · rw [List.map_append, List.reverse_append, ← he2.assigned]
      rfl
    · intro y hy
      rcases List.mem_append.1 hy with hy | hy
      · exact he2.below y hy
      · rw [List.mem_singleton.1 hy]
        exact hlt
    · refine hperm.trans (List.Perm.of_eq ?_)
      simp [Entry.reports, x]

omit hemit in
/-- Expressions are emitted as they should be, however deep aggregates are nested. -/
theorem emitterOK_exprAt (depth : Nat) : EmitterOK s U (exprAt s depth) := by
  induction depth with
  | zero =>
    have hslot : SlotsOK s U fun _ => failure := fun _ _ _ _ _ _ _ _ hrun => nomatch hrun
    exact fun n env G hU => emits_exprWith hc hslot n hU env G
  | succ depth ih => exact fun n env G hU => emits_exprWith hc (slotsOK_slotWith hc ih) n hU env G

omit hemit hc in
/-- Generation starts without entries. -/
theorem holds_start : Holds s U {} ⟨[], 0, 0⟩ where
  stmts := rfl
  assigned := rfl
  slots := rfl
  projections := rfl
  built := .nil
  below _ h := absurd h List.not_mem_nil

omit hemit hc in
/-- A generated program is what has been emitted after the expression of the root. -/
theorem run_of_generate {root : Node} {program : Program} {diagnostics : List Diagnostic}
    (h : generate s root = some (program, diagnostics)) :
    ∃ e, (exprAt s (maxDepth s root) root ∅).run {} = some (program.result, e) ∧
      program = ⟨e.stmts, program.result, e.slots, e.projections, s.table⟩ ∧ e.diagnostics = diagnostics := by
  unfold generate at h
  rw [Option.bind_eq_bind, Option.bind_eq_some_iff] at h
  obtain ⟨⟨result, e⟩, hrun, hresult⟩ := h
  cases hresult
  exact ⟨e, hrun, rfl, rfl⟩

omit hemit in
/-- The blocks of a program are those of entries finished one after the other, its result is the expression of the root, and
what is reported is what the entries and the root report. -/
theorem generate_history {root : Node} (hU : U root) {program : Program} {diagnostics : List Diagnostic}
    (h : generate s root = some (program, diagnostics)) :
    ∃ entries, Built s U program.projections entries ∧ (∀ x ∈ entries, x.slot < program.slots) ∧
      program.body = entries.flatMap Entry.block ∧ ExprOf s entries ∅ root program.result ∧ program.table = s.table ∧
      diagnostics.Perm (entries.flatMap (Entry.reports s) ++ exprReports s ∅ root) := by
  obtain ⟨e, hrun, hprogram, rfl⟩ := run_of_generate h
  obtain ⟨G, new, hG, he, hperm, hexpr⟩ := emitterOK_exprAt hc _ root ∅ _ hU _ _ _ holds_start hrun
  have hentries : G.entries = new := hG.entries
  rw [hprogram]
  refine ⟨G.entries, he.projections ▸ he.built, fun x hx => he.slots ▸ he.below x hx, he.stmts, hexpr, rfl, ?_⟩
  rw [hentries]
  exact hperm

end

end Program

end StarQuery
