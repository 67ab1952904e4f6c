import Mathlib.Data.List.Forall2
import StarQuery.Program.OfNode
import StarQuery.Proofs.Plan.Levels

/-!
# Looking at programs

A view says how much of a program is looked at: whether comments are seen, and whether texts are read. Generation writes
texts but reads none: settings that are alike under a view give programs that are alike under it (`generate_view`). There is
one lemma for each function of generation.
-/

namespace StarQuery

/-- How much of a program is looked at. -/
structure View where
  /-- Whether comments are seen. -/
  comments : Bool
  /-- Whether texts are read: those of comments and reports, and the names of variables. -/
  texts : Bool

namespace View

variable (w : View)

/-- A text as it is seen. -/
def text (t : String) : String := if w.texts then t else ""

mutual
/-- An expression as it is seen. -/
def expr : Expr → Expr
  | .input => .input
  | .const value => .const value
  | .var v => .var v
  | .undefined name => .undefined (w.text name)
  | .get base key => .get (expr base) (expr key)
  | .deepGet base path => .deepGet (expr base) (expr path)
  | .pointwise op args => .pointwise op (exprs args)
  | .singleton arg => .singleton (expr arg)
  | .nop => .nop
  | .slot id keys => .slot id (exprs keys)
/-- Expressions as they are seen. -/
def exprs : List Expr → List Expr
  | [] => []
  | x :: rest => expr x :: exprs rest
end

/-- An action as it is seen. -/
def action : Action → Action
  | .reduce op arg => .reduce op (w.expr arg)
  | .scan op arg => .scan op (w.expr arg)
  | .update keys value => .update (w.exprs keys) (w.expr value)

mutual
/-- A statement as it is seen, nothing if it is not. -/
def stmt : Stmt → List Stmt
  | .comment t => if w.comments then [.comment (w.text t)] else []
  | .error t => [.error (w.text t)]
  | .loop deep v source body => [.loop deep v (w.expr source) (stmts body)]
  | .test deep v source body => [.test deep v (w.expr source) (stmts body)]
  | .project id keys fill body => [.project id keys (stmts fill) (stmts body)]
  | .mark id keys => [.mark id keys]
  | .start slot keys value copy => [.start slot keys (w.expr value) copy]
  | .step slot keys action => [.step slot keys (w.action action)]
/-- Statements as they are seen. -/
def stmts : List Stmt → List Stmt
  | [] => []
  | s :: rest => stmt s ++ stmts rest
end

/-- A diagnostic as it is seen. -/
def diagnostic (d : Diagnostic) : Diagnostic :=
  if w.texts then d else { severity := d.severity, message := "", span := ⟨0, 0⟩ }

/-- A program as it is seen. -/
def program (p : Program) : Program :=
  ⟨w.stmts p.body, w.expr p.result, p.slots, p.projections, ⟨p.table.names.map w.text⟩⟩

/-- A generator as it is seen. -/
def generator (g : Generator) : Generator := { g with text := w.text g.text }

/-- What has been generated so far, as it is seen. -/
def emission (e : Program.Emission) : Program.Emission :=
  { e with stmts := w.stmts e.stmts, diagnostics := e.diagnostics.map w.diagnostic }

/-- Two lists of statements are seen one after the other. -/
@[simp] theorem stmts_append (xs ys : List Stmt) : w.stmts (xs ++ ys) = w.stmts xs ++ w.stmts ys := by
  induction xs with
  | nil => rfl
  | cons x xs ih => rw [List.cons_append, stmts, stmts, ih, List.append_assoc]

/-- Texts that look the same, joined, look the same. -/
theorem text_append {w : View} {a a' b b' : String} (ha : w.text a = w.text a') (hb : w.text b = w.text b') :
    w.text (a ++ b) = w.text (a' ++ b') := by
  cases hw : w.texts with
  | true =>
    simp only [text, hw, if_true] at ha hb
    rw [ha, hb]
  | false => simp [text, hw]

end View

/-! ## Results under a function -/

/-- Two results that are the same under a function are both missing, or both there. -/
theorem cases_of_map_eq {α β : Type} {f : α → β} {x y : Option α} (h : x.map f = y.map f) :
    (x = none ∧ y = none) ∨ ∃ a b, x = some a ∧ y = some b ∧ f a = f b := by
  cases x with
  | none => exact .inl ⟨rfl, Option.map_eq_none_iff.1 h.symm⟩
  | some a =>
    obtain ⟨b, hb, hab⟩ := Option.map_eq_some_iff.1 h.symm
    exact .inr ⟨a, b, rfl, hb, hab.symm⟩

/-- The members of two lists that are the same under a function correspond. -/
theorem forall₂_of_map_eq {α β : Type} {f : α → β} {as bs : List α} (h : as.map f = bs.map f) :
    List.Forall₂ (fun a b => f a = f b) as bs := by
  rwa [← List.forall₂_eq_eq_eq, List.forall₂_map_left_iff, List.forall₂_map_right_iff] at h

namespace Program

variable {w : View} {s s' : Setting}

/-- Settings that are alike under a view: they have the same generators and deep variables, and differ in nothing that is
seen. -/
structure Setting.Alike (w : View) (s s' : Setting) : Prop where
  names : s.table.names.map w.text = s'.table.names.map w.text
  deep : ∀ v, s.table.isDeep v = s'.table.isDeep v
  generators : s.generators.map w.generator = s'.generators.map w.generator
  listing : w.text s.listing = w.text s'.listing
  comments : w.comments = true → s.comments = s'.comments

namespace Setting.Alike

/-- Where texts are read, the tables are the same. -/
theorem table_eq (h : Setting.Alike w s s') (hw : w.texts = true) : s.table = s'.table := by
  have hnames := h.names
  have htext : w.text = id := by
    funext t
    simp [View.text, hw]
  rw [htext, List.map_id, List.map_id] at hnames
  exact congrArg NameTable.mk hnames

/-- What is written with a table reads the same. -/
theorem text (h : Setting.Alike w s s') (f : NameTable → String) : w.text (f s.table) = w.text (f s'.table) := by
  cases hw : w.texts with
  | true => rw [h.table_eq hw]
  | false => simp [View.text, hw]

end Setting.Alike

/-! ## Runs that are alike -/

/-- Two parts of generation that start alike fail both, or end alike with results that look the same under `f`. -/
def RunsAlike {α γ : Type} (w : View) (f : α → γ) (m m' : EmissionM α) : Prop :=
  ∀ e e', w.emission e = w.emission e' →
    (m.run e).map (fun x => (f x.1, w.emission x.2)) = (m'.run e').map fun x => (f x.1, w.emission x.2)

namespace RunsAlike

variable {α β γ δ : Type}

/-- Results that look the same are results of runs that are alike. -/
theorem pure {f : α → γ} {a a' : α} (h : f a = f a') : RunsAlike w f (Pure.pure a) (Pure.pure a') := by
  intro e e' he
  change some (f a, w.emission e) = some (f a', w.emission e')
  rw [h, he]

/-- Runs that are alike, followed by runs that are alike whenever their results look the same, are alike. -/
theorem bind {f : α → γ} {g : β → δ} {m m' : EmissionM α} {k k' : α → EmissionM β} (hm : RunsAlike w f m m')
    (hk : ∀ a a', f a = f a' → RunsAlike w g (k a) (k' a')) : RunsAlike w g (m >>= k) (m' >>= k') := by
  intro e e' he
  rw [StateT.run_bind, StateT.run_bind]
  rcases cases_of_map_eq (hm e e' he) with ⟨hrun, hrun'⟩ | ⟨x, x', hrun, hrun', hx⟩
  · rw [hrun, hrun']
    rfl
  · rw [hrun, hrun']
    obtain ⟨hresult, hend⟩ := Prod.mk.inj hx
    exact hk x.1 x'.1 hresult x.2 x'.2 hend

/-- Results that look the same are changed into results that look the same. -/
theorem map {f : α → γ} {g : β → δ} {m m' : EmissionM α} {k k' : α → β} (hm : RunsAlike w f m m')
    (hk : ∀ a a', f a = f a' → g (k a) = g (k' a')) :
    RunsAlike w g (m >>= fun a => Pure.pure (k a)) (m' >>= fun a => Pure.pure (k' a)) :=
  hm.bind fun a a' h => .pure (hk a a' h)

/-- Numbering and recording are alike, if what they number and record looks the same. -/
theorem modifyGet {f : α → γ} {g g' : Emission → α × Emission}
    (h : ∀ e e', w.emission e = w.emission e' → f (g e).1 = f (g' e').1 ∧ w.emission (g e).2 = w.emission (g' e').2) :
    RunsAlike w f (modifyGet g) (modifyGet g') := by
  intro e e' he
  change some (f (g e).1, w.emission (g e).2) = some (f (g' e').1, w.emission (g' e').2)
  rw [(h e e' he).1, (h e e' he).2]

end RunsAlike

/-- What has been generated looks the same if its statements and reports do and its numbers are the same. -/
theorem emission_eq_iff {e e' : Emission} : w.emission e = w.emission e' ↔
    w.stmts e.stmts = w.stmts e'.stmts ∧ e.assigned = e'.assigned ∧ e.slots = e'.slots ∧ e.projections = e'.projections ∧
      e.diagnostics.map w.diagnostic = e'.diagnostics.map w.diagnostic := by
  simp only [View.emission, Emission.mk.injEq]

/-! ## Reports and numbers -/

section
variable (hs : Setting.Alike w s s')
include hs

/-- Reports whose texts look the same are made alike. -/
theorem runsAlike_report (severity : Severity) {message message' subterm subterm' : String}
    (hmessage : w.text message = w.text message') (hsubterm : w.text subterm = w.text subterm') :
    RunsAlike w id (report s severity message subterm) (report s' severity message' subterm') := by
  refine RunsAlike.modifyGet fun e e' he => ⟨rfl, ?_⟩
  have hdiagnostic : w.diagnostic (.about severity s.listing message subterm) =
      w.diagnostic (.about severity s'.listing message' subterm') := by
    have hlisting := hs.listing
    cases hw : w.texts with
    | true =>
      simp only [View.text, hw, if_true] at hmessage hsubterm hlisting
      rw [hmessage, hsubterm, hlisting]
    | false => simp [View.diagnostic, hw, Diagnostic.about]
  rw [emission_eq_iff] at he ⊢
  refine ⟨he.1, he.2.1, he.2.2.1, he.2.2.2.1, ?_⟩
  rw [List.map_append, List.map_append, he.2.2.2.2, List.map_singleton, List.map_singleton, hdiagnostic]

omit hs in
/-- Slots are numbered alike. -/
theorem runsAlike_newSlot : RunsAlike w id newSlot newSlot := by
  refine RunsAlike.modifyGet fun e e' he => ?_
  rw [emission_eq_iff] at he ⊢
  exact ⟨he.2.2.1, he.1, he.2.1, congrArg (· + 1) he.2.2.1, he.2.2.2⟩

omit hs in
/-- Projections are numbered alike. -/
theorem runsAlike_newProjection : RunsAlike w id newProjection newProjection := by
  refine RunsAlike.modifyGet fun e e' he => ?_
  rw [emission_eq_iff] at he ⊢
  exact ⟨he.2.2.2.1, he.1, he.2.1, he.2.2.1, congrArg (· + 1) he.2.2.2.1, he.2.2.2.2⟩

/-! ## Expressions -/

/-- A variable is bound in both, or undefined in both, if only under another name. -/
theorem runsAlike_varExpr (env : VarSet) (v : Var) : RunsAlike w w.expr (varExpr s env v) (varExpr s' env v) := by
  unfold varExpr
  split
  · exact .pure rfl
  · have hmessage := hs.text fun t => "var '" ++ t.name v ++ "' not defined"
    refine (runsAlike_report hs .error hmessage (hs.text (·.name v))).map fun _ _ _ => ?_
    rw [View.expr, View.expr, hs.text (·.name v)]

theorem runsAlike_varExprs (env : VarSet) (vs : List Var) :
    RunsAlike w w.exprs (varExprs s env vs) (varExprs s' env vs) := by
  induction vs with
  | nil => exact .pure rfl
  | cons v vs ih =>
    refine (runsAlike_varExpr hs env v).bind fun x x' hx => ih.map fun xs xs' hxs => ?_
    rw [View.exprs, View.exprs, hx, hxs]

/-- Slots are given to aggregates alike. -/
def SlotsAlike (w : View) (slotOf slotOf' : Node → EmissionM Nat) : Prop := ∀ n, RunsAlike w id (slotOf n) (slotOf' n)

/-- Expressions are emitted alike. -/
def EmitsAlike (w : View) (emit emit' : Emitter) : Prop := ∀ n env, RunsAlike w w.expr (emit n env) (emit' n env)

/-- An aggregate is read alike, if it gets its slot alike. -/
theorem runsAlike_slotExpr {slotOf slotOf' : Node → EmissionM Nat} (hslot : SlotsAlike w slotOf slotOf') (n : Node)
    (env : VarSet) : RunsAlike w w.expr (slotExpr s slotOf n env) (slotExpr s' slotOf' n env) := by
  refine (hslot n).bind fun slot slot' heq => (runsAlike_varExprs hs env _).map fun xs xs' hxs => ?_
  cases heq
  rw [View.expr, View.expr, hxs]

end

mutual
/-- An expression is emitted alike, if its aggregates get their slots alike. -/
theorem runsAlike_exprWith (hs : Setting.Alike w s s') {slotOf slotOf' : Node → EmissionM Nat}
    (hslot : SlotsAlike w slotOf slotOf') : ∀ (n : Node) (env : VarSet),
    RunsAlike w w.expr (exprWith s slotOf n env) (exprWith s' slotOf' n env)
  | .input _, _ => .pure rfl
  | .const _ _, _ => .pure rfl
  | .var _ v, env => runsAlike_varExpr hs env v
  | .get _ base key, env => by
    have hdeep : s'.table.isDeep = s.table.isDeep := funext fun v => (hs.deep v).symm
    rw [exprWith, exprWith, hdeep]
    refine (runsAlike_exprWith hs hslot base env).bind fun b b' hb => ?_
    refine (runsAlike_exprWith hs hslot key env).map fun k k' hk => ?_
    split <;> rw [View.expr, View.expr, hb, hk]
  | .pointwise _ op args, env => by
    rw [exprWith, exprWith]
    refine (runsAlike_exprsWith hs hslot args env).map fun xs xs' hxs => ?_
    rw [View.expr, View.expr, hxs]
  | .hint _ _ _, _ => .pure rfl
  | .keySet _ arg, env => by
    rw [exprWith, exprWith]
    refine (runsAlike_exprWith hs hslot arg env).map fun x x' hx => ?_
    rw [View.expr, View.expr, hx]
  | .reduce _ _ _ _, env => runsAlike_slotExpr hs hslot _ env
  | .scan _ _ _ _, env => runsAlike_slotExpr hs hslot _ env
  | .update _ _ _ _ _, env => runsAlike_slotExpr hs hslot _ env
/-- The expressions of a list of nodes are generated alike, if their aggregates get their slots alike. -/
theorem runsAlike_exprsWith (hs : Setting.Alike w s s') {slotOf slotOf' : Node → EmissionM Nat}
    (hslot : SlotsAlike w slotOf slotOf') : ∀ (ns : List Node) (env : VarSet),
    RunsAlike w w.exprs (exprsWith s slotOf ns env) (exprsWith s' slotOf' ns env)
  | [], _ => .pure rfl
  | n :: ns, env => by
    rw [exprsWith, exprsWith]
    refine (runsAlike_exprWith hs hslot n env).bind fun x x' hx => ?_
    refine (runsAlike_exprsWith hs hslot ns env).map fun xs xs' hxs => ?_
    rw [View.exprs, View.exprs, hx, hxs]
end

/-! ## Nests -/

section
variable (hs : Setting.Alike w s s') {emit emit' : Emitter} (hemit : EmitsAlike w emit emit')

/-- A level with the expression of its source, as it is seen. -/
def viewLevel (w : View) (x : Level × Expr) : Level × Expr := (x.1.map w.generator, w.expr x.2)

include hemit in
/-- The sources of levels are emitted alike, if expressions are. -/
theorem runsAlike_sourceExprs {levels levels' : List Level}
    (h : levels.map (Level.map w.generator) = levels'.map (Level.map w.generator)) :
    RunsAlike w (List.map (viewLevel w)) (sourceExprs emit levels) (sourceExprs emit' levels') := by
  induction forall₂_of_map_eq h with
  | nil => exact .pure rfl
  | @cons l l' levels levels' hl _ ih =>
    have hsource : l.generator.source = l'.generator.source := congrArg (fun l => l.generator.source) hl
    have hseen : l.seen = l'.seen := congrArg (fun l => l.seen) hl
    rw [sourceExprs, sourceExprs, hsource, hseen]
    refine (hemit _ _).bind fun x x' hx => (ih (List.cons.inj h).2).map fun xs xs' hxs => ?_
    rw [List.map_cons, List.map_cons, hxs, viewLevel, viewLevel, hl, hx]

include hs

/-- What is said of a generator looks the same if the generator does. -/
theorem text_unsolvedText {g g' : Generator} (h : w.generator g = w.generator g') :
    w.text (unsolvedText s g) = w.text (unsolvedText s' g') := by
  have hvar : g.var = g'.var := congrArg (fun g => g.var) h
  have htext : w.text g.text = w.text g'.text := congrArg (fun g => g.text) h
  unfold unsolvedText
  rw [hvar]
  refine View.text_append ?_ htext
  exact hs.text fun t => "unsolved filter ordering problem: " ++ t.name g'.var ++ " := "

/-- Generators that cannot be ordered are reported alike. -/
theorem runsAlike_unsolvedStmts {gs gs' : List Generator} (h : gs.map w.generator = gs'.map w.generator) :
    RunsAlike w w.stmts (unsolvedStmts s gs) (unsolvedStmts s' gs') := by
  induction forall₂_of_map_eq h with
  | nil => exact .pure rfl
  | @cons g g' gs gs' hg _ ih =>
    have htext := text_unsolvedText hs hg
    refine (runsAlike_report hs .warning htext (congrArg (fun g => g.text) hg)).bind fun _ _ _ => ?_
    refine (ih (List.cons.inj h).2).map fun xs xs' hxs => ?_
    rw [View.stmts, View.stmts, View.stmt, View.stmt, htext, hxs]

/-- Levels that look the same around bodies that look the same look the same. -/
theorem stmts_wrap {levels levels' : List (Level × Expr)} {body body' : List Stmt}
    (h : levels.map (viewLevel w) = levels'.map (viewLevel w)) (hbody : w.stmts body = w.stmts body') :
    w.stmts (wrap s levels body) = w.stmts (wrap s' levels' body') := by
  induction forall₂_of_map_eq h with
  | nil => exact hbody
  | @cons x x' levels levels' hx _ ih =>
    have hvar : x.1.generator.var = x'.1.generator.var := congrArg (fun x => x.1.generator.var) hx
    have hfresh : x.1.fresh = x'.1.fresh := congrArg (fun x => x.1.fresh) hx
    have hsource : w.expr x.2 = w.expr x'.2 := congrArg Prod.snd hx
    rw [wrap, wrap]
    simp only [hvar, hfresh, hs.deep]
    split <;> simp only [View.stmts, View.stmt, hsource, ih (List.cons.inj h).2]

include hemit

/-- A nest is the same where its body is. -/
theorem runsAlike_levelNest {scope vars : VarSet} {body body' : VarSet → EmissionM (List Stmt)}
    (hbody : ∀ env, RunsAlike w w.stmts (body env) (body' env)) :
    RunsAlike w w.stmts (levelNest s emit scope vars body) (levelNest s' emit' scope vars body') := by
  have hplan : (Plan.ofGenerators s.generators scope vars).map w.generator =
      (Plan.ofGenerators s'.generators scope vars).map w.generator := by
    rw [← Plan.ofGenerators_map (f := w.generator) (fun _ => rfl) fun _ => rfl, hs.generators,
      Plan.ofGenerators_map (f := w.generator) (fun _ => rfl) fun _ => rfl]
  have hbound : (Plan.ofGenerators s.generators scope vars).bound = (Plan.ofGenerators s'.generators scope vars).bound :=
    congrArg (fun p => p.bound) hplan
  refine (runsAlike_sourceExprs hemit (congrArg (fun p => p.levels) hplan)).bind fun levels levels' hlevels => ?_
  refine (runsAlike_unsolvedStmts hs (congrArg (fun p => p.unsolved) hplan)).bind fun errors errors' herrors => ?_
  rw [hbound]
  refine (hbody _).map fun inner inner' hinner => stmts_wrap hs hlevels ?_
  rw [View.stmts_append, View.stmts_append, herrors, hinner]

/-- A nest is generated alike, with a projection or without it, if its body is. -/
theorem runsAlike_loopNest {scope vars : VarSet} {body body' : VarSet → EmissionM (List Stmt)}
    (hbody : ∀ env, RunsAlike w w.stmts (body env) (body' env)) :
    RunsAlike w w.stmts (loopNest s emit scope vars body) (loopNest s' emit' scope vars body') := by
  have hclosure : Generator.closure s'.generators (vars \ scope) = Generator.closure s.generators (vars \ scope) := by
    rw [← Generator.closure_map (f := w.generator) (fun _ => rfl) fun _ => rfl, ← hs.generators,
      Generator.closure_map (f := w.generator) (fun _ => rfl) fun _ => rfl]
  unfold loopNest
  simp only [hclosure]
  split
  · exact hbody scope
  · split
    · exact runsAlike_levelNest hs hemit hbody
    · refine runsAlike_newProjection.bind fun id id' hid => ?_
      cases hid
      refine (runsAlike_levelNest hs hemit fun _ => .pure rfl).bind fun fill fill' hfill => ?_
      refine (hbody _).map fun inner inner' hinner => ?_
      simp only [View.stmts, View.stmt, hfill, hinner]

/-! ## Blocks -/

omit hemit in
/-- The comments before a block look the same, or are not seen. -/
theorem stmts_titleStmts (slot : Nat) (n : Node) : w.stmts (titleStmts s slot n) = w.stmts (titleStmts s' slot n) := by
  have htitle := hs.text fun t => "tmp" ++ toString slot ++ "[" ++ t.namesOf n.info.free ++ "] = " ++ n.text t
  unfold titleStmts
  cases hw : w.comments with
  | true =>
    rw [hs.comments hw]
    split
    · simp only [View.stmts, View.stmt, htitle]
    · rfl
  | false =>
    -- where comments are not seen, there is no title to be seen
    split <;> split <;> simp [View.stmts, View.stmt, hw]

omit hemit in
/-- The comparison of loops is reported alike. -/
theorem runsAlike_disagreementStmts (slot : Nat) (n : Node) :
    RunsAlike w w.stmts (disagreementStmts s slot n) (disagreementStmts s' slot n) := by
  have htext : w.text (disagreement s slot n) = w.text (disagreement s' slot n) := hs.text fun t =>
    "bound variables of tmp" ++ toString slot ++ " disagree: inferred \x7b" ++ t.namesOf n.info.bound ++
      "\x7d, recomputed \x7b" ++ t.namesOf (loopsOf n) ++ "\x7d"
  unfold disagreementStmts
  split
  · exact .pure rfl
  · refine (runsAlike_report hs .warning htext (hs.text n.text)).map fun _ _ _ => ?_
    simp only [View.stmts, View.stmt, View.text_append rfl htext]

omit hs in
/-- The keys of an update are emitted alike, if expressions are. -/
theorem runsAlike_exprsBy (env : VarSet) (ns : List Node) :
    RunsAlike w w.exprs (exprsBy emit env ns) (exprsBy emit' env ns) := by
  induction ns with
  | nil => exact .pure rfl
  | cons n ns ih =>
    refine (hemit n env).bind fun x x' hx => ih.map fun xs xs' hxs => ?_
    rw [View.exprs, View.exprs, hx, hxs]

omit hs in
/-- An action is generated alike, if expressions are. -/
theorem runsAlike_actionOf? (env : VarSet) (n : Node) :
    RunsAlike w (Option.map w.action) (actionOf? emit env n) (actionOf? emit' env n) := by
  cases n with
  | reduce i op mode arg | scan i op mode arg =>
    refine (hemit arg env).map fun x x' hx => ?_
    rw [Option.map_some, Option.map_some, View.action, View.action, hx]
  | update i base key value filter =>
    refine (runsAlike_exprsBy hemit env (keyNodes key)).bind fun keys keys' hkeys => ?_
    refine (hemit value env).map fun x x' hx => ?_
    rw [Option.map_some, Option.map_some, View.action, View.action, hkeys, hx]
  | _ => exact .pure rfl

theorem runsAlike_startNest (slot : Nat) (n : Node) :
    RunsAlike w w.stmts (startNest s emit slot n) (startNest s' emit' slot n) := by
  unfold startNest
  cases n with
  | reduce i op mode arg =>
    cases hop : op.start with
    | none =>
      simp only [firstState?, hop, Option.map_none]
      exact .pure rfl
    | some value =>
      simp only [firstState?, hop, Option.map_some]
      exact runsAlike_loopNest hs hemit fun _ => .pure rfl
  | scan i op mode arg => exact runsAlike_loopNest hs hemit fun _ => .pure rfl
  | update i base key value filter =>
    refine runsAlike_loopNest hs hemit fun env => ?_
    have hbase : RunsAlike w (Prod.map w.expr id) (emit base env >>= fun x => Pure.pure (x, true))
        (emit' base env >>= fun x => Pure.pure (x, true)) :=
      (hemit base env).map fun x x' hx => by rw [Prod.map_apply, Prod.map_apply, hx]
    refine hbase.map fun x x' hx => ?_
    obtain ⟨hvalue, hcopy⟩ := Prod.mk.inj hx
    have hcopy' : x.2 = x'.2 := hcopy
    simp only [View.stmts, View.stmt, hvalue, hcopy']
  | _ => exact .pure rfl

theorem runsAlike_stepNest (slot : Nat) (n : Node) :
    RunsAlike w w.stmts (stepNest s emit slot n) (stepNest s' emit' slot n) := by
  refine runsAlike_loopNest hs hemit fun env => (runsAlike_actionOf? hemit env n).map fun a a' ha => ?_
  rcases cases_of_map_eq ha with ⟨rfl, rfl⟩ | ⟨a, a', rfl, rfl, haction⟩
  · rfl
  · simp only [Option.toList, List.map_cons, List.map_nil, View.stmts, View.stmt, haction]

/-- The block of an aggregate is generated alike, if expressions are. -/
theorem runsAlike_blockOf (slot : Nat) (n : Node) :
    RunsAlike w w.stmts (blockOf s emit slot n) (blockOf s' emit' slot n) := by
  refine (runsAlike_disagreementStmts hs slot n).bind fun warning warning' hwarning => ?_
  refine (runsAlike_startNest hs hemit slot n).bind fun start start' hstart => ?_
  refine (runsAlike_stepNest hs hemit slot n).map fun steps steps' hsteps => ?_
  simp only [View.stmts_append, stmts_titleStmts hs, hwarning, hstart, hsteps]

/-- Equal aggregates get equal slots, with blocks that look the same. -/
theorem slotsAlike_slotWith : SlotsAlike w (slotWith s emit) (slotWith s' emit') := by
  intro n
  have hget : RunsAlike w w.emission get get := RunsAlike.modifyGet fun e e' he => ⟨he, he⟩
  refine hget.bind fun e e' he => ?_
  rw [(emission_eq_iff.1 he).2.1]
  cases e'.assigned.lookup n.fingerprint with
  | some slot => exact .pure rfl
  | none =>
    refine runsAlike_newSlot.bind fun slot slot' hslot => ?_
    cases hslot
    refine (runsAlike_blockOf hs hemit slot n).bind fun block block' hblock => ?_
    have hfinish : RunsAlike (α := Unit) w id
        (modify fun e => { e with assigned := (n.fingerprint, slot) :: e.assigned, stmts := e.stmts ++ block })
        (modify fun e => { e with assigned := (n.fingerprint, slot) :: e.assigned, stmts := e.stmts ++ block' }) := by
      refine RunsAlike.modifyGet fun e e' he => ⟨rfl, ?_⟩
      rw [emission_eq_iff] at he ⊢
      refine ⟨?_, congrArg ((n.fingerprint, slot) :: ·) he.2.1, he.2.2⟩
      rw [View.stmts_append, View.stmts_append, he.1, hblock]
    exact hfinish.map fun _ _ _ => rfl

omit hemit in
/-- However deep aggregates are nested, expressions are emitted alike. -/
theorem emitsAlike_exprAt (depth : Nat) : EmitsAlike w (exprAt s depth) (exprAt s' depth) := by
  induction depth with
  | zero => exact runsAlike_exprWith hs fun _ _ _ _ => rfl
  | succ depth ih => exact runsAlike_exprWith hs (slotsAlike_slotWith hs ih)

end

/-- Settings that are alike give programs and diagnostics that are alike, or none. -/
theorem generate_view (hs : Setting.Alike w s s') (root : Node) :
    (generate s root).map (fun x => (w.program x.1, x.2.map w.diagnostic)) =
      (generate s' root).map fun x => (w.program x.1, x.2.map w.diagnostic) := by
  have hdepth : maxDepth s root = maxDepth s' root := by
    have hfold : ∀ s : Setting, maxDepth s root =
        (s.generators.map w.generator).foldl (fun n g => n + aggregateCount g.source) (aggregateCount root) := by
      intro s
      rw [List.foldl_map]
      rfl
    rw [hfold s, hs.generators, ← hfold s']
  rw [generate, generate, ← hdepth]
  rcases cases_of_map_eq (emitsAlike_exprAt hs (maxDepth s root) root ∅ {} {} rfl) with
    ⟨hrun, hrun'⟩ | ⟨x, x', hrun, hrun', hx⟩
  · rw [hrun, hrun']
    rfl
  · rw [hrun, hrun']
    obtain ⟨hresult, hend⟩ := Prod.mk.inj hx
    obtain ⟨hstmts, -, hslots, hprojections, hdiagnostics⟩ := emission_eq_iff.1 hend
    simp only [Option.bind_eq_bind, Option.bind_some, Option.pure_def, Option.map_some, View.program, hresult, hstmts, hslots,
      hprojections, hdiagnostics, hs.names]

end Program

end StarQuery
