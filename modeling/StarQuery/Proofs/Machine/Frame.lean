import StarQuery.Proofs.Machine.Reaches

/-!
# What a run leaves as it is

A relation between an earlier and a later state that lasts while variables are given values, and that every statement respects in what
it does itself, holds between the beginning of a run and its end (`rel_execAll`), and between the beginning and every state that the
run passes through (`Reaches.rel`). The contents of a slot that no statement names stay the same in this way, and so do the tuples of a
projection, and the number of places for variables, slots and projections. So a statement that finds all its places at the
beginning finds them whenever it is run.
-/

namespace StarQuery

namespace State

/-- A relation between an earlier and a later state that lasts: it holds if nothing happens, if one thing happens after another, and
if a variable is given a value or loses it. -/
structure Lasting (R : State → State → Prop) : Prop where
  refl : ∀ st, R st st
  trans : ∀ {a b c}, R a b → R b c → R a c
  setVar : ∀ st v x, R st (st.setVar v x)

/-- What can be seen of a state without the values of the variables. -/
theorem lasting_of_view {α : Type} {view : State → α} (h : ∀ st v x, view (st.setVar v x) = view st) :
    Lasting fun st st' => view st' = view st where
  refl _ := rfl
  trans hab hbc := hbc.trans hab
  setVar := h

/-- The number of places that a state has for variables, for slots and for projections. -/
def shape (st : State) : Nat × Nat × Nat := (st.env.length, st.slots.length, st.projections.length)

/-- Giving a variable a value makes no place. -/
theorem lasting_shape : Lasting fun st st' => st'.shape = st.shape :=
  lasting_of_view fun st v x => by simp [shape, setVar]

namespace Lasting

variable {R : State → State → Prop} (hR : Lasting R)
include hR

/-- What lasts holds after rounds that give a variable one value after the other. -/
theorem rounds {α : Type} {run : α → State → State} (hrun : ∀ a st, R st (run a st)) (key : α → Json) (v : Var)
    (items : List α) (st : State) : R st (items.foldl (fun st a => run a (st.setVar v (some (key a)))) st) := by
  induction items generalizing st with
  | nil => exact hR.refl st
  | cons a items ih => exact hR.trans (hR.setVar st v _) (hR.trans (hrun a _) (ih _))

/-- What lasts holds after a loop that runs through values. -/
theorem forEach {run : State → State} (hrun : ∀ st, R st (run st)) (v : Var) (values : List Json) (st : State) :
    R st (forEach run v values st) :=
  hR.trans (hR.rounds (fun _ => hrun) (fun value => value) v values st) (hR.setVar _ v _)

/-- What lasts holds after a loop that runs through the tuples of a tree. -/
theorem forTuples {run : State → State} (hrun : ∀ st, R st (run st)) (keys : List Var) (tree : KeyTree) (st : State) :
    R st (forTuples run keys tree st) := by
  induction keys generalizing tree st with
  | nil => exact hrun st
  | cons v vs ih => exact hR.trans (hR.rounds (fun item => ih item.2) Prod.fst v tree.entries st) (hR.setVar _ v _)

/-- What lasts holds at every tuple that such a loop visits. -/
theorem visits {run : State → State} (hrun : ∀ st, R st (run st)) {keys : List Var} {tree : KeyTree} {st st' : State}
    (h : Visits run keys tree st st') : R st st' := by
  induction h with
  | here tree st => exact hR.refl st
  | @next v vs tree below key before after st st' _ _ ih =>
    have hbefore := hR.rounds (fun (item : Json × KeyTree) => hR.forTuples hrun vs item.2) Prod.fst v before st
    exact hR.trans hbefore (hR.trans (hR.setVar _ v _) ih)

end Lasting

end State

/-! ## Changes -/

/-- Reading a list gives as many results as it has members. -/
theorem length_of_mapM {α β : Type} {f : α → Option β} {xs : List α} {ys : List β} (h : xs.mapM f = some ys) :
    ys.length = xs.length := by
  induction xs generalizing ys with
  | nil =>
    cases h
    rfl
  | cons x xs ih =>
    rw [List.mapM_cons] at h
    obtain ⟨y, -, h⟩ := Option.bind_eq_some_iff.1 h
    obtain ⟨rest, hrest, h⟩ := Option.bind_eq_some_iff.1 h
    cases h
    rw [List.length_cons, List.length_cons, ih hrest]

/-- There are as many key texts as there are variables. -/
theorem State.length_of_keyTexts? {st : State} {vs : List Var} {path : List String} (h : st.keyTexts? vs = some path) :
    path.length = vs.length := by
  obtain ⟨values, hvalues, rfl⟩ := Option.map_eq_some_iff.1 h
  rw [List.length_map, length_of_mapM hvalues]

/-- No action makes nothing of something. -/
theorem Action.isSome_of_change? {given : Given} {st : State} {action : Action} {f : Option Json → Option Json}
    (h : action.change? given st = some f) (v : Json) : (f (some v)).isSome = true := by
  cases action with
  | reduce op arg =>
    cases h
    cases arg.eval given st <;> rfl
  | scan op arg =>
    obtain ⟨x, -, rfl⟩ := Option.map_eq_some_iff.1 h
    rfl
  | update keys value =>
    obtain ⟨path, -, h⟩ := Option.bind_eq_some_iff.1 h
    obtain ⟨x, -, rfl⟩ := Option.map_eq_some_iff.1 h
    rfl

namespace Stmt

/-! ## Runs -/

/-- What a statement does itself, apart from the statements in it, is as a relation says. -/
def Respects (given : Given) (R : State → State → Prop) : Stmt → Prop
  | .project id _ _ _ => ∀ st, R st (st.setProjection id .nil)
  | .mark id keys => ∀ st, R st (exec given (.mark id keys) st)
  | .start slot keys value copy => ∀ st, R st (exec given (.start slot keys value copy) st)
  | .step slot keys action => ∀ st, R st (exec given (.step slot keys action) st)
  | .comment _ | .error _ | .loop .. | .test .. => True

theorem every_cons {p : Stmt → Prop} {s : Stmt} {rest : List Stmt} :
    Every p (s :: rest) ↔ (∀ t ∈ nested s, p t) ∧ Every p rest := List.forall_mem_append

section
variable {given : Given} {R : State → State → Prop} (hR : State.Lasting R)
include hR

mutual
/-- A relation that lasts, and that all statements in a statement respect, holds between its beginning and its end. -/
theorem rel_exec : ∀ (s : Stmt), (∀ t ∈ nested s, t.Respects given R) → ∀ st, R st (s.exec given st)
  | .comment _, _, st | .error _, _, st => hR.refl st
  | .loop deep v source body, h, st => by
    rw [nested, List.forall_mem_cons] at h
    rw [exec]
    split
    · exact hR.refl st
    · exact hR.forEach (rel_execAll body h.2) v _ st
  | .test deep v source body, h, st => by
    rw [nested, List.forall_mem_cons] at h
    rw [exec]
    split
    · split
      · exact rel_execAll body h.2 st
      · exact hR.refl st
    · exact hR.refl st
  | .project id keys fill body, h, st => by
    rw [nested, List.forall_mem_cons, List.forall_mem_append] at h
    obtain ⟨hid, hfill, hbody⟩ := h
    have hfilled := hR.trans (hid st) (rel_execAll fill hfill _)
    exact hR.trans (hR.trans hfilled (hid _)) (hR.forTuples (rel_execAll body hbody) keys _ _)
  | .mark id keys, h, st => h _ (List.mem_singleton_self _) st
  | .start slot keys value copy, h, st => h _ (List.mem_singleton_self _) st
  | .step slot keys action, h, st => h _ (List.mem_singleton_self _) st
/-- A relation that lasts, and that all statements respect, holds between the beginning of a run and its end. -/
theorem rel_execAll : ∀ (stmts : List Stmt), Every (Respects given R) stmts → ∀ st, R st (execAll given stmts st)
  | [], _, st => hR.refl st
  | s :: rest, h, st => hR.trans (rel_exec s (every_cons.1 h).1 st) (rel_execAll rest (every_cons.1 h).2 _)
end

/-- It also holds between the beginning of a run and every state in which a statement is run. -/
theorem Reaches.rel {stmts : List Stmt} {t : Stmt} {st st' : State} (hreach : Reaches given stmts st t st')
    (h : Every (Respects given R) stmts) : R st st' := by
  induction hreach with
  | here s rest st => exact hR.refl st
  | @later s t rest st st' _ ih =>
    exact hR.trans (rel_exec hR s (every_cons.1 h).1 st) (ih (every_cons.1 h).2)
  | @loop deep v source body rest st st' t collection value before after _ _ _ ih =>
    have hs := (every_cons.1 h).1
    rw [nested, List.forall_mem_cons] at hs
    have hbefore := hR.rounds (fun _ => rel_execAll hR body hs.2) (fun value => value) v before st
    exact hR.trans hbefore (hR.trans (hR.setVar _ v _) (ih hs.2))
  | test _ _ _ _ ih =>
    have hs := (every_cons.1 h).1
    rw [nested, List.forall_mem_cons] at hs
    exact ih hs.2
  | fill _ ih =>
    have hs := (every_cons.1 h).1
    rw [nested, List.forall_mem_cons, List.forall_mem_append] at hs
    exact hR.trans (hs.1 _) (ih hs.2.1)
  | @project id keys fill body rest st filled st' st'' t hfilled hvisits _ ih =>
    have hs := (every_cons.1 h).1
    rw [nested, List.forall_mem_cons, List.forall_mem_append] at hs
    obtain ⟨hid, hfill, hbody⟩ := hs
    have htuples : R st (filled.setProjection id .nil) := by
      rw [← hfilled]
      exact hR.trans (hR.trans (hid st) (rel_execAll hR fill hfill _)) (hid _)
    exact hR.trans htuples (hR.trans (hR.visits (rel_execAll hR body hbody) hvisits) (ih hbody))

end

/-! ## What statements name -/

/-- The slot that a statement changes itself, with its keys. -/
def writes? : Stmt → Option (Nat × List Var)
  | .start slot keys _ _ | .step slot keys _ => some (slot, keys)
  | _ => none

/-- The projection that a statement changes itself. -/
def collects? : Stmt → Option Nat
  | .project id _ _ _ | .mark id _ => some id
  | _ => none

/-- The variables that a statement names itself, apart from those of its expressions. -/
def vars : Stmt → List Var
  | .loop _ v _ _ | .test _ v _ _ => [v]
  | .project _ keys _ _ | .mark _ keys | .start _ keys _ _ | .step _ keys _ => keys
  | .comment _ | .error _ => []

/-- The slots that the first states and the steps in statements name. -/
def written (stmts : List Stmt) : List Nat := (select writes? stmts).map Prod.fst

/-- The projections that the projections and the marks in statements name. -/
def collected (stmts : List Stmt) : List Nat := select collects? stmts

/-- All that a statement names has its place in a state: the variables and the slots, those of its expressions included, and the
projection. -/
structure Fits (st : State) (s : Stmt) : Prop where
  vars : ∀ v ∈ s.vars, v < st.env.length
  slot : ∀ x ∈ s.writes?, x.1 < st.slots.length
  projection : ∀ id ∈ s.collects?, id < st.projections.length
  exprVars : ∀ x ∈ s.exprs, ∀ v, .var v ∈ x.parts → v < st.env.length
  exprSlots : ∀ x ∈ s.exprs, ∀ slot keys, .slot slot keys ∈ x.parts → slot < st.slots.length

variable {given : Given} {s : Stmt} {stmts : List Stmt} {st st' : State}

/-- All that a statement does itself is a change of the slot that it names, at as many key texts as it has keys and without making
nothing of something, or a change of the projection that it names. -/
theorem respects_of_names {R : State → State → Prop} (hrefl : ∀ st, R st st)
    (hslot : ∀ x ∈ s.writes?, ∀ st path f, path.length = x.2.length → (∀ v, (f (some v)).isSome = true) →
      R st (st.alterSlot x.1 path f))
    (hprojection : ∀ id ∈ s.collects?, ∀ st tree, R st (st.setProjection id tree)) : s.Respects given R := by
  cases s with
  | comment | error | loop | test => trivial
  | project id keys fill body => exact fun st => hprojection id rfl st _
  | mark id keys =>
    intro st
    rw [exec]
    split
    · exact hrefl st
    · exact hprojection id rfl st _
  | start slot keys value copy =>
    intro st
    rw [exec]
    split
    · rename_i path first hpath _
      exact hslot (slot, keys) rfl st path _ (State.length_of_keyTexts? hpath) fun _ => rfl
    · exact hrefl st
  | step slot keys action =>
    intro st
    rw [exec]
    split
    · rename_i path change hpath hchange
      exact hslot (slot, keys) rfl st path change (State.length_of_keyTexts? hpath) (Action.isSome_of_change? hchange)
    · exact hrefl st

/-! ## Frames -/

/-- A slot that no statement names holds what it held. -/
theorem slots_execAll {slot : Nat} (h : slot ∉ written stmts) (st : State) :
    (execAll given stmts st).slots[slot]? = st.slots[slot]? := by
  have hlasting : State.Lasting fun st st' => st'.slots[slot]? = st.slots[slot]? :=
    State.lasting_of_view fun _ _ _ => rfl
  refine rel_execAll hlasting stmts (fun s hs => respects_of_names hlasting.refl (fun x hx st path f _ _ => ?_) fun _ _ _ _ => rfl) st
  have hne : x.1 ≠ slot := fun heq => h (heq ▸ List.mem_map_of_mem (List.mem_filterMap.2 ⟨s, hs, hx⟩))
  rw [State.alterSlot, List.getElem?_modify_ne _ _ hne]

/-- A projection that no statement names has the tuples that it had. -/
theorem projections_execAll {id : Nat} (h : id ∉ collected stmts) (st : State) :
    (execAll given stmts st).projections[id]? = st.projections[id]? := by
  have hlasting : State.Lasting fun st st' => st'.projections[id]? = st.projections[id]? :=
    State.lasting_of_view fun _ _ _ => rfl
  refine rel_execAll hlasting stmts (fun s hs => respects_of_names hlasting.refl (fun _ _ _ _ _ _ _ => rfl) fun id' hid' st tree => ?_) st
  have hne : id' ≠ id := fun heq => h (heq ▸ List.mem_filterMap.2 ⟨s, hs, hid'⟩)
  rw [State.setProjection, List.getElem?_set_ne hne]

/-! ## Places -/

/-- No statement makes or removes places. -/
theorem respects_shape (s : Stmt) : s.Respects given fun st st' => st'.shape = st.shape := by
  refine respects_of_names State.lasting_shape.refl (fun x _ st path f _ _ => ?_) fun id _ st tree => ?_
  · simp [State.shape, State.alterSlot]
  · simp [State.shape, State.setProjection]

/-- A run leaves as many places as there were. -/
theorem shape_execAll (stmts : List Stmt) (st : State) : (execAll given stmts st).shape = st.shape :=
  rel_execAll State.lasting_shape stmts (fun s _ => respects_shape s) st

/-- Whether all has its place depends on the number of places only. -/
theorem Fits.of_shape (h : s.Fits st) (hshape : st'.shape = st.shape) : s.Fits st' := by
  simp only [State.shape, Prod.mk.injEq] at hshape
  obtain ⟨henv, hslots, hprojections⟩ := hshape
  constructor
  · exact henv ▸ h.vars
  · exact hslots ▸ h.slot
  · exact hprojections ▸ h.projection
  · exact henv ▸ h.exprVars
  · exact hslots ▸ h.exprSlots

theorem self_mem_nested (s : Stmt) : s ∈ nested s := by
  cases s <;> simp [nested]

/-- What is reached in a run is one of the statements. -/
theorem Reaches.mem_listNested {t : Stmt} (h : Reaches given stmts st t st') : t ∈ listNested stmts := by
  induction h with
  | here s rest st => exact List.mem_append_left _ (self_mem_nested s)
  | later _ ih => exact List.mem_append_right _ ih
  | loop _ _ _ ih | test _ _ _ _ ih => exact List.mem_append_left _ (List.mem_cons_of_mem _ ih)
  | fill _ ih => exact List.mem_append_left _ (List.mem_cons_of_mem _ (List.mem_append_left _ ih))
  | project _ _ _ ih => exact List.mem_append_left _ (List.mem_cons_of_mem _ (List.mem_append_right _ ih))

/-- Where everything has its place at the beginning, a statement is run only in states that have a place for all that it names. -/
theorem Reaches.fits {t : Stmt} (hreach : Reaches given stmts st t st') (h : Every (Fits st) stmts) : t.Fits st' :=
  (h t hreach.mem_listNested).of_shape (hreach.rel State.lasting_shape fun s _ => respects_shape s)

end Stmt

open Stmt in
/-- Statements change what they name and nothing else. Whatever statements are run in whatever state, the run comes to an end, as
`execAll` is total, and then

* the variables have the values that they had,
* a slot that no first state and no step in the statements names holds what it held,
* a projection that no projection and no mark in them names has the tuples that it had,
* there are as many places for variables, slots and projections as before. If these are enough for all that the statements name,
  they are also enough whenever one of the statements is run, at any depth. -/
theorem statements_change_what_they_name (given : Given) (stmts : List Stmt) (st : State) :
    (execAll given stmts st).env = st.env ∧
    (∀ slot, slot ∉ written stmts → (execAll given stmts st).slots[slot]? = st.slots[slot]?) ∧
    (∀ id, id ∉ collected stmts → (execAll given stmts st).projections[id]? = st.projections[id]?) ∧
    (execAll given stmts st).shape = st.shape ∧
    (Every (Fits st) stmts → ∀ t st', Reaches given stmts st t st' → t.Fits st') :=
  ⟨env_execAll given stmts st, fun _ h => slots_execAll h st, fun _ h => projections_execAll h st, shape_execAll stmts st,
    fun h _ _ hreach => hreach.fits h⟩

/-- Counts inner keys in a loop that binds its variable a second time, then collects the outer keys. -/
def tallyOfKeys : List Stmt :=
  [.loop false 0 .input [.loop false 0 (.get .input (.var 0)) [.step 0 [0] (.reduce ⟨.count, false⟩ (.var 0))]],
    .project 0 [0] [.loop false 0 .input [.mark 0 [0]]] [.start 1 [0] (.slot 0 [.const (.str "x")]) false]]

/-- A state with places for one more slot and one more projection, both in use, and with its variable bound. -/
def tallyState : State :=
  ⟨[some (.str "kept")], [none, none, some (.ofInt 5)], [.nil, .chain [.str "kept"]]⟩

/-- What the tally is given. -/
def tallyGiven : Given :=
  ⟨.obj [("a", .obj [("x", .null)]), ("b", .obj [("x", .null), ("y", .null)])], Functions.none, ⟨["*A"]⟩⟩

/-- All that the tally names has its place. -/
theorem fits_tallyOfKeys : Stmt.Every (Stmt.Fits tallyState) tallyOfKeys := by
  intro s hs
  simp only [tallyOfKeys, Stmt.listNested, Stmt.nested, List.append_nil, List.nil_append, List.cons_append, List.mem_cons,
    List.not_mem_nil, or_false] at hs
  rcases hs with rfl | rfl | rfl | rfl | rfl | rfl | rfl <;> constructor <;>
    simp [Stmt.vars, Stmt.writes?, Stmt.collects?, Stmt.exprs, Action.exprs, Expr.parts, Expr.listParts, tallyState]

open Stmt in
/-- After the tally the variable is what it was, and so are the slot and the projection that it does not name. -/
theorem statements_change_what_they_name_tallyOfKeys :
    Every (Fits tallyState) tallyOfKeys ∧
    (∀ t st', Reaches tallyGiven tallyOfKeys tallyState t st' → t.Fits st') ∧
    (execAll tallyGiven tallyOfKeys tallyState).env = [some (.str "kept")] ∧
    (execAll tallyGiven tallyOfKeys tallyState).slots[2]? = some (some (.ofInt 5)) ∧
    (execAll tallyGiven tallyOfKeys tallyState).projections[1]? = some (.chain [.str "kept"]) ∧
    (execAll tallyGiven tallyOfKeys tallyState).slot? 0 = some (.obj [("x", .ofInt 2), ("y", .ofInt 1)]) := by
  obtain ⟨henv, hslots, hprojections, -, hfits⟩ := statements_change_what_they_name tallyGiven tallyOfKeys tallyState
  exact ⟨fits_tallyOfKeys, hfits fits_tallyOfKeys, henv, hslots 2 (by decide), hprojections 1 (by decide), rfl⟩

end StarQuery
