import Mathlib.Data.List.Induction
import StarQuery.Proofs.Machine.FiniteMap
import StarQuery.Proofs.Machine.Reading
import StarQuery.Proofs.Reducer.ClosedForm

/-!
# Running reductions

A running reduction keeps its state as the last item of the array that it makes, and has the start of the reducer for its state as
long as the array is empty. So each item is the reduction of the inputs up to there (`Running.snoc`), and the last one the reduction of
all of them. An undefined input leaves the slot as it is. A slot that was undefined and is given no defined input is
therefore not an empty array but undefined still.
-/

namespace StarQuery

namespace Reducer

variable {op : Reducer} {ds items : List Json} {d : Json}

/-! ## The states of a running reduction -/

/-- Undefined inputs may be left out. -/
theorem foldl_step_eq_inputs (op : Reducer) (xs : List (Option Json)) (state : Option Json) :
    xs.foldl op.step state = ((inputs xs).map some).foldl op.step state := by
  induction xs generalizing state with
  | nil => rfl
  | cons x xs ih =>
    cases x with
    | none =>
      have hstay : op.step state none = state := by cases state <;> rfl
      rw [List.foldl_cons, hstay]
      exact ih state
    | some x => exact ih _

/-- A defined input makes a state, whatever was before. -/
theorem exists_step_some (op : Reducer) (state : Option Json) (d : Json) : ∃ next, op.step state (some d) = some next := by
  cases state <;> exact ⟨_, rfl⟩

/-- One more input takes the reduction of those before it one step further. -/
theorem fold_snoc (op : Reducer) (ds : List Json) (d : Json) :
    op.fold ((ds ++ [d]).map some) = op.step (op.fold (ds.map some)) (some d) := by
  rw [fold, fold, List.map_append, List.foldl_append]
  rfl

/-- Items are the states of a reduction: there is one for each input, the reduction of the inputs up to it. -/
structure Running (op : Reducer) (ds items : List Json) : Prop where
  length : items.length = ds.length
  reduces : ∀ i, i < items.length → items[i]? = op.fold ((ds.take (i + 1)).map some)

theorem running_nil (op : Reducer) : Running op [] [] := ⟨rfl, fun i hi => absurd hi (Nat.not_lt_zero i)⟩

/-- The last item is the reduction of all inputs. -/
theorem Running.getLast? (h : Running op ds items) (hne : ds ≠ []) : items.getLast? = op.fold (ds.map some) := by
  have hpos : 0 < items.length := h.length ▸ List.length_pos_iff.2 hne
  rw [List.getLast?_eq_getElem?, h.reduces _ (Nat.sub_lt hpos Nat.one_pos), Nat.sub_add_cancel hpos, h.length, List.take_length]

/-- The state from which a running reduction goes on, the last item or the start, is the reduction of the inputs so far. -/
theorem Running.state_eq (h : Running op ds items) : items.getLast?.or op.start = op.fold (ds.map some) := by
  by_cases hds : ds = []
  · have hitems : items = [] := List.length_eq_zero_iff.1 (h.length.trans (congrArg List.length hds))
    rw [hitems, hds]
    rfl
  · rw [← h.getLast? hds]
    have hne : items ≠ [] := fun hnil => hds (List.length_eq_zero_iff.1 (h.length.symm.trans (congrArg List.length hnil)))
    rw [List.getLast?_eq_some_getLast hne, Option.some_or]

/-- One more input gives one more state. -/
theorem Running.snoc (h : Running op ds items) (d : Json) :
    Running op (ds ++ [d]) (items ++ (op.step (items.getLast?.or op.start) (some d)).toList) := by
  obtain ⟨next, hnext⟩ := exists_step_some op (op.fold (ds.map some)) d
  rw [h.state_eq, hnext, Option.toList_some]
  refine ⟨by simp [h.length], fun i hi => ?_⟩
  rw [List.length_append, List.length_singleton] at hi
  by_cases hlt : i < items.length
  · rw [List.getElem?_append_left hlt, h.reduces i hlt, List.take_append_of_le_length (h.length ▸ hlt)]
  · have hlast : i = items.length := by omega
    rw [hlast, List.getElem?_concat_length, h.length, List.take_of_length_le (by simp), fold_snoc, hnext]

/-- The array in a state of a running reduction, empty if there is none. -/
def itemsOf : Option Json → List Json
  | some (.arr items) => items
  | _ => []

/-- A running reduction adds the next state to its items, from the last item or the start. -/
theorem scanned_eq (op : Reducer) (d : Json) (state : Option Json) :
    Action.scanned op d state = .arr (itemsOf state ++ (op.step ((itemsOf state).getLast?.or op.start) (some d)).toList) := by
  unfold Action.scanned itemsOf
  cases state with
  | none => rfl
  | some v => cases v <;> rfl

/-- A running reduction that begins without items makes an array of its states, unless it has no input. -/
theorem foldl_scanned {state : Option Json} (hstate : itemsOf state = []) (ds : List Json) :
    ∃ items, Running op ds items ∧
      ds.foldl (fun state d => some (Action.scanned op d state)) state = if ds = [] then state else some (.arr items) := by
  -- on the list from its end, since the last state is among the items
  induction ds using List.reverseRecOn with
  | nil => exact ⟨[], running_nil op, rfl⟩
  | append_singleton ds d ih =>
    obtain ⟨items, hrunning, hfold⟩ := ih
    refine ⟨_, hrunning.snoc d, ?_⟩
    have hitems : itemsOf (if ds = [] then state else some (.arr items)) = items := by
      split
      · rename_i hnil
        rw [hstate]
        exact (List.length_eq_zero_iff.1 (hrunning.length.trans (congrArg List.length hnil))).symm
      · rfl
    rw [List.foldl_append, List.foldl_cons, List.foldl_nil, hfold, scanned_eq, hitems,
      if_neg (List.append_ne_nil_of_right_ne_nil ds (List.cons_ne_nil d []))]

end Reducer

/-! ## Changes at one path -/

section
variable {α : Type} {f : α → Option Json → Option Json} (hf : ∀ a v, (f a (some v)).isSome = true) {path : List String}
  {items : List α}
include hf

/-- Changes at one path make of what stands there what their functions make of it, one after the other. -/
theorem Json.at?_foldl_alterAt {held : Option Json} (hheld : ∀ v ∈ held, Nested path.length v) :
    at? path (items.foldl (fun held a => alterAt path (f a) held) held) =
      items.foldl (fun state a => f a state) (at? path held) := by
  induction items generalizing held with
  | nil => rfl
  | cons a items ih =>
    rw [List.foldl_cons, List.foldl_cons, ih (nested_alterAt (hf a) hheld), at?_alterAt (hf a) hheld rfl, if_pos rfl]

/-- Changes of a slot at one path are found there. -/
theorem State.Alters.at?_eq {slot : Nat} {st st' : State}
    (h : Alters slot st (items.map fun a => (⟨path, f a, rfl, hf a⟩ : Change path.length)) st')
    (hnested : ∀ v ∈ st.slot? slot, Json.Nested path.length v) :
    Json.at? path (st'.slot? slot) = items.foldl (fun state a => f a state) (Json.at? path (st.slot? slot)) := by
  rw [h.slot?_eq, List.foldl_map]
  exact Json.at?_foldl_alterAt hf hnested

end

namespace Stmt

open Reducer

/-- A step of a slot is run in rounds. In each round the keys lead to `path`, and the argument has the next of the inputs for its
value. Before, between and after the rounds anything may happen to the state but to what the slot holds. -/
inductive Rounds (given : Given) (slot : Nat) (path : List String) (action : Expr → Action) :
    State → List (Option Json) → State → Prop where
  | done {st st' : State} : st'.slot? slot = st.slot? slot → Rounds given slot path action st [] st'
  | next {st mid st' : State} {keys : List Var} {arg : Expr} {x : Option Json} {xs : List (Option Json)} :
      mid.slot? slot = st.slot? slot → slot < mid.slots.length → mid.keyTexts? keys = some path → arg.eval given mid = x →
      Rounds given slot path action (exec given (.step slot keys (action arg)) mid) xs st' →
      Rounds given slot path action st (x :: xs) st'

variable {given : Given} {slot : Nat} {path : List String} {op : Reducer} {xs : List (Option Json)} {st st' : State}

/-- Rounds of a running reduction change the slot once for each defined input. -/
theorem Rounds.alters_scan (h : Rounds given slot path (.scan op) st xs st') :
    State.Alters slot st
      ((inputs xs).map fun d => (⟨path, fun state => some (Action.scanned op d state), rfl, fun _ => rfl⟩ : Change path.length)) st' := by
  induction h with
  | done hdone => exact .done hdone
  | @next st mid st' keys arg x xs hmid hlt hkeys harg _ ih =>
    rw [exec, hkeys, Action.change?, harg] at ih
    cases x with
    | none => exact ih.of_slot? hmid
    | some d => exact .next hmid hlt ih

/-- Rounds of a reduction change the slot once for each input. -/
theorem Rounds.alters_reduce (h : Rounds given slot path (.reduce op) st xs st') :
    State.Alters slot st
      (xs.map fun x => (⟨path, fun state => op.step state x, rfl, fun v => isSome_step op v x⟩ : Change path.length)) st' := by
  induction h with
  | done hdone => exact .done hdone
  | @next st mid st' keys arg x xs hmid hlt hkeys harg _ ih =>
    rw [exec, hkeys, Action.change?, harg] at ih
    exact .next hmid hlt ih

/-! ## Loops as rounds -/

/-- A state differs from another at most in the value of a variable and in what a slot holds. -/
structure DiffersAt (v : Var) (slot : Nat) (st mid : State) : Prop where
  env : ∀ x, mid.env.set v x = st.env.set v x
  length : mid.slots.length = st.slots.length
  slots : ∀ other, other ≠ slot → mid.slots[other]? = st.slots[other]?

namespace DiffersAt

variable {v : Var} {mid : State} {keys : List Var} {arg : Expr}

theorem refl (v : Var) (slot : Nat) (st : State) : DiffersAt v slot st st := ⟨fun _ => rfl, rfl, fun _ _ => rfl⟩

/-- It still does after a step of the slot with another value of the variable. -/
theorem step (h : DiffersAt v slot st mid) (given : Given) (value : Json) (keys : List Var) (action : Action) :
    DiffersAt v slot st (exec given (.step slot keys action) (mid.setVar v (some value))) where
  env x := by
    rw [env_exec, State.setVar, List.set_set]
    exact h.env x
  length := by
    have hshape := @shape_execAll given [.step slot keys action] (mid.setVar v (some value))
    simp only [State.shape, Prod.mk.injEq] at hshape
    exact hshape.2.1.trans h.length
  slots other hother := by
    have hwritten : other ∉ written [.step slot keys action] := fun hmem => hother (List.mem_singleton.1 hmem)
    exact (slots_execAll hwritten _).trans (h.slots other hother)

/-- The variables that are not the one have the same key texts. -/
theorem keyTexts?_eq (h : DiffersAt v slot st mid) (hv : v ∉ keys) (x : Option Json) :
    (mid.setVar v x).keyTexts? keys = st.keyTexts? keys := by
  have hvalues : (mid.setVar v x).values? keys = st.values? keys := by
    induction keys with
    | nil => rfl
    | cons w keys ih =>
      rw [List.mem_cons, not_or] at hv
      have hw : (mid.setVar v x).value? w = st.value? w := by
        rw [State.value?, State.setVar, h.env]
        exact congrArg Option.join (List.getElem?_set_ne hv.1)
      have hrest := ih hv.2
      unfold State.values? at hrest ⊢
      rw [List.mapM_cons, List.mapM_cons, hw, hrest]
  rw [State.keyTexts?, State.keyTexts?, hvalues]

/-- An expression that does not read the slot has the same value, whatever the variable is given. -/
theorem eval_eq (h : DiffersAt v slot st mid) (hreads : ∀ slotKeys, .slot slot slotKeys ∉ arg.parts) (given : Given)
    (x : Option Json) : arg.eval given (mid.setVar v x) = arg.eval given (st.setVar v x) := by
  refine Expr.eval_congr given arg ⟨fun w _ => ?_, fun other slotKeys hmem => ?_⟩
  · rw [State.value?, State.value?, State.setVar, State.setVar, h.env]
  · have hother : other ≠ slot := fun heq => hreads slotKeys (heq ▸ hmem)
    exact congrArg Option.join (h.slots other hother)

end DiffersAt

/-- A loop whose body is a step of a slot runs it in rounds, one for each value of its variable, if the variable is none of the keys and
the argument does not read the slot. -/
theorem rounds_loop {action : Expr → Action} {deep : Bool} {v : Var} {source arg : Expr} {keys : List Var} {collection : Json}
    (hsource : source.eval given st = some collection) (hv : v ∉ keys) (hkeys : st.keyTexts? keys = some path)
    (hslot : slot < st.slots.length) (hreads : ∀ slotKeys, .slot slot slotKeys ∉ arg.parts) :
    Rounds given slot path action st ((choices deep collection).map fun value => arg.eval given (st.setVar v (some value)))
      (exec given (.loop deep v source [.step slot keys (action arg)]) st) := by
  have hrounds : ∀ (values : List Json) (mid : State), DiffersAt v slot st mid →
      Rounds given slot path action mid (values.map fun value => arg.eval given (st.setVar v (some value)))
        ((values.foldl (fun st value => execAll given [.step slot keys (action arg)] (st.setVar v (some value))) mid).setVar v
          (st.value? v)) := by
    intro values
    induction values with
    | nil => exact fun mid _ => .done rfl
    | cons value values ih =>
      intro mid hmid
      have hround := ih _ (hmid.step given value keys (action arg))
      exact @Rounds.next _ _ _ _ mid (mid.setVar v (some value)) _ keys arg _ _ rfl (hmid.length ▸ hslot)
        ((hmid.keyTexts?_eq hv _).trans hkeys) (hmid.eval_eq hreads given _) hround
  rw [exec, hsource]
  exact hrounds _ st (DiffersAt.refl v slot st)

end Stmt

open Stmt Reducer in
/-- Running reductions are scans, unless they begin with nothing and get nothing. Take any reducer, nullable or not, and let a running
reduction be run in rounds with any inputs, on a slot of objects in objects, as deep as it has keys, that holds nothing or the empty
array for the keys at first.

* If it held nothing and no input is defined, it holds nothing still.
* Otherwise it then holds an array with one item for each defined input, each of them the reduction of the defined inputs up to it.
  Its last item, if there is one, is what the plain reduction holds that is run in rounds with the same inputs and began at the start of
  the reducer. -/
theorem running_reductions_are_scans (op : Reducer) (given : Given) (slot : Nat) (path : List String) (xs : List (Option Json))
    (st st' : State) (hrounds : Rounds given slot path (.scan op) st xs st')
    (hnested : ∀ v ∈ st.slot? slot, Json.Nested path.length v)
    (hstart : Json.at? path (st.slot? slot) = none ∨ Json.at? path (st.slot? slot) = some (.arr [])) :
    (Json.at? path (st.slot? slot) = none → inputs xs = [] → Json.at? path (st'.slot? slot) = none) ∧
    (Json.at? path (st.slot? slot) = some (.arr []) ∨ inputs xs ≠ [] →
      ∃ items, Json.at? path (st'.slot? slot) = some (.arr items) ∧ Running op (inputs xs) items ∧
        ∀ (given' : Given) (slot' : Nat) (path' : List String) (rt rt' : State),
          Rounds given' slot' path' (.reduce op) rt xs rt' → (∀ v ∈ rt.slot? slot', Json.Nested path'.length v) →
          Json.at? path' (rt.slot? slot') = op.start →
          ∀ last ∈ items.getLast?, Json.at? path' (rt'.slot? slot') = some last) := by
  have hitems : itemsOf (Json.at? path (st.slot? slot)) = [] := by
    rcases hstart with h | h <;> rw [h] <;> rfl
  obtain ⟨items, hrunning, hfold⟩ := @foldl_scanned op _ hitems (inputs xs)
  have hat : Json.at? path (st'.slot? slot) = if inputs xs = [] then Json.at? path (st.slot? slot) else some (.arr items) :=
    (hrounds.alters_scan.at?_eq (fun _ _ => rfl) hnested).trans hfold
  have hempty : inputs xs = [] → items = [] := fun hnil =>
    List.length_eq_zero_iff.1 (hrunning.length.trans (congrArg List.length hnil))
  refine ⟨fun hnone hnil => by rw [hat, if_pos hnil, hnone], fun h => ⟨items, ?_, hrunning, ?_⟩⟩
  · rw [hat]
    split
    · rename_i hnil
      rw [hempty hnil]
      exact h.resolve_right fun hne => hne hnil
    · rfl
  · intro given' slot' path' rt rt' hreduce hrt hbegin last hlast
    have hne : inputs xs ≠ [] := fun hnil => by
      rw [hempty hnil] at hlast
      cases hlast
    rw [hreduce.alters_reduce.at?_eq (fun x v => isSome_step op v x) hrt, hbegin, foldl_step_eq_inputs, ← fold,
      ← hrunning.getLast? hne]
    exact hlast

/-- Rows of which the second has no quantity. -/
def quantityRows : Given :=
  ⟨.arr [.obj [("quantity", .ofInt 10)], .obj [], .obj [("quantity", .ofInt 20)]], Functions.none, ⟨["*A"]⟩⟩

/-- Steps a slot with the quantity of every row. -/
def quantityLoop (action : Expr → Action) : Stmt :=
  .loop false 0 .input [.step 0 [] (action (.get (.get .input (.var 0)) (.const (.str "quantity"))))]

open Stmt Reducer in
/-- The running sums of the quantities, of which the last is their sum. -/
theorem running_sums_of_quantityRows :
    Rounds quantityRows 0 [] (.scan ⟨.sum, false⟩) ⟨[none], [none], []⟩ [some (.ofInt 10), none, some (.ofInt 20)]
      (exec quantityRows (quantityLoop (.scan ⟨.sum, false⟩)) ⟨[none], [none], []⟩) ∧
    Rounds quantityRows 0 [] (.reduce ⟨.sum, false⟩) ⟨[none], [some (.ofInt 0)], []⟩ [some (.ofInt 10), none, some (.ofInt 20)]
      (exec quantityRows (quantityLoop (.reduce ⟨.sum, false⟩)) ⟨[none], [some (.ofInt 0)], []⟩) ∧
    ∃ items, (exec quantityRows (quantityLoop (.scan ⟨.sum, false⟩)) ⟨[none], [none], []⟩).slot? 0 = some (.arr items) ∧
      Running ⟨.sum, false⟩ [.ofInt 10, .ofInt 20] items ∧
      ∀ last ∈ items.getLast?,
        (exec quantityRows (quantityLoop (.reduce ⟨.sum, false⟩)) ⟨[none], [some (.ofInt 0)], []⟩).slot? 0 = some last := by
  have hreads : ∀ keys, (Expr.slot 0 keys) ∉ (Expr.get (.get .input (.var 0)) (.const (.str "quantity"))).parts := by
    simp [Expr.parts]
  have hscan := @rounds_loop quantityRows 0 [] ⟨[none], [none], []⟩ (.scan ⟨.sum, false⟩) false 0 .input _ [] _ rfl
    List.not_mem_nil rfl (by decide) hreads
  have hreduce := @rounds_loop quantityRows 0 [] ⟨[none], [some (.ofInt 0)], []⟩ (.reduce ⟨.sum, false⟩) false 0 .input _ [] _ rfl
    List.not_mem_nil rfl (by decide) hreads
  obtain ⟨items, hitems, hrunning, hlast⟩ :=
    (running_reductions_are_scans ⟨.sum, false⟩ quantityRows 0 [] _ _ _ hscan (fun _ _ => trivial) (.inl rfl)).2
      (.inr (List.cons_ne_nil _ _))
  exact ⟨hscan, hreduce, items, hitems, hrunning, hlast _ _ _ _ _ hreduce (fun _ _ => trivial) rfl⟩

open Stmt Reducer in
/-- A slot that holds nothing holds nothing after a running reduction has got an undefined input, so that it is not an array with one
item for each defined input. -/
theorem undefined_slots_stay_without_inputs :
    (exec quantityRows (.step 0 [] (.scan ⟨.sum, false⟩ (.undefined "*A"))) ⟨[], [none], []⟩).slot? 0 = none ∧
    ¬ ∀ (op : Reducer) (given : Given) (slot : Nat) (path : List String) (xs : List (Option Json)) (st st' : State),
      Rounds given slot path (.scan op) st xs st' → (∀ v ∈ st.slot? slot, Json.Nested path.length v) →
      Json.at? path (st.slot? slot) = none ∨ Json.at? path (st.slot? slot) = some (.arr []) →
      ∃ items, Json.at? path (st'.slot? slot) = some (.arr items) ∧ Running op (inputs xs) items := by
  refine ⟨rfl, fun h => ?_⟩
  have hround : Rounds quantityRows 0 [] (.scan ⟨.sum, false⟩) ⟨[], [none], []⟩ [none] ⟨[], [none], []⟩ :=
    @Rounds.next _ _ _ _ _ ⟨[], [none], []⟩ _ [] (.undefined "*A") _ _ rfl (by decide) rfl rfl (.done rfl)
  obtain ⟨items, hitems, -⟩ := h _ _ _ _ _ _ _ hround (fun _ _ => trivial) (.inl rfl)
  cases hitems

end StarQuery
