import Mathlib.Data.Finmap
import StarQuery.Proofs.Machine.Frame
import StarQuery.Proofs.Machine.Values

/-!
# Slots as finite maps

A slot that is accessed by `k` keys holds objects in objects, `k` deep, and below them values of any kind. As long as every change of it
is made at a path of `k` key texts, and never makes nothing of something, no value below is taken for one of these objects, and what the
slot holds represents a finite map from tuples of key texts to values (`Represents.alter`). First states and steps make only such
changes, so the slots of a program are finite maps whenever they are read (`Stmt.every_respects_grown`).
-/

namespace StarQuery

/-- A finite map from tuples of key texts to values. -/
abbrev TupleMap := Finmap fun _ : List String => Json

namespace TupleMap

/-- Gives a tuple the value that `f` makes of its present one, undefined if it has none. -/
def alter (m : TupleMap) (path : List String) (f : Option Json → Option Json) : TupleMap :=
  match f (m.lookup path) with
  | none => m.erase path
  | some v => m.insert path v

/-- A change of a map is found at its tuple, and nowhere else. -/
theorem lookup_alter (m : TupleMap) (path other : List String) (f : Option Json → Option Json) :
    (m.alter path f).lookup other = if other = path then f (m.lookup path) else m.lookup other := by
  rw [alter]
  by_cases h : other = path
  · subst h
    rw [if_pos rfl]
    cases hvalue : f (m.lookup other) with
    | none => exact Finmap.lookup_erase other m
    | some v => exact Finmap.lookup_insert m
  · rw [if_neg h]
    cases f (m.lookup path) with
    | none => exact Finmap.lookup_erase_ne h
    | some v => exact Finmap.lookup_insert_of_ne m h

end TupleMap

/-- A change of what is held for a tuple of `k` key texts, which never makes nothing of something. -/
structure Change (k : Nat) where
  path : List String
  apply : Option Json → Option Json
  length_path : path.length = k
  isSome_apply : ∀ v, (apply (some v)).isSome = true

variable {k : Nat}

/-- The map that changes of the empty one lead to. -/
def Change.toMap (changes : List (Change k)) : TupleMap := changes.foldl (fun m c => m.alter c.path c.apply) ∅

/-! ## Changes of what is held -/

/-- What a slot with `k` keys holds represents a map: it is objects in objects, `k` deep, in which the tuples lead to their values. -/
structure Represents (k : Nat) (held : Option Json) (m : TupleMap) : Prop where
  nested : ∀ v ∈ held, Json.Nested k v
  leads : ∀ path, path.length = k → Json.at? path held = m.lookup path

/-- A slot that holds nothing represents the empty map. -/
theorem represents_none (k : Nat) : Represents k none ∅ where
  nested _ hv := absurd hv (Option.not_mem_none _)
  leads path _ := by rw [Json.at?_none, Finmap.lookup_empty]

/-- A change of what is held is the same change of the map. -/
theorem Represents.alter {held : Option Json} {m : TupleMap} (h : Represents k held m) (c : Change k) :
    Represents k (Json.alterAt c.path c.apply held) (m.alter c.path c.apply) := by
  have hnested : ∀ v ∈ held, Json.Nested c.path.length v := c.length_path.symm ▸ h.nested
  have hafter := Json.nested_alterAt c.isSome_apply hnested
  rw [c.length_path] at hafter
  refine ⟨hafter, fun path hpath => ?_⟩
  rw [Json.at?_alterAt c.isSome_apply hnested (hpath.trans c.length_path.symm), TupleMap.lookup_alter, h.leads _ c.length_path,
    h.leads path hpath]

/-- Changes of what is held, one after the other, are the same changes of the map. -/
theorem Represents.foldl {held : Option Json} {m : TupleMap} (h : Represents k held m) (changes : List (Change k)) :
    Represents k (changes.foldl (fun held c => Json.alterAt c.path c.apply held) held)
      (changes.foldl (fun m c => m.alter c.path c.apply) m) := by
  induction changes generalizing held m with
  | nil => exact h
  | cons c changes ih => exact ih (h.alter c)

/-- A slot that represents a map is read by the key texts of the values of its keys. -/
theorem Represents.eval_slot {st : State} {slot : Nat} {m : TupleMap} (h : Represents k (st.slot? slot) m) (given : Given)
    {keys : List Expr} (hkeys : keys.length = k) :
    Expr.eval given st (.slot slot keys) =
      (keys.mapM (Expr.eval given st)).bind fun values => m.lookup (values.map Json.keyText) := by
  have hread : Expr.eval given st (.slot slot keys) =
      (keys.mapM (Expr.eval given st)).bind fun values => Json.at? (values.map Json.keyText) (st.slot? slot) := by
    rw [Expr.eval]
    cases hheld : st.slot? slot with
    | none => cases keys.mapM (Expr.eval given st) <;> simp [Json.at?_none]
    | some held => exact Expr.follow_eq (hkeys ▸ h.nested held hheld)
  rw [hread]
  cases hvalues : keys.mapM (Expr.eval given st) with
  | none => rfl
  | some values =>
    have hlength : (values.map Json.keyText).length = k := by
      rw [List.length_map, length_of_mapM hvalues, hkeys]
    exact h.leads _ hlength

namespace State

/-! ## Changes of a slot -/

/-- A slot that has its place is changed at the path. -/
theorem slot?_alterSlot {st : State} {slot : Nat} (h : slot < st.slots.length) (path : List String)
    (f : Option Json → Option Json) : (st.alterSlot slot path f).slot? slot = Json.alterAt path f (st.slot? slot) := by
  simp [slot?, alterSlot, h]

/-- Changes are made to a slot, one after the other. Before, between and after them anything else may happen to the state. -/
inductive Alters (slot : Nat) : State → List (Change k) → State → Prop where
  | done {st st' : State} : st'.slot? slot = st.slot? slot → Alters slot st [] st'
  | next {st mid st' : State} {c : Change k} {rest : List (Change k)} : mid.slot? slot = st.slot? slot →
      slot < mid.slots.length → Alters slot (mid.alterSlot slot c.path c.apply) rest st' → Alters slot st (c :: rest) st'

namespace Alters

variable {slot : Nat} {a b c : State} {xs ys : List (Change k)}

/-- What happened to the state before does not matter, if the slot holds the same. -/
theorem of_slot? (hslot : b.slot? slot = a.slot? slot) (h : Alters slot b xs c) : Alters slot a xs c := by
  cases h with
  | done hdone => exact .done (hdone.trans hslot)
  | next hmid hlt hrest => exact .next (hmid.trans hslot) hlt hrest

/-- Changes after changes are changes. -/
theorem append (h : Alters slot a xs b) (h' : Alters slot b ys c) : Alters slot a (xs ++ ys) c := by
  induction h with
  | done hdone => exact h'.of_slot? hdone
  | next hmid hlt _ ih => exact .next hmid hlt (ih h')

/-- What the slot holds is changed accordingly. -/
theorem slot?_eq (h : Alters slot a xs b) :
    b.slot? slot = xs.foldl (fun held c => Json.alterAt c.path c.apply held) (a.slot? slot) := by
  induction h with
  | done hdone => exact hdone
  | next hmid hlt _ ih => rw [ih, slot?_alterSlot hlt, hmid, List.foldl_cons]

/-- A slot that was undefined represents the map that its changes lead to. -/
theorem represents (h : Alters slot a xs b) (hnone : a.slot? slot = none) : Represents k (b.slot? slot) (Change.toMap xs) := by
  rw [h.slot?_eq, hnone]
  exact (represents_none k).foldl xs

end Alters

end State

/-! ## Changes by statements -/

/-- A later state is reached from an earlier one with changes of a slot by `k` keys, and the slot keeps its place. -/
def State.Grown (k slot : Nat) (st st' : State) : Prop :=
  slot < st.slots.length → slot < st'.slots.length ∧ ∃ changes : List (Change k), Alters slot st changes st'

/-- Being changed by `k` keys lasts while variables are given values. -/
theorem State.lasting_grown (k slot : Nat) : Lasting (Grown k slot) where
  refl _ hlt := ⟨hlt, [], .done rfl⟩
  trans hab hbc hlt := by
    obtain ⟨hlt, xs, hxs⟩ := hab hlt
    obtain ⟨hlt, ys, hys⟩ := hbc hlt
    exact ⟨hlt, xs ++ ys, hxs.append hys⟩
  setVar _ _ _ hlt := ⟨hlt, [], .done rfl⟩

/-- A change of one slot is a change of it by its keys, and leaves the others as they are. -/
theorem State.grown_alterSlot {slot other : Nat} {st : State} {path : List String} {f : Option Json → Option Json}
    (hpath : other = slot → path.length = k) (hf : ∀ v, (f (some v)).isSome = true) : Grown k slot st (st.alterSlot other path f) := by
  intro hlt
  refine ⟨by simpa [alterSlot] using hlt, ?_⟩
  by_cases heq : other = slot
  · subst heq
    exact ⟨[⟨path, f, hpath rfl, hf⟩], .next rfl hlt (.done rfl)⟩
  · refine ⟨[], .done ?_⟩
    rw [slot?, alterSlot, List.getElem?_modify_ne _ _ heq, slot?]

namespace Stmt

variable {slot : Nat} {stmts : List Stmt}

/-- Statements that name the slot with `k` keys, if at all, change it by `k` keys. -/
theorem every_respects_grown (h : ∀ x ∈ select writes? stmts, x.1 = slot → x.2.length = k) (given : Given) :
    Every (Respects given (State.Grown k slot)) stmts := by
  intro s hs
  refine respects_of_names (State.lasting_grown k slot).refl (fun x hx st path f hpath hf => ?_) fun id _ st tree hlt => ?_
  · have hkeys : x.1 = slot → x.2.length = k := h x (List.mem_filterMap.2 ⟨s, hs, hx⟩)
    exact State.grown_alterSlot (fun heq => hpath.trans (hkeys heq)) hf
  · exact ⟨hlt, [], .done rfl⟩

end Stmt

open Stmt in
/-- Slots are finite maps from tuples of key texts. Take a slot that is undefined at first and then changed at paths of `k` key texts
only, by functions that never make nothing of something, with anything else happening to the state in between.

* What an expression then reads from it with `k` keys is what the finite map that was changed at the same tuples by the same functions has
  for the key texts of the values of the keys, undefined if that is nothing.
* One more change at one tuple leaves what is read for any other as it was.

Whatever statements are run, if those of them that name the slot have `k` keys, then the slot is only changed in this way, up to every
state in which one of them is run and up to the end. -/
theorem slots_are_finite_maps (k slot : Nat) :
    (∀ (changes : List (Change k)) (st st' : State), st.slot? slot = none → State.Alters slot st changes st' →
      (∀ (given : Given) (keys : List Expr), keys.length = k →
        Expr.eval given st' (.slot slot keys) =
          (keys.mapM (Expr.eval given st')).bind fun values => (Change.toMap changes).lookup (values.map Json.keyText)) ∧
      ∀ (c : Change k) (st'' : State), State.Alters slot st' [c] st'' →
        ∀ (given : Given) (keys keys' : List Expr) (values : List Json), values.length = k →
          keys.mapM (Expr.eval given st') = some values → keys'.mapM (Expr.eval given st'') = some values →
          values.map Json.keyText ≠ c.path →
          Expr.eval given st'' (.slot slot keys') = Expr.eval given st' (.slot slot keys)) ∧
    ∀ (given : Given) (stmts : List Stmt) (st : State), slot < st.slots.length →
      (∀ x ∈ select writes? stmts, x.1 = slot → x.2.length = k) →
      (∃ changes : List (Change k), State.Alters slot st changes (execAll given stmts st)) ∧
      ∀ t st', Reaches given stmts st t st' → ∃ changes : List (Change k), State.Alters slot st changes st' := by
  refine ⟨fun changes st st' hnone h => ⟨fun given keys hkeys => (h.represents hnone).eval_slot given hkeys, ?_⟩, ?_⟩
  · intro c st'' hc given keys keys' values hlength hkeys hkeys' hne
    have hbefore := h.represents hnone
    have hafter := hbefore.alter c
    have hslot : st''.slot? slot = Json.alterAt c.path c.apply (st'.slot? slot) := hc.slot?_eq
    rw [← hslot] at hafter
    rw [hafter.eval_slot given ((length_of_mapM hkeys').symm.trans hlength),
      hbefore.eval_slot given ((length_of_mapM hkeys).symm.trans hlength), hkeys, hkeys', Option.bind_some, Option.bind_some,
      TupleMap.lookup_alter, if_neg hne]
  · intro given stmts st hlt hwrites
    have hlasting := State.lasting_grown k slot
    have hrespects := every_respects_grown hwrites given
    exact ⟨(rel_execAll hlasting stmts hrespects st hlt).2, fun t st' hreach => (hreach.rel hlasting hrespects hlt).2⟩

/-- Changes at pairs of keys. An object is stored whose field has the name of a second key, nothing is made at one pair, and null stored at
another. -/
def pairChanges : List (Change 2) :=
  [⟨["a", "x"], fun _ => some (.obj [("y", .bool true)]), rfl, fun _ => rfl⟩, ⟨["a", "y"], fun state => state, rfl, fun _ => rfl⟩,
    ⟨["b", "x"], fun _ => some .null, rfl, fun _ => rfl⟩]

/-- The state after these changes, and others of the environment, with one slot. -/
def pairState : State :=
  ⟨[some (.str "b")], [some (.obj [("a", .obj [("x", .obj [("y", .bool true)])]), ("b", .obj [("x", .null)])])], []⟩

open Stmt in
/-- Each pair of keys is read as the map has it: an object that was stored is not entered for a pair that is not there, and
null is read as null. -/
theorem slots_are_finite_maps_pairs :
    State.Alters 0 ⟨[none], [none], []⟩ pairChanges pairState ∧
    Expr.eval tallyGiven pairState (.slot 0 [.const (.str "a"), .const (.str "x")]) = some (.obj [("y", .bool true)]) ∧
    Expr.eval tallyGiven pairState (.slot 0 [.const (.str "a"), .const (.str "y")]) = none ∧
    Expr.eval tallyGiven pairState (.slot 0 [.var 0, .const (.str "x")]) = some .null ∧
    Expr.eval tallyGiven (pairState.alterSlot 0 ["a", "x"] fun _ => some .null) (.slot 0 [.var 0, .const (.str "x")]) =
      Expr.eval tallyGiven pairState (.slot 0 [.var 0, .const (.str "x")]) ∧
    ∃ changes : List (Change 1), State.Alters 0 tallyState changes (execAll tallyGiven tallyOfKeys tallyState) := by
  have halters : State.Alters 0 ⟨[none], [none], []⟩ pairChanges pairState :=
    .next rfl (by decide) (.next rfl (by decide) (.next rfl (by decide) (.done rfl)))
  obtain ⟨hreads, hapart⟩ := (slots_are_finite_maps 2 0).1 pairChanges _ _ rfl halters
  have hnext : State.Alters 0 pairState [⟨["a", "x"], fun _ => some .null, rfl, fun _ => rfl⟩]
      (pairState.alterSlot 0 ["a", "x"] fun _ => some .null) := .next rfl (by decide) (.done rfl)
  exact ⟨halters, hreads tallyGiven _ rfl, hreads tallyGiven _ rfl, hreads tallyGiven _ rfl,
    hapart _ _ hnext tallyGiven _ _ [.str "b", .str "x"] rfl rfl rfl (by decide),
    ((slots_are_finite_maps 1 0).2 tallyGiven tallyOfKeys tallyState (by decide) (by decide)).1⟩

end StarQuery
