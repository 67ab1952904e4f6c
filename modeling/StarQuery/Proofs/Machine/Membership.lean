import StarQuery.Proofs.Json.Index
import StarQuery.Proofs.Machine.Reaches
import StarQuery.Proofs.Machine.Tuples

/-!
# Membership and iteration

A variable with two sources loops over one of them and is tested on the other. The test takes a key by what it leads to, the loop
gives the keys as the collection has them, and what is kept of both is the key text. The two agree on every key into an object,
and on a key into an array just if it is spelled plainly. So the texts that survive the loop and the test are the same whichever
source is looped over, as long as no name of a field leads into an array under another spelling.
-/

namespace StarQuery

namespace State

/-- States that differ at most in the value of a variable and in the tuples of projections. -/
structure SameBut (v : Var) (st st' : State) : Prop where
  env : st'.env.set v none = st.env.set v none
  slots : st'.slots = st.slots
  projections : st'.projections.length = st.projections.length

namespace SameBut

variable {v : Var} {st st' : State}

theorem refl (v : Var) (st : State) : SameBut v st st := ⟨rfl, rfl, rfl⟩

theorem setVar (h : SameBut v st st') (x : Option Json) : SameBut v st (st'.setVar v x) :=
  ⟨(List.set_set ..).trans h.env, h.slots, h.projections⟩

theorem setProjection (h : SameBut v st st') (id : Nat) (tree : KeyTree) : SameBut v st (st'.setProjection id tree) :=
  ⟨h.env, h.slots, List.length_set.trans h.projections⟩

theorem length_env (h : SameBut v st st') : st'.env.length = st.env.length := by
  simpa using congrArg List.length h.env

end SameBut

end State

/-- A source has a value in a state and keeps it while a variable runs through its values. -/
def Expr.Fixed (given : Given) (st : State) (v : Var) (source : Expr) (c : Json) : Prop :=
  ∀ st', st.SameBut v st' → source.eval given st' = some c

/-- The texts of the keys of one collection that lead into another are also texts of keys of the other that lead into the first,
unless the other is an array and one of the keys is not spelled plainly. -/
theorem Json.shared_texts_iff {c d : Json} (hc : c.keys.length ≤ Numeral.maxIndex + 1)
    (hd : d.keys.length ≤ Numeral.maxIndex + 1) :
    (∀ text, (∃ k ∈ c.keys, d.hasKey k = true ∧ k.keyText = text) → ∃ k ∈ d.keys, c.hasKey k = true ∧ k.keyText = text) ↔
      (d.isArray = true → ∀ k ∈ c.keys, d.hasKey k = true → k.isPlainIndex = true) := by
  constructor
  · intro hshared harray k hk hkey
    obtain ⟨k', hk', -, htext⟩ := hshared k.keyText ⟨k, hk, hkey, rfl⟩
    exact (exists_keyText_eq_iff hd hkey).1 ⟨k', hk', htext⟩ harray
  · rintro hplain _ ⟨k, hk, hkey, rfl⟩
    obtain ⟨k', hk', htext⟩ := (exists_keyText_eq_iff hd hkey).2 fun harray => hplain harray k hk hkey
    exact ⟨k', hk', hasKey_of_keyText_eq hc hk htext.symm, htext⟩

namespace Stmt

/-- What marks the values of a variable that survive a loop over one source and a test on another. -/
def sieve (id : Nat) (v : Var) (looped tested : Expr) : Stmt := .loop false v looped [.test false v tested [.mark id [v]]]

/-- The key texts that survive a loop over one source and a test on another. -/
def survivors (given : Given) (id : Nat) (v : Var) (looped tested : Expr) (st : State) : List (List String) :=
  ((exec given (sieve id v looped tested) (st.setProjection id .nil)).projection id).texts 1

variable {given : Given} {id : Nat} {v : Var} {looped tested : Expr} {st : State} {c d : Json}

/-- A round of the loop marks its key if the key leads into what is tested. -/
theorem round_marks (hid : id < st.projections.length) (hv : v < st.env.length) (htested : tested.Fixed given st v d)
    {st' : State} (hst' : st.SameBut v st') (k : Json) (text : String) :
    let after := execAll given [.test false v tested [.mark id [v]]] (st'.setVar v (some k))
    st.SameBut v after ∧ ([text] ∈ (after.projection id).texts 1 ↔
      [text] ∈ (st'.projection id).texts 1 ∨ d.hasKey k = true ∧ k.keyText = text) := by
  have hsame := hst'.setVar (some k)
  have hvalue : (st'.setVar v (some k)).value? v = some k := by
    simp [State.value?, State.setVar, hst'.length_env, hv]
  have hvalues : (st'.setVar v (some k)).values? [v] = some [k] := by
    simp [State.values?, hvalue]
  have hprojection : ∀ tree, ((st'.setVar v (some k)).setProjection id tree).projection id = tree := by
    intro tree
    simp [State.projection, State.setProjection, State.setVar, hst'.projections, hid]
  simp only [execAll, exec, htested _ hsame, hvalue, hvalues, admits, Bool.false_eq_true, if_false]
  by_cases hkey : d.hasKey k = true
  · rw [if_pos hkey, hprojection]
    refine ⟨hsame.setProjection id _, (KeyTree.mem_texts_insert _ [k]).trans (or_congr_right ?_)⟩
    simp [hkey, eq_comm]
  · rw [if_neg hkey]
    exact ⟨hsame, (or_iff_left fun hboth => hkey hboth.1).symm⟩

/-- Rounds of the loop mark those of their keys that lead into what is tested. -/
theorem rounds_mark (hid : id < st.projections.length) (hv : v < st.env.length) (htested : tested.Fixed given st v d)
    (ks : List Json) (text : String) {st' : State} (hst' : st.SameBut v st') :
    [text] ∈ ((ks.foldl (fun st k => execAll given [.test false v tested [.mark id [v]]] (st.setVar v (some k))) st').projection
        id).texts 1 ↔
      [text] ∈ (st'.projection id).texts 1 ∨ ∃ k ∈ ks, d.hasKey k = true ∧ k.keyText = text := by
  induction ks generalizing st' with
  | nil => simp
  | cons k ks ih =>
    obtain ⟨hsame, hmarks⟩ := round_marks hid hv htested hst' k text
    rw [List.foldl_cons, ih hsame, hmarks, or_assoc]
    simp

/-- The texts that survive are those of the keys of what is looped over that lead into what is tested. -/
theorem mem_survivors (hid : id < st.projections.length) (hv : v < st.env.length) (hlooped : looped.Fixed given st v c)
    (htested : tested.Fixed given st v d) {text : String} :
    [text] ∈ survivors given id v looped tested st ↔ ∃ k ∈ c.keys, d.hasKey k = true ∧ k.keyText = text := by
  have hsame := (State.SameBut.refl v st).setProjection id .nil
  have hempty : ¬ [text] ∈ ((st.setProjection id .nil).projection id).texts 1 := by
    simp [State.projection, State.setProjection, hid, KeyTree.texts, KeyTree.entries]
  have hrounds := rounds_mark hid hv htested c.keys text hsame
  rw [or_iff_right hempty] at hrounds
  rw [survivors, sieve, exec, hlooped _ hsame]
  exact hrounds

end Stmt

open Stmt in
/-- Membership in collections against their keys. An index has 64 bits, so a collection has no more keys than there are indices.

* A key leads into a collection just if it has the text of one of its keys, if and only if it is no key into an array that is
  spelled otherwise than the index it names.
* Of two sources of one variable, the same key texts survive whichever is looped over and whichever is tested, if and only if
  no key of one leads into the other, an array, under another spelling. -/
theorem membership_agrees_with_keys_iff {given : Given} {id : Nat} {v : Var} {a b : Expr} {st : State} {c d : Json}
    (hid : id < st.projections.length) (hv : v < st.env.length) (ha : a.Fixed given st v c) (hb : b.Fixed given st v d)
    (hc : c.keys.length ≤ Numeral.maxIndex + 1) (hd : d.keys.length ≤ Numeral.maxIndex + 1) :
    (∀ k, (c.hasKey k = true ↔ ∃ k' ∈ c.keys, k'.keyText = k.keyText) ↔
      (c.isArray = true → c.hasKey k = true → k.isPlainIndex = true)) ∧
    ((∀ text, [text] ∈ survivors given id v a b st ↔ [text] ∈ survivors given id v b a st) ↔
      (d.isArray = true → ∀ k ∈ c.keys, d.hasKey k = true → k.isPlainIndex = true) ∧
      (c.isArray = true → ∀ k ∈ d.keys, c.hasKey k = true → k.isPlainIndex = true)) := by
  refine ⟨fun k => ⟨fun hiff harray hkey => ?_, fun hplain => ⟨fun hkey => ?_, ?_⟩⟩, ?_⟩
  · exact (Json.exists_keyText_eq_iff hc hkey).1 (hiff.1 hkey) harray
  · exact (Json.exists_keyText_eq_iff hc hkey).2 fun harray => hplain harray hkey
  · rintro ⟨k', hk', htext⟩
    exact Json.hasKey_of_keyText_eq hc hk' htext
  · simp only [mem_survivors hid hv ha hb, mem_survivors hid hv hb ha]
    rw [← Json.shared_texts_iff hc hd, ← Json.shared_texts_iff hd hc, ← forall_and]
    exact forall_congr' fun text => iff_def

open Stmt in
/-- The name `01` leads into an array of two, although no key of the array has this text. So it survives a loop over an object
with this name and a test on the array, and not a loop over the array and a test on the object. -/
theorem membership_of_padded_name :
    ¬ (Json.hasKey (.arr [.null, .null]) (.str "01") = true ↔ ∃ k ∈ Json.keys (.arr [.null, .null]), k.keyText = "01") ∧
    ¬ ∀ text,
      [text] ∈ survivors ⟨.null, .none, ⟨[]⟩⟩ 0 0 (.const (.arr [.null, .null])) (.const (.obj [("01", .null)]))
        ⟨[none], [], [.nil]⟩ ↔
      [text] ∈ survivors ⟨.null, .none, ⟨[]⟩⟩ 0 0 (.const (.obj [("01", .null)])) (.const (.arr [.null, .null]))
        ⟨[none], [], [.nil]⟩ := by
  have hfixed : ∀ c : Json, Expr.Fixed ⟨.null, .none, ⟨[]⟩⟩ ⟨[none], [], [.nil]⟩ 0 (.const c) c := fun _ _ _ => rfl
  have hagree := membership_agrees_with_keys_iff (by decide : 0 < 1) (by decide : 0 < 1) (hfixed (.arr [.null, .null]))
    (hfixed (.obj [("01", .null)])) (by decide) (by decide)
  refine ⟨fun hkeys => ?_, fun hsame => ?_⟩
  · exact absurd ((hagree.1 (.str "01")).1 hkeys rfl (by decide)) (by decide)
  · exact absurd ((hagree.2.1 hsame).2 rfl (.str "01") List.mem_cons_self (by decide)) (by decide)

end StarQuery
