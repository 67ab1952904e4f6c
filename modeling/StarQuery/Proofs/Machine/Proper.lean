import StarQuery.Proofs.Json.Preorder
import StarQuery.Proofs.Program.Statements
import StarQuery.Machine.Exec

/-!
# Values with every name once

If no object of what a run is given has a name twice, neither has any value that an expression takes (`Expr.proper_eval`). A
collection of such a kind offers no choice twice (`Stmt.nodup_choices`).
-/

namespace StarQuery

/-- A value, if there is one, has no object with a name twice. -/
def ProperIfDefined (x : Option Json) : Prop := ∀ v, x = some v → v.proper = true

theorem properIfDefined_some {v : Json} (h : v.proper = true) : ProperIfDefined (some v) := by
  intro w hw
  rwa [← Option.some.inj hw]

theorem properIfDefined_none : ProperIfDefined none := by
  intro v hv
  cases hv

/-- One step after the other, each of which makes no object with a name twice. -/
theorem ProperIfDefined.bind {x : Option Json} {f : Json → Option Json} (hx : ProperIfDefined x)
    (hf : ∀ v : Json, v.proper = true → ProperIfDefined (f v)) : ProperIfDefined (x.bind f) := by
  intro w hw
  obtain ⟨v, hv, hfv⟩ := Option.bind_eq_some_iff.1 hw
  exact hf v (hx v hv) w hfv

/-! ## Parts and paths -/

namespace Json

/-- What a key leads to has no object with a name twice. -/
theorem proper_get? {c : Json} (h : c.proper = true) (key : Json) : ProperIfDefined (c.get? key) := by
  intro v hv
  cases c with
  | obj fields => exact (proper_obj.1 h).2 _ (Fields.mem_of_get? hv)
  | arr items =>
    obtain ⟨i, -, hi⟩ := Option.bind_eq_some_iff.1 hv
    exact proper_arr.1 h v (List.mem_of_getElem? hi)
  | _ => cases hv

/-- What a path leads to has no object with a name twice. -/
theorem proper_getPath? {c : Json} (h : c.proper = true) (path : Json) : ProperIfDefined (c.getPath? path) := by
  cases path with
  | arr keys =>
    rw [getPath?]
    induction keys generalizing c with
    | nil => exact properIfDefined_some h
    | cons key keys ih =>
      rw [List.foldlM_cons]
      exact (proper_get? h key).bind fun v hv => ih hv
  | _ => exact properIfDefined_none

/-- An object with one name has it once. -/
theorem proper_singleton {x : Option Json} (h : ProperIfDefined x) : (singleton x).proper = true := by
  cases x with
  | none => rfl
  | some v =>
    refine proper_obj.2 ⟨by simp [Fields.names], ?_⟩
    simpa using h v rfl

/-- The keys on a path are texts and numbers, in which there are no objects. -/
theorem proper_of_mem_paths {t : Json} {path : List Json} (h : path ∈ t.paths) : ∀ key ∈ path, key.proper = true := by
  induction t using inductEntries generalizing path with
  | step t ih =>
    rcases mem_paths.1 h with rfl | ⟨e, he, rest, hrest, rfl⟩
    · exact fun key hkey => absurd hkey List.not_mem_nil
    · refine List.forall_mem_cons.2 ⟨?_, ih e he hrest⟩
      -- a key is a name or an index
      cases t with
      | obj fields =>
        obtain ⟨field, -, rfl⟩ := List.mem_map.1 he
        rfl
      | arr items =>
        obtain ⟨item, -, rfl⟩ := List.mem_map.1 he
        rfl
      | _ => cases he

end Json

namespace Stmt

/-- No choice is offered twice. -/
theorem nodup_choices (deep : Bool) {collection : Json} (h : collection.proper = true) : (choices deep collection).Nodup := by
  cases deep with
  | true => exact (Json.nodup_paths h).map (fun _ _ heq => by simpa using heq)
  | false => exact Json.nodup_keys h

/-- The choices are keys and paths, in which there are no objects. -/
theorem proper_of_mem_choices {deep : Bool} {collection value : Json} (h : value ∈ choices deep collection) :
    value.proper = true := by
  cases deep with
  | true =>
    obtain ⟨path, hpath, rfl⟩ := List.mem_map.1 h
    exact Json.proper_arr.2 (Json.proper_of_mem_paths hpath)
  | false =>
    have hkey : value ∈ collection.keys := h
    cases collection with
    | obj fields =>
      obtain ⟨field, -, rfl⟩ := List.mem_map.1 hkey
      rfl
    | arr items =>
      obtain ⟨i, -, rfl⟩ := List.mem_map.1 hkey
      rfl
    | _ => cases hkey

end Stmt

/-! ## Operators -/

/-- Functions make no object with a name twice of values that have none. -/
def Functions.Proper (functions : Functions) : Prop :=
  ∀ name f, functions name = some f → ∀ args : List (Option Json), (∀ a ∈ args, ProperIfDefined a) → ProperIfDefined (f args)

namespace Json

/-- A double is no object. -/
theorem proper_ofFloat? (x : Float) : ProperIfDefined (ofFloat? x) := by
  unfold ofFloat?
  split
  · split
    · exact properIfDefined_some rfl
    · exact properIfDefined_some rfl
  · split
    · exact properIfDefined_some rfl
    · exact properIfDefined_none

/-- What is computed through doubles is no object. -/
theorem proper_throughFloats (f : Float → Float → Float) (a b : Json) : ProperIfDefined (Pointwise.throughFloats f a b) := by
  unfold Pointwise.throughFloats
  intro v hv
  obtain ⟨x, -, hx⟩ := Option.bind_eq_some_iff.1 hv
  obtain ⟨y, -, hy⟩ := Option.bind_eq_some_iff.1 hx
  exact proper_ofFloat? _ v hy

/-- The result of arithmetic is no object. -/
theorem proper_combine (onInt : Int → Int → Int) (onFloat : Float → Float → Float) (a b : Json) :
    ProperIfDefined (combine onInt onFloat a b) := by
  unfold combine
  split
  · split
    · exact properIfDefined_some rfl
    · exact proper_throughFloats onFloat a b
  · exact proper_throughFloats onFloat a b

end Json

namespace Pointwise

/-- An operator on two values makes no object with a name twice, if its function makes none. -/
theorem proper_binary {f : Json → Json → Option Json} (hf : ∀ a b, ProperIfDefined (f a b)) (args : List (Option Json)) :
    ProperIfDefined (binary f args) := by
  unfold binary
  split
  · exact hf _ _
  · exact properIfDefined_none

/-- The result of a test is a truth value. -/
theorem proper_test (p : Json → Json → Bool) (args : List (Option Json)) : ProperIfDefined (test p args) := by
  refine proper_binary (fun a b => ?_) args
  split
  · exact properIfDefined_some rfl
  · exact properIfDefined_none

/-- The operators make no object with a name twice of values that have none. -/
theorem proper_eval {functions : Functions} (hfunctions : functions.Proper) (op : Pointwise) {args : List (Option Json)}
    (hargs : ∀ a ∈ args, ProperIfDefined a) : ProperIfDefined (op.eval functions args) := by
  have hvalues : ∀ v ∈ args.filterMap id, v.proper = true := by
    intro v hv
    obtain ⟨a, ha, hsome⟩ := List.mem_filterMap.1 hv
    exact hargs a ha v hsome
  cases op with
  | apply =>
    rcases args with _ | ⟨_ | first, rest⟩
    · exact properIfDefined_none
    · exact properIfDefined_none
    · cases first with
      | str name =>
        intro v hv
        obtain ⟨f, hf, hresult⟩ := Option.bind_eq_some_iff.1 hv
        exact hfunctions name f hf rest (List.forall_mem_cons.1 hargs).2 v hresult
      | _ => exact properIfDefined_none
  | plus | minus | times => exact proper_binary (Json.proper_combine _ _) args
  | fdiv | div | mod => exact proper_binary (Json.proper_throughFloats _) args
  | equal | notEqual | lessThan | lessThanOrEqual | greaterThan | greaterThanOrEqual => exact proper_test _ args
  | and | andAlso =>
    rcases args with _ | ⟨a, _ | ⟨b, rest⟩⟩
    · exact properIfDefined_none
    · exact properIfDefined_none
    · rw [List.forall_mem_cons, List.forall_mem_cons] at hargs
      rw [eval]
      split
      · exact hargs.2.1
      · exact properIfDefined_none
  | orElse =>
    rcases args with _ | ⟨a, _ | ⟨b, rest⟩⟩
    · exact properIfDefined_none
    · exact properIfDefined_none
    · rw [List.forall_mem_cons, List.forall_mem_cons] at hargs
      rw [eval]
      split
      · exact hargs.1
      · exact hargs.2.1
  | ifElse =>
    rcases args with _ | ⟨cond, _ | ⟨yes, _ | ⟨no, rest⟩⟩⟩
    · exact properIfDefined_none
    · exact properIfDefined_none
    · exact properIfDefined_none
    · rw [List.forall_mem_cons, List.forall_mem_cons, List.forall_mem_cons] at hargs
      rw [eval]
      split
      · exact hargs.2.1
      · exact hargs.2.2.1
  | singleton =>
    refine properIfDefined_some (Json.proper_singleton ?_)
    cases args with
    | nil => exact properIfDefined_none
    | cons a rest => exact hargs a List.mem_cons_self
  | flatten =>
    refine properIfDefined_some (Json.proper_arr.2 fun v hv => ?_)
    obtain ⟨w, hw, hitem⟩ := List.mem_flatMap.1 hv
    have hproper := hvalues w hw
    cases w with
    | arr items => exact Json.proper_arr.1 hproper v hitem
    | _ => rwa [List.mem_singleton.1 hitem]
  | vars => exact properIfDefined_some (Json.proper_arr.2 hvalues)

end Pointwise

/-! ## Expressions -/

/-- What is given to a run has no object with a name twice, and its functions make none. -/
structure Given.Proper (given : Given) : Prop where
  input : given.input.proper = true
  functions : given.functions.Proper

/-- The constants among some expressions, and the values that a state has for the variables and the slots among them, have no
object with a name twice. -/
structure State.ProperOn (st : State) (xs : List Expr) : Prop where
  constants : ∀ value, .const value ∈ xs → value.proper = true
  values : ∀ v, .var v ∈ xs → ProperIfDefined (st.value? v)
  slots : ∀ slot keys, .slot slot keys ∈ xs → ProperIfDefined (st.slot? slot)

/-- The same holds of fewer expressions. -/
theorem State.ProperOn.mono {st : State} {xs ys : List Expr} (h : st.ProperOn ys) (hxs : xs ⊆ ys) : st.ProperOn xs :=
  ⟨fun value hv => h.constants value (hxs hv), fun v hv => h.values v (hxs hv),
    fun slot keys hslot => h.slots slot keys (hxs hslot)⟩

section
variable {given : Given} {st : State}

mutual
/-- The values of expressions have no object with a name twice. -/
theorem Expr.proper_eval (hgiven : given.Proper) : ∀ x : Expr, st.ProperOn x.parts → ProperIfDefined (x.eval given st)
  | .input, _ => properIfDefined_some hgiven.input
  | .const value, h => properIfDefined_some (h.constants value List.mem_cons_self)
  | .var v, h => h.values v List.mem_cons_self
  | .undefined _, _ => properIfDefined_none
  | .get base key, h => by
    have hbase := proper_eval hgiven base (h.mono (List.subset_cons_of_subset _ (List.subset_append_left _ _)))
    have hkey := proper_eval hgiven key (h.mono (List.subset_cons_of_subset _ (List.subset_append_right _ _)))
    exact hbase.bind fun b hb => hkey.bind fun k _ => Json.proper_get? hb k
  | .deepGet base path, h => by
    have hbase := proper_eval hgiven base (h.mono (List.subset_cons_of_subset _ (List.subset_append_left _ _)))
    have hpath := proper_eval hgiven path (h.mono (List.subset_cons_of_subset _ (List.subset_append_right _ _)))
    exact hbase.bind fun b hb => hpath.bind fun p _ => Json.proper_getPath? hb p
  | .pointwise op args, h => by
    exact op.proper_eval hgiven.functions (proper_evalAll hgiven args (h.mono (List.subset_cons_self _ _)))
  | .singleton arg, h => by
    exact properIfDefined_some (Json.proper_singleton (proper_eval hgiven arg (h.mono (List.subset_cons_self _ _))))
  | .nop, _ => properIfDefined_some rfl
  | .slot id keys, h => by
    exact (h.slots id keys List.mem_cons_self).bind fun held hheld =>
      proper_follow hgiven hheld keys (h.mono (List.subset_cons_self _ _))
/-- The values of a list of expressions have no object with a name twice. -/
theorem Expr.proper_evalAll (hgiven : given.Proper) : ∀ xs : List Expr, st.ProperOn (listParts xs) →
    ∀ a ∈ evalAll given st xs, ProperIfDefined a
  | [], _ => fun _ ha => absurd ha List.not_mem_nil
  | x :: xs, h => List.forall_mem_cons.2 ⟨proper_eval hgiven x (h.mono (List.subset_append_left _ _)),
      proper_evalAll hgiven xs (h.mono (List.subset_append_right _ _))⟩
/-- What keys lead to in a slot has no object with a name twice. -/
theorem Expr.proper_follow (hgiven : given.Proper) {held : Json} (hheld : held.proper = true) : ∀ xs : List Expr,
    st.ProperOn (listParts xs) → ProperIfDefined (follow given st held xs)
  | [], _ => properIfDefined_some hheld
  | x :: xs, h => by
    have hkey := proper_eval hgiven x (h.mono (List.subset_append_left _ _))
    exact hkey.bind fun key _ => (Json.proper_get? hheld key).bind fun part hpart =>
      proper_follow hgiven hpart xs (h.mono (List.subset_append_right _ _))
end

end

end StarQuery
