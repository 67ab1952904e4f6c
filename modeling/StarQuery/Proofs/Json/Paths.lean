import StarQuery.Json.Key
import StarQuery.Proofs.Json.Rows
import StarQuery.Proofs.Json.Text

/-!
# The paths of a value

The entries of a collection are its parts with their keys, and the paths of a value go through its entries (`Json.mem_paths`), so
that arrays and objects need not be told apart. Each path of a value leads to a part of it. If no object of the value has a name
twice, then to put this part at the path again changes nothing (`Json.exists_part`), so the parts, put at their paths one after the
other, make up the value (`Json.assemble_parts`).
-/

namespace StarQuery

namespace Json

/-! ## Values whose objects have every name once -/

mutual
/-- Whether every object in a value has each of its names once. -/
def proper : Json → Bool
  | .arr items => itemsProper items
  | .obj fields => decide (Fields.names fields).Nodup && fieldsProper fields
  | _ => true
/-- Whether all items of an array are proper. -/
def itemsProper : List Json → Bool
  | [] => true
  | v :: rest => proper v && itemsProper rest
/-- Whether the values of all fields are proper. -/
def fieldsProper : List (String × Json) → Bool
  | [] => true
  | (_, v) :: rest => proper v && fieldsProper rest
end

/-- An array is proper if its items are. -/
theorem proper_arr {items : List Json} : proper (.arr items) = true ↔ ∀ v ∈ items, proper v = true := by
  rw [proper]
  induction items with
  | nil => simp [itemsProper]
  | cons v rest ih => rw [itemsProper, Bool.and_eq_true, ih, List.forall_mem_cons]

/-- An object is proper if its names are different and its values proper. -/
theorem proper_obj {fields : Fields} :
    proper (.obj fields) = true ↔ fields.names.Nodup ∧ ∀ field ∈ fields, proper field.2 = true := by
  have hparts : fieldsProper fields = true ↔ ∀ field ∈ fields, proper field.2 = true := by
    induction fields with
    | nil => simp [fieldsProper]
    | cons field rest ih => rw [fieldsProper, Bool.and_eq_true, ih, List.forall_mem_cons]
  rw [proper, Bool.and_eq_true, decide_eq_true_eq, hparts]

/-! ## Keys -/

/-- An index names itself. -/
theorem index?_ofInt (i : Nat) : (ofInt i).index? = some i := by
  rw [ofInt, index?, Number.index?, if_pos (Int.natCast_nonneg i), Int.toNat_natCast]

/-- The keys of one collection differ in their texts. -/
theorem eq_of_keyText_eq {c k k' : Json} (hk : k ∈ c.keys) (hk' : k' ∈ c.keys) (h : k.keyText = k'.keyText) : k = k' := by
  cases c with
  | obj fields =>
    obtain ⟨field, -, rfl⟩ := List.mem_map.1 hk
    obtain ⟨field', -, rfl⟩ := List.mem_map.1 hk'
    exact congrArg Json.str h
  | arr items =>
    obtain ⟨i, -, rfl⟩ := List.mem_map.1 hk
    obtain ⟨j, -, rfl⟩ := List.mem_map.1 hk'
    exact congrArg ofInt (Number.text_int_inj h)
  | _ => cases hk

end Json

namespace Fields

/-- In an object that has each name once, a name leads to its field. -/
theorem get?_of_mem {fields : Fields} (hnodup : fields.names.Nodup) {field : String × Json} (h : field ∈ fields) :
    get? fields field.1 = some field.2 := by
  induction fields with
  | nil => cases h
  | cons first rest ih =>
    rw [names, List.map_cons, List.nodup_cons] at hnodup
    rw [get?_cons]
    rcases List.mem_cons.1 h with rfl | h
    · rw [if_pos rfl]
    · have hne : field.1 ≠ first.1 := fun heq => hnodup.1 (heq ▸ List.mem_map_of_mem h)
      rw [if_neg hne, ih hnodup.2 h]

/-- A change of a field that leaves its value changes nothing. -/
theorem alter_eq_self {fields : Fields} {name : String} {v : Json} (h : get? fields name = some v)
    {f : Option Json → Option Json} (hf : f (some v) = some v) : alter fields name f = fields := by
  induction fields with
  | nil => cases h
  | cons first rest ih =>
    obtain ⟨key, old⟩ := first
    rw [get?_cons] at h
    rw [alter]
    by_cases hkey : key = name
    · rw [if_pos hkey.symm, Option.some.injEq] at h
      rw [if_pos hkey, h, hf, Option.getD_some]
    · rw [if_neg (Ne.symm hkey)] at h
      rw [if_neg hkey, ih h]

end Fields

namespace Json

/-! ## The entries of a collection -/

/-- The parts of a collection with their keys, in order. -/
def entries : Json → List (Json × Json)
  | .obj fields => fields.map fun field => (.str field.1, field.2)
  | .arr items => items.zipIdx.map fun item => (ofInt item.2, item.1)
  | _ => []

/-- Every key of a proper value leads to its part. -/
theorem get?_of_mem_entries {v : Json} (h : v.proper = true) {e : Json × Json} (he : e ∈ v.entries) : v.get? e.1 = some e.2 := by
  cases v with
  | obj fields =>
    obtain ⟨field, hfield, rfl⟩ := List.mem_map.1 he
    exact Fields.get?_of_mem (proper_obj.1 h).1 hfield
  | arr items =>
    obtain ⟨item, hitem, rfl⟩ := List.mem_map.1 he
    rw [get?, index?_ofInt, Option.bind_some]
    exact List.mk_mem_zipIdx_iff_getElem?.1 hitem
  | _ => cases he

/-- The parts of a proper value are proper. -/
theorem proper_of_mem_entries {v : Json} (h : v.proper = true) {e : Json × Json} (he : e ∈ v.entries) : e.2.proper = true := by
  cases v with
  | obj fields =>
    obtain ⟨field, hfield, rfl⟩ := List.mem_map.1 he
    exact (proper_obj.1 h).2 field hfield
  | arr items =>
    obtain ⟨item, hitem, rfl⟩ := List.mem_map.1 he
    exact proper_arr.1 h item.1 (List.fst_mem_of_mem_zipIdx hitem)
  | _ => cases he

/-- Induction on values without regard to their form: what holds of a value whenever it holds of its parts holds of every value. -/
theorem inductEntries {motive : Json → Prop} (step : ∀ v, (∀ e ∈ v.entries, motive e.2) → motive v) (v : Json) : motive v := by
  induction v using induct with
  | null | bool | num | str => exact step _ fun e he => absurd he List.not_mem_nil
  | arr items ih =>
    refine step _ fun e he => ?_
    obtain ⟨item, hitem, rfl⟩ := List.mem_map.1 he
    exact ih item.1 (List.fst_mem_of_mem_zipIdx hitem)
  | obj fields ih =>
    refine step _ fun e he => ?_
    obtain ⟨field, hfield, rfl⟩ := List.mem_map.1 he
    exact ih field hfield

/-! ## Where paths lead -/

/-- The paths through items go through each of them by its index. -/
theorem itemPaths_eq (i : Nat) (items : List Json) :
    itemPaths i items = (items.zipIdx i).flatMap fun item => item.1.paths.map (ofInt item.2 :: ·) := by
  induction items generalizing i with
  | nil => rfl
  | cons v items ih => rw [itemPaths, ih, List.zipIdx_cons, List.flatMap_cons]

/-- The paths through fields go through each of them by its name. -/
theorem fieldPaths_eq (fields : Fields) :
    fieldPaths fields = fields.flatMap fun field => field.2.paths.map (.str field.1 :: ·) := by
  induction fields with
  | nil => rfl
  | cons field fields ih => rw [fieldPaths, ih, List.flatMap_cons]

/-- The paths of a value: the empty one, and those through its entries. -/
theorem paths_eq_entries (v : Json) : v.paths = [] :: v.entries.flatMap fun e => e.2.paths.map (e.1 :: ·) := by
  cases v with
  | obj fields => rw [paths, fieldPaths_eq, entries, List.flatMap_map]
  | arr items => rw [paths, itemPaths_eq, entries, List.flatMap_map]
  | _ => rfl

/-- A path of a value is empty, or goes through one of the entries. -/
theorem mem_paths {v : Json} {path : List Json} :
    path ∈ v.paths ↔ path = [] ∨ ∃ e ∈ v.entries, ∃ rest ∈ e.2.paths, e.1 :: rest = path := by
  rw [paths_eq_entries, List.mem_cons, List.mem_flatMap]
  simp only [List.mem_map]

/-- A path of a proper value leads to a part of it, which can be put there again without a change. -/
theorem exists_part {t : Json} (h : t.proper = true) {path : List Json} (hpath : path ∈ t.paths) :
    ∃ x, path.foldlM get? t = some x ∧ setAt (path.map keyText) x t = t := by
  induction t using inductEntries generalizing path with
  | step t ih =>
    rcases mem_paths.1 hpath with rfl | ⟨e, he, rest, hrest, rfl⟩
    · exact ⟨t, rfl, rfl⟩
    · obtain ⟨x, hx, hset⟩ := ih e he (proper_of_mem_entries h he) hrest
      have hget := get?_of_mem_entries h he
      refine ⟨x, ?_, ?_⟩
      · rw [List.foldlM_cons, hget]
        exact hx
      · rw [List.map_cons]
        cases t with
        | obj fields =>
          rw [setAt, Fields.alter_eq_self hget]
          rw [Option.getD_some, hset]
        | _ => rfl

/-- The part of a value that a path leads to, with the names on the way. -/
def part? (t : Json) (path : List Json) : Option Row := (path.foldlM get? t).map fun x => (path.map keyText, x)

/-- The parts of a value, each before its own parts. -/
def parts (t : Json) : List Row := t.paths.filterMap t.part?

/-- The parts of a proper value make it up: it stands there once its first path, the empty one, has been followed, and no later
part changes it. -/
theorem assemble_parts {t : Json} (h : t.proper = true) : assemble t.parts = t := by
  have hlater : ∀ paths : List (List Json), (∀ path ∈ paths, path ∈ t.paths) →
      (paths.filterMap t.part?).foldl (fun state row => setAt row.1 row.2 state) t = t := by
    intro paths hpaths
    induction paths with
    | nil => rfl
    | cons path paths ih =>
      rw [List.forall_mem_cons] at hpaths
      obtain ⟨x, hx, hset⟩ := exists_part h hpaths.1
      have hpart : t.part? path = some (path.map keyText, x) := by rw [part?, hx, Option.map_some]
      rw [List.filterMap_cons_some hpart, List.foldl_cons, hset]
      exact ih hpaths.2
  have hfirst : t.part? [] = some ([], t) := rfl
  rw [assemble, parts, paths_eq_entries, List.filterMap_cons_some hfirst, List.foldl_cons, setAt]
  refine hlater _ fun path hmem => ?_
  rw [paths_eq_entries]
  exact List.mem_cons_of_mem _ hmem

end Json

end StarQuery
