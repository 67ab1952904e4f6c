import Mathlib.Data.List.Induction
import Mathlib.Data.List.Nodup
import StarQuery.Proofs.Json.Place

/-!
# Values made up of rows

A row is a path of names with the value that belongs there. Rows whose paths have `k` names each, put one after the other into
the empty object, make up objects in objects, `k` deep, in which every row's path leads to its value and no other path of `k` names
leads anywhere. The names of every object stand in the order in which the rows first bring them, and no inner object is empty
(`Json.groups_assemble`).
-/

namespace StarQuery

/-! ## First occurrences -/

/-- A name that is seen once more is left out, and a new one comes last. -/
theorem eraseDups_snoc (xs : List String) (x : String) :
    (xs ++ [x]).eraseDups = if x ∈ xs then xs.eraseDups else xs.eraseDups ++ [x] := by
  rw [List.eraseDups_append]
  by_cases h : x ∈ xs <;> simp [List.removeAll, List.eraseDups_cons, h]

/-- First occurrences are different. -/
theorem nodup_eraseDups (xs : List String) : xs.eraseDups.Nodup := by
  induction xs using List.reverseRecOn with
  | nil => exact List.nodup_nil
  | append_singleton xs x ih =>
    rw [eraseDups_snoc]
    split
    · exact ih
    · rename_i hx
      rw [← List.concat_eq_append]
      exact List.Nodup.concat (by rwa [List.mem_eraseDups]) ih

namespace Fields

variable {f : Option Json → Option Json}

/-- A field that is not there is added at the end. -/
theorem alter_new {fields : Fields} {name : String} (h : ¬ name ∈ fields.names) {x : Json} (hf : f none = some x) :
    fields.alter name f = fields ++ [(name, x)] := by
  induction fields with
  | nil => rw [alter, hf]; rfl
  | cons field fields ih =>
    rw [names, List.map_cons, List.mem_cons, not_or] at h
    rw [alter, if_neg (Ne.symm h.1), ih h.2, List.cons_append]

/-- A change of a field keeps the names in order, with a new one at the end. -/
theorem names_alter (hf : (f none).isSome = true) (fields : Fields) (name : String) :
    (fields.alter name f).names = if name ∈ fields.names then fields.names else fields.names ++ [name] := by
  by_cases hname : name ∈ fields.names
  · rw [if_pos hname]
    induction fields with
    | nil => cases hname
    | cons field rest ih =>
      obtain ⟨key, old⟩ := field
      rw [alter]
      by_cases hkey : key = name
      · rw [if_pos hkey]
        rfl
      · rw [names, List.map_cons, List.mem_cons] at hname
        have hrest := ih (hname.resolve_left (Ne.symm hkey))
        rw [if_neg hkey, names, List.map_cons, ← names, hrest]
        rfl
  · obtain ⟨x, hx⟩ := Option.isSome_iff_exists.1 hf
    rw [if_neg hname, alter_new hname hx, names, List.map_append]
    rfl

/-- A change that makes something leaves a field. -/
theorem alter_ne_nil (hf : (f none).isSome = true) (fields : Fields) (name : String) : fields.alter name f ≠ [] := by
  intro h
  have hnames := names_alter hf fields name
  rw [h] at hnames
  split at hnames
  · rename_i hmem
    rw [← hnames] at hmem
    cases hmem
  · exact List.append_ne_nil_of_right_ne_nil _ (List.cons_ne_nil name []) hnames.symm

end Fields

namespace Json

/-! ## Putting rows together -/

/-- A path of names, and the value that belongs there. -/
abbrev Row := List String × Json

/-- What rows make up if their values are put at their paths, one after the other. -/
def assemble (rows : List Row) : Json := rows.foldl (fun state row => setAt row.1 row.2 state) empty

/-- The last row is put into what the rows before it make up. -/
theorem assemble_snoc (rows : List Row) (row : Row) : assemble (rows ++ [row]) = setAt row.1 row.2 (assemble rows) := by
  rw [assemble, List.foldl_append]
  rfl

/-- Changing what stands at a path to a value is putting the value there. -/
theorem alterAt_const (path : List String) (x : Json) (state : Option Json) :
    alterAt path (fun _ => some x) state = some (setAt path x (state.getD empty)) := by
  induction path generalizing state with
  | nil => rfl
  | cons name path ih =>
    have hrest : alterAt path (fun _ => some x) = fun old => some (setAt path x (old.getD empty)) := funext ih
    rw [alterAt, hrest]
    cases state.getD empty <;> rfl

/-- The name with which a path goes on after another. -/
def next? : List String → List String → Option String
  | [], name :: _ => some name
  | a :: path, b :: other => if a = b then next? path other else none
  | _, [] => none

/-- The names with which rows go on after a path, in the order in which they are first seen. -/
def nextNames (path : List String) (rows : List Row) : List String := (rows.filterMap fun row => next? path row.1).eraseDups

/-- A row adds the name with which it goes on after the path, at the end, if it goes on there and the name is new. -/
theorem nextNames_snoc (path : List String) (rows : List Row) (row : Row) :
    nextNames path (rows ++ [row]) =
      match next? path row.1 with
      | none => nextNames path rows
      | some name => if name ∈ nextNames path rows then nextNames path rows else nextNames path rows ++ [name] := by
  rw [nextNames, List.filterMap_append, List.filterMap_cons, List.filterMap_nil]
  cases next? path row.1 with
  | none => simp only [List.append_nil, nextNames]
  | some name => simp only [eraseDups_snoc, nextNames, List.mem_eraseDups]

/-- A change at a path reaches the objects on the way, of which it alters one field, and no other. -/
theorem at?_alterAt_shorter {f : Option Json → Option Json} (hf : ∀ v, (f (some v)).isSome = true) {path other : List String}
    {state : Option Json} (h : ∀ v ∈ state, Nested path.length v) (hlt : other.length < path.length) :
    (next? other path = none ∧ at? other (alterAt path f state) = at? other state) ∨
      ∃ name rest, next? other path = some name ∧
        at? other (alterAt path f state) = some (.obj (Fields.alter (fieldsOf (at? other state)) name (alterAt rest f))) := by
  induction path generalizing other state with
  | nil => cases hlt
  | cons name path ih =>
    obtain ⟨hfields, halter, hat⟩ := alterAt_cons (f := f) h name path
    have hfield : ∀ v ∈ Fields.get? (fieldsOf state) name, Nested path.length v := fun v hv =>
      hfields _ (Fields.mem_of_get? hv)
    cases other with
    | nil => exact .inr ⟨name, path, rfl, halter⟩
    | cons name' other =>
      rw [halter, hat, at?, Fields.get?_alter (isSome_alterAt hf path), next?]
      by_cases hname : name' = name
      · rw [if_pos hname, if_pos hname, hname]
        exact ih hfield (Nat.lt_of_succ_lt_succ hlt)
      · rw [if_neg hname, if_neg hname]
        exact .inl ⟨rfl, rfl⟩

/-! ## What rows make up -/

/-- A value groups rows with paths of `k` names. -/
structure Groups (k : Nat) (rows : List Row) (r : Json) : Prop where
  nested : r.Nested k
  /-- The paths of `k` names that lead anywhere are those of the rows, and lead to their values. -/
  leads : ∀ path x, path.length = k → (at? path (some r) = some x ↔ (path, x) ∈ rows)
  /-- The names of every object stand in the order in which the rows first bring them. -/
  ordered : ∀ path, path.length < k → (fieldsOf (at? path (some r))).names = nextNames path rows
  /-- Only the outermost object may be empty. -/
  inhabited : ∀ path, path ≠ [] → path.length < k → at? path (some r) ≠ some (.obj [])

/-- No rows make up the empty object. -/
theorem groups_empty (k : Nat) : Groups (k + 1) [] empty where
  nested := fun _ h => absurd h List.not_mem_nil
  leads path x hlen := by
    obtain ⟨name, path, rfl⟩ := List.exists_cons_of_length_eq_add_one hlen
    rw [empty, at?, Fields.get?_nil, at?_none]
    simp
  ordered path _ := by
    cases path with
    | nil => rfl
    | cons name path => rw [empty, at?, Fields.get?_nil, at?_none]; rfl
  inhabited path hne _ := by
    obtain ⟨name, path, rfl⟩ := List.exists_cons_of_ne_nil hne
    rw [empty, at?, Fields.get?_nil, at?_none]
    exact (Option.some_ne_none _).symm

/-- One more row, which brings no other value where a row with its path was before. -/
theorem Groups.snoc {k : Nat} {rows : List Row} {r : Json} (h : Groups k rows r) {row : Row} (hlen : row.1.length = k)
    (hsame : ∀ x, (row.1, x) ∈ rows → x = row.2) : Groups k (rows ++ [row]) (setAt row.1 row.2 r) := by
  obtain ⟨path, x⟩ := row
  have hset : some (setAt path x r) = alterAt path (fun _ => some x) (some r) := (alterAt_const path x (some r)).symm
  have hnested : ∀ v ∈ some r, Nested path.length v := fun v hv => Option.mem_some.1 hv ▸ hlen ▸ h.nested
  have hdefined : ∀ v : Json, ((fun _ => some x : Option Json → Option Json) (some v)).isSome = true := fun _ => rfl
  have hmade : ∀ rest, (alterAt rest (fun _ => some x) none).isSome = true := fun rest => by rw [alterAt_const]; rfl
  refine ⟨?_, fun other y hother => ?_, fun other hlt => ?_, fun other hne hlt => ?_⟩
  · exact hlen ▸ nested_alterAt hdefined hnested _ hset.symm
  · rw [hset, at?_alterAt hdefined hnested (hother.trans hlen.symm), List.mem_append, List.mem_singleton, Prod.mk.injEq]
    by_cases heq : other = path
    · rw [if_pos heq, heq, Option.some.injEq]
      exact ⟨fun hx => .inr ⟨rfl, hx.symm⟩, fun hor => hor.elim (fun hmem => (hsame y hmem).symm) fun hx => hx.2.symm⟩
    · rw [if_neg heq, h.leads other y hother]
      exact ⟨.inl, fun hor => hor.resolve_right fun hx => heq hx.1⟩
  · rw [nextNames_snoc, hset]
    rcases at?_alterAt_shorter (f := fun _ => some x) hdefined hnested (hlen ▸ hlt) with ⟨hnext, hat⟩ | ⟨name, rest, hnext, hat⟩
    · rw [hat, hnext, h.ordered other hlt]
    · rw [hat, hnext, fieldsOf, Fields.names_alter (hmade rest), h.ordered other hlt]
  · rw [hset]
    rcases at?_alterAt_shorter (f := fun _ => some x) hdefined hnested (hlen ▸ hlt) with ⟨-, hat⟩ | ⟨name, rest, -, hat⟩
    · rw [hat]
      exact h.inhabited other hne hlt
    · rw [hat]
      exact fun heq => Fields.alter_ne_nil (hmade rest) _ name (Json.obj.inj (Option.some.inj heq))

/-- Rows with paths of `k + 1` names, of which no two bring different values to one place, are grouped by what they make up. -/
theorem groups_assemble {k : Nat} {rows : List Row} (hlen : ∀ row ∈ rows, row.1.length = k + 1)
    (hsame : ∀ path x y, (path, x) ∈ rows → (path, y) ∈ rows → x = y) : Groups (k + 1) rows (assemble rows) := by
  induction rows using List.reverseRecOn with
  | nil => exact groups_empty k
  | append_singleton rows row ih =>
    have hold : Groups (k + 1) rows (assemble rows) :=
      ih (fun row hrow => hlen row (List.mem_append_left _ hrow))
        fun path x y hx hy => hsame path x y (List.mem_append_left _ hx) (List.mem_append_left _ hy)
    have hlast : row ∈ rows ++ [row] := List.mem_append_right _ (List.mem_singleton_self row)
    rw [assemble_snoc]
    exact hold.snoc (hlen row hlast) fun x hx => hsame row.1 x row.2 (List.mem_append_left _ hx) hlast

end Json

end StarQuery
