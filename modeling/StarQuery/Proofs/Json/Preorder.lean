import Mathlib.Data.List.Nodup
import StarQuery.Proofs.NeedsFirst
import StarQuery.Proofs.Json.Paths

/-!
# The paths of a value in preorder

A collection leads by each of its keys to one of its parts, and to no part by two keys (`get?_of_mem_entries`, `nodup_keys`). The
paths of a value are the empty one and, for each key, the paths of the part with the key before them (`paths_eq_keys`). So they lead to
the value and to all that is in it, each part before its own parts, and every position is listed once
(`paths_enumerate_positions`).
-/

namespace StarQuery

namespace Json

/-! ## The keys of a collection -/

/-- The keys of a collection are those of its entries. -/
theorem keys_eq (v : Json) : v.keys = v.entries.map Prod.fst := by
  cases v with
  | obj fields => simp [keys, entries]
  | arr items =>
    rw [keys, entries, List.range_eq_range', ← List.zipIdx_map_snd 0 items, List.map_map, List.map_map]
    rfl
  | _ => rfl

/-- The keys of a proper value are different. -/
theorem nodup_keys {v : Json} (h : v.proper = true) : v.keys.Nodup := by
  cases v with
  | obj fields =>
    have hnames := (proper_obj.1 h).1.map (f := Json.str) fun _ _ heq => Json.str.inj heq
    rwa [Fields.names, List.map_map] at hnames
  | arr items =>
    refine List.nodup_range.map fun i j hij => ?_
    simpa [ofInt] using hij
  | _ => exact List.nodup_nil

/-! ## Paths and what they lead to -/

/-- The paths of a proper value: the empty one, and those through the parts that its keys lead to. -/
theorem paths_eq_keys {v : Json} (h : v.proper = true) :
    v.paths = [] :: v.keys.flatMap fun key => (v.get? key).elim [] fun part => part.paths.map (key :: ·) := by
  rw [paths_eq_entries, keys_eq, List.flatMap_map]
  refine congrArg ([] :: ·) (List.flatMap_congr fun e he => ?_)
  rw [get?_of_mem_entries h he, Option.elim_some]

mutual
/-- A value and all that is in it, each part before its own parts. -/
def preorder : Json → List Json
  | .arr items => .arr items :: itemsPreorder items
  | .obj fields => .obj fields :: fieldsPreorder fields
  | v => [v]
/-- The items of an array and all that is in them. -/
def itemsPreorder : List Json → List Json
  | [] => []
  | v :: rest => preorder v ++ itemsPreorder rest
/-- The values of fields and all that is in them. -/
def fieldsPreorder : List (String × Json) → List Json
  | [] => []
  | (_, v) :: rest => preorder v ++ fieldsPreorder rest
end

/-- A value comes first, then what is in each of its parts. -/
theorem preorder_eq_entries (v : Json) : v.preorder = v :: v.entries.flatMap fun e => e.2.preorder := by
  have hitems : ∀ (i : Nat) (items : List Json), itemsPreorder items = (items.zipIdx i).flatMap fun item => item.1.preorder := by
    intro i items
    induction items generalizing i with
    | nil => rfl
    | cons v items ih => rw [itemsPreorder, ih (i + 1), List.zipIdx_cons, List.flatMap_cons]
  have hfields : ∀ fields : Fields, fieldsPreorder fields = fields.flatMap fun field => field.2.preorder := by
    intro fields
    induction fields with
    | nil => rfl
    | cons field fields ih => rw [fieldsPreorder, ih, List.flatMap_cons]
  cases v with
  | obj fields => rw [preorder, hfields, entries, List.flatMap_map]
  | arr items => rw [preorder, hitems 0, entries, List.flatMap_map]
  | _ => rfl

/-- The paths of a proper value lead to the value and all that is in it. -/
theorem map_foldlM_paths {v : Json} (h : v.proper = true) : (v.paths.map fun path => path.foldlM get? v) = v.preorder.map some := by
  induction v using inductEntries with
  | step v ih =>
    have hentry : ∀ e ∈ v.entries,
        ((e.2.paths.map (e.1 :: ·)).map fun path => path.foldlM get? v) = e.2.preorder.map some := by
      intro e he
      rw [← ih e he (proper_of_mem_entries h he), List.map_map]
      refine List.map_congr_left fun path _ => ?_
      rw [Function.comp_apply, List.foldlM_cons, get?_of_mem_entries h he]
      rfl
    rw [paths_eq_entries, preorder_eq_entries, List.map_cons, List.map_cons, List.map_flatMap, List.map_flatMap,
      List.flatMap_congr hentry]
    rfl

/-- The paths of a proper value are different: two of them that go on through different entries differ in their first key. -/
theorem nodup_paths {v : Json} (h : v.proper = true) : v.paths.Nodup := by
  induction v using inductEntries with
  | step v ih =>
    rw [paths_eq_entries, List.nodup_cons, List.nodup_flatMap]
    refine ⟨fun hnil => ?_, fun e he => ?_, ?_⟩
    · obtain ⟨e, -, hnil⟩ := List.mem_flatMap.1 hnil
      obtain ⟨path, -, hcons⟩ := List.mem_map.1 hnil
      cases hcons
    · exact (ih e he (proper_of_mem_entries h he)).map fun _ _ heq => (List.cons.inj heq).2
    · have hkeys : (v.entries.map Prod.fst).Pairwise (· ≠ ·) := keys_eq v ▸ nodup_keys h
      refine (List.pairwise_map.1 hkeys).imp fun {e e'} hne path hpath hpath' => ?_
      obtain ⟨rest, -, rfl⟩ := List.mem_map.1 hpath
      obtain ⟨rest', -, heq⟩ := List.mem_map.1 hpath'
      exact hne (List.cons.inj heq).1.symm

/-- Every path but the empty one follows the path of its parent. -/
theorem needsFirst_paths (v : Json) : NeedsFirst (fun path parent => path ≠ [] ∧ parent = path.dropLast) [] v.paths := by
  induction v using inductEntries with
  | step v ih =>
    rw [paths_eq_entries]
    refine ⟨fun parent hparent => absurd rfl hparent.1, .flatMap fun e he => ?_⟩
    refine (ih e he).map (fun path hpath => absurd hpath List.not_mem_nil) ?_
    rintro path _ ⟨-, rfl⟩
    cases path with
    | nil => exact .inl List.mem_cons_self
    | cons key path => exact .inr ⟨_, ⟨List.cons_ne_nil key path, rfl⟩, rfl⟩

end Json

/-- The paths of a value, in which no object has a name twice, list every position of it once.

* They are the empty path and, for each key in turn, the paths of the part that the key leads to, with the key before them.
* They lead, one after the other, to the value itself and to all that is in it, each part before its own parts; no path leads
  nowhere.
* They are different.
* Before each path, but the empty one, stands the path of its parent. -/
theorem paths_enumerate_positions {v : Json} (h : v.proper = true) :
    (v.paths = [] :: v.keys.flatMap fun key => (v.get? key).elim [] fun part => part.paths.map (key :: ·)) ∧
      (v.paths.map fun path => v.getPath? (.arr path)) = v.preorder.map some ∧ v.paths.Nodup ∧
      ∀ before path after, v.paths = before ++ path :: after → path ≠ [] → path.dropLast ∈ before := by
  refine ⟨Json.paths_eq_keys h, Json.map_foldlM_paths h, Json.nodup_paths h, fun before path after hsplit hne => ?_⟩
  have horder := v.needsFirst_paths
  rw [hsplit] at horder
  exact (horder.mem_before ⟨hne, rfl⟩).resolve_right List.not_mem_nil

/-- An array in an object in an object, with other values beside them. -/
def nestedCounts : Json :=
  .obj [("all", .ofInt 7), ("parts", .obj [("kept", .ofInt 18), ("lost", .arr [.ofInt 28, .null])])]

/-- The seven positions of this value are found by its paths, and the last of them follows its parent. -/
theorem positions_of_nestedCounts :
    nestedCounts.proper = true ∧
      (nestedCounts.paths.map fun path => nestedCounts.getPath? (.arr path)) = nestedCounts.preorder.map some ∧
      nestedCounts.preorder.length = 7 ∧
      ∃ before, nestedCounts.paths = before ++ [[.str "parts", .str "lost", .ofInt 1]] ∧ [.str "parts", .str "lost"] ∈ before := by
  have hpositions := paths_enumerate_positions (v := nestedCounts) rfl
  refine ⟨rfl, hpositions.2.1, rfl, nestedCounts.paths.dropLast, rfl, ?_⟩
  exact hpositions.2.2.2 nestedCounts.paths.dropLast [.str "parts", .str "lost", .ofInt 1] [] rfl (List.cons_ne_nil _ _)

end StarQuery
