import StarQuery.Proofs.Json.Paths

/-!
# Putting a value at a path

To put a value at a path, the path is followed through objects, and objects that are missing are made on the way. A value that is
no object blocks the way. Below an object that was just made there is none, so a way is blocked before anything was made, and then
nothing is changed (`setAt_of_blocked`). On a free way the value is put at the end of the path, each object that is passed gets at
most one name more, at the end, and no other place is touched.
-/

namespace StarQuery

namespace Json

variable {path other : List String} {name : String} {value state : Json} {fields : Fields}

/-- Whether a value is an object. -/
def isObject : Json → Bool
  | .obj _ => true
  | _ => false

/-- On the way along a path, before its end, stands a value that is no object. -/
def Blocked (state : Option Json) (path : List String) : Prop :=
  ∃ before v, before <+: path ∧ before ≠ path ∧ at? before state = some v ∧ v.isObject = false

/-- The names of the object at a path, none if no object stands there. -/
def namesAt (path : List String) (state : Option Json) : List String := (fieldsOf (at? path state)).names

/-! ## Free ways -/

/-- The way along the empty path is at its end, so nothing blocks it. -/
theorem not_blocked_nil (state : Option Json) : ¬ Blocked state [] := by
  rintro ⟨before, v, hbegins, hne, -⟩
  exact hne (List.prefix_nil.1 hbegins)

/-- Nothing blocks a way where nothing stands. -/
theorem not_blocked_none (path : List String) : ¬ Blocked none path := by
  rintro ⟨before, v, -, -, hat, -⟩
  rw [at?_none] at hat
  cases hat

/-- An object does not block a way, so what blocks it stands further on. -/
theorem blocked_obj_iff : Blocked (some (.obj fields)) (name :: path) ↔ Blocked (Fields.get? fields name) path := by
  constructor
  · rintro ⟨before, v, hbegins, hne, hat, hv⟩
    cases before with
    | nil =>
      cases hat
      cases hv
    | cons first before =>
      obtain ⟨rfl, hrest⟩ := List.cons_prefix_cons.1 hbegins
      exact ⟨before, v, hrest, fun h => hne (h ▸ rfl), hat, hv⟩
  · rintro ⟨before, v, hbegins, hne, hat, hv⟩
    exact ⟨name :: before, v, List.cons_prefix_cons.2 ⟨rfl, hbegins⟩, fun h => hne (List.cons.inj h).2, hat, hv⟩

/-- A way that goes on and is free starts at an object. -/
theorem exists_obj_of_not_blocked (h : ¬ Blocked (some state) (name :: path)) : ∃ fields, state = .obj fields := by
  cases state with
  | obj fields => exact ⟨fields, rfl⟩
  | _ => exact absurd ⟨[], _, List.nil_prefix, (List.cons_ne_nil _ _).symm, rfl, rfl⟩ h

/-- An object that is made where nothing was does not block the way. -/
theorem blocked_getD_empty_iff {old : Option Json} : Blocked (some (old.getD empty)) path ↔ Blocked old path := by
  cases old with
  | some v => rfl
  | none =>
    refine iff_of_false ?_ (not_blocked_none path)
    cases path with
    | nil => exact not_blocked_nil _
    | cons name path =>
      rw [Option.getD_none, empty, blocked_obj_iff]
      exact not_blocked_none path

/-- Nor does it lead anywhere. -/
theorem at?_getD_empty (h : path ≠ []) (old : Option Json) : at? path (some (old.getD empty)) = at? path old := by
  cases old with
  | some v => rfl
  | none =>
    obtain ⟨name, path, rfl⟩ := List.exists_cons_of_ne_nil h
    rw [Option.getD_none, empty, at?, Fields.get?_nil, at?_none, at?_none]

/-- An object that is made where nothing was has no names. -/
theorem namesAt_getD_empty (path : List String) (old : Option Json) :
    namesAt path (some (old.getD empty)) = namesAt path old := by
  cases path with
  | nil => cases old <;> rfl
  | cons name path => rw [namesAt, at?_getD_empty (List.cons_ne_nil _ _), namesAt]

/-! ## One step of the way -/

/-- In an object, the field with the first name is changed, and the value is put further on there. -/
theorem at?_setAt_obj (first : String) :
    at? (first :: other) (some (setAt (name :: path) value (.obj fields))) =
      if first = name then at? other (some (setAt path value ((Fields.get? fields name).getD empty)))
      else at? other (Fields.get? fields first) := by
  rw [setAt, at?, Fields.get?_alter fun _ => rfl]
  split <;> rfl

/-! ## The whole way -/

/-- Nothing is changed if the way is blocked. -/
theorem setAt_of_blocked (h : Blocked (some state) path) : setAt path value state = state := by
  induction path generalizing state with
  | nil => exact absurd h (not_blocked_nil _)
  | cons name path ih =>
    cases state with
    | obj fields =>
      rw [blocked_obj_iff] at h
      -- what blocks the way was there before, or there would be no way on from here to be blocked
      cases hget : Fields.get? fields name with
      | none => exact absurd (hget ▸ h) (not_blocked_none path)
      | some v =>
        rw [hget] at h
        rw [setAt, Fields.alter_eq_self hget (congrArg some (ih h))]
    | _ => rfl

/-- The value stands at the end of a free way. -/
theorem at?_setAt_self (h : ¬ Blocked (some state) path) : at? path (some (setAt path value state)) = some value := by
  induction path generalizing state with
  | nil => rfl
  | cons name path ih =>
    obtain ⟨fields, rfl⟩ := exists_obj_of_not_blocked h
    rw [at?_setAt_obj, if_pos rfl]
    rw [blocked_obj_iff, ← blocked_getD_empty_iff] at h
    exact ih h

/-- A place that is neither on the way nor below its end is left as it is. -/
theorem at?_setAt_of_apart (hother : ¬ other <+: path) (hpath : ¬ path <+: other) :
    at? other (some (setAt path value state)) = at? other (some state) := by
  induction path generalizing other state with
  | nil => exact absurd List.nil_prefix hpath
  | cons name path ih =>
    cases state with
    | obj fields =>
      cases other with
      | nil => exact absurd List.nil_prefix hother
      | cons first other =>
        rw [at?_setAt_obj, at?]
        split
        · rename_i hfirst
          subst hfirst
          rw [List.cons_prefix_cons, not_and] at hother hpath
          have hne : other ≠ [] := fun h => hother rfl (h ▸ List.nil_prefix)
          rw [ih (hother rfl) (hpath rfl), at?_getD_empty hne]
        · rfl
    | _ => rfl

/-- An object on a free way keeps its names in order and has the next name of the path, at the end if it is new. -/
theorem exists_names_of_setAt {before : List String} (h : ¬ Blocked (some state) path) (hbegins : before ++ [name] <+: path) :
    ∃ fields, at? before (some (setAt path value state)) = some (.obj fields) ∧
      Fields.names fields =
        if name ∈ namesAt before (some state) then namesAt before (some state) else namesAt before (some state) ++ [name] := by
  induction before generalizing path state with
  | nil =>
    obtain ⟨rest, rfl⟩ := hbegins
    obtain ⟨fields, rfl⟩ := exists_obj_of_not_blocked h
    exact ⟨_, rfl, Fields.names_alter rfl fields name⟩
  | cons first before ih =>
    obtain ⟨rest, rfl⟩ := hbegins
    obtain ⟨fields, rfl⟩ := exists_obj_of_not_blocked h
    have hfree : ¬ Blocked (some ((Fields.get? fields first).getD empty)) (before ++ [name] ++ rest) := by
      rw [blocked_getD_empty_iff, ← blocked_obj_iff]
      exact h
    obtain ⟨names, hat, hnames⟩ := ih hfree (List.prefix_append _ rest)
    rw [namesAt_getD_empty] at hnames
    refine ⟨names, ?_, hnames⟩
    rw [List.cons_append, List.cons_append, at?_setAt_obj, if_pos rfl]
    exact hat

end Json

open Json in
/-- A value is put at one place or nothing is changed. If a value that is no object stands on the way along the path, before its
end, the state is left exactly as it was. Otherwise the path then leads to the value, every path that neither begins with it nor is a
beginning of it leads to what it led to before, and the objects on the way, made ones included, have the names that they had, in
order, and after them the next name of the path if it is new. -/
theorem values_are_put_at_one_place_or_none (path : List String) (value state : Json) :
    (Blocked (some state) path → setAt path value state = state) ∧
    (¬ Blocked (some state) path →
      at? path (some (setAt path value state)) = some value ∧
      (∀ other, ¬ other <+: path → ¬ path <+: other →
        at? other (some (setAt path value state)) = at? other (some state)) ∧
      ∀ before name, before ++ [name] <+: path →
        ∃ fields, at? before (some (setAt path value state)) = some (.obj fields) ∧
          Fields.names fields =
            if name ∈ namesAt before (some state) then namesAt before (some state)
            else namesAt before (some state) ++ [name]) :=
  ⟨setAt_of_blocked, fun h => ⟨at?_setAt_self h, fun _ hother hpath => at?_setAt_of_apart hother hpath,
    fun _ _ hbegins => exists_names_of_setAt h hbegins⟩⟩

/-- An object with an object and a number in it. -/
def stockOfShelves : Json := .obj [("left", .obj [("cups", .ofInt 3)]), ("right", .ofInt 7)]

open Json in
/-- The way to a new place in the inner object is free, the way through the number is blocked. -/
theorem values_are_put_on_shelves :
    (¬ Blocked (some stockOfShelves) ["left", "plates", "blue"] ∧
      at? ["left", "plates", "blue"] (some (setAt ["left", "plates", "blue"] (.ofInt 9) stockOfShelves)) = some (.ofInt 9) ∧
      at? ["left", "cups"] (some (setAt ["left", "plates", "blue"] (.ofInt 9) stockOfShelves)) = some (.ofInt 3) ∧
      ∃ fields, at? ["left"] (some (setAt ["left", "plates", "blue"] (.ofInt 9) stockOfShelves)) = some (.obj fields) ∧
        Fields.names fields = ["cups", "plates"]) ∧
    Blocked (some stockOfShelves) ["right", "cups"] ∧
      setAt ["right", "cups"] (.ofInt 9) stockOfShelves = stockOfShelves := by
  have hfree : ¬ Blocked (some stockOfShelves) ["left", "plates", "blue"] := by
    rw [stockOfShelves, blocked_obj_iff, Fields.get?_cons, if_pos rfl, blocked_obj_iff, Fields.get?_cons, if_neg (by decide)]
    exact not_blocked_none _
  have hblocked : Blocked (some stockOfShelves) ["right", "cups"] :=
    ⟨["right"], .ofInt 7, by decide, by decide, rfl, rfl⟩
  obtain ⟨hvalue, hapart, hnames⟩ :=
    (values_are_put_at_one_place_or_none ["left", "plates", "blue"] (.ofInt 9) stockOfShelves).2 hfree
  exact ⟨⟨hfree, hvalue, hapart ["left", "cups"] (by decide) (by decide), hnames ["left"] "plates" (by decide)⟩, hblocked,
    (values_are_put_at_one_place_or_none ["right", "cups"] (.ofInt 9) stockOfShelves).1 hblocked⟩

end StarQuery
