import StarQuery.Json.Place

/-!
# Places in nested objects

A slot with `k` keys holds objects in objects, `k` deep. Changing what stands at a path of `k` names changes what is found at
that path and nothing else, and leaves the objects `k` deep, if the change never makes nothing of something.
-/

namespace StarQuery

namespace Fields

theorem get?_nil (name : String) : get? [] name = none := rfl

/-- A name leads to the first field that has it. -/
theorem get?_cons (key : String) (v : Json) (rest : Fields) (name : String) :
    get? ((key, v) :: rest) name = if name = key then some v else get? rest name := by
  rw [get?, List.lookup_cons]
  by_cases h : name = key
  · simp [h]
  · simp only [beq_eq_false_iff_ne.2 h, if_neg h]
    rfl

/-- What a name leads to is the value of a field with this name. -/
theorem mem_of_get? {fields : Fields} {name : String} {v : Json} (h : get? fields name = some v) : (name, v) ∈ fields := by
  induction fields with
  | nil => cases h
  | cons field rest ih =>
    rw [get?_cons] at h
    split at h
    · rename_i hname
      cases h
      exact hname ▸ List.mem_cons_self
    · exact List.mem_cons_of_mem _ (ih h)

variable {f : Option Json → Option Json}

/-- What a field is after a change that never makes nothing of something. -/
theorem get?_alter (hf : ∀ v, (f (some v)).isSome = true) (fields : Fields) (name other : String) :
    get? (alter fields name f) other = if other = name then f (get? fields name) else get? fields other := by
  induction fields with
  | nil =>
    rw [alter, get?_nil, get?_nil]
    cases f none with
    | none => simp [get?_nil]
    | some v => rw [get?_cons, get?_nil]
  | cons field rest ih =>
    obtain ⟨key, old⟩ := field
    rw [alter]
    by_cases hkey : key = name
    · obtain ⟨v, hv⟩ := Option.isSome_iff_exists.1 (hf old)
      rw [if_pos hkey, get?_cons, get?_cons, get?_cons, hkey, if_pos rfl, hv, Option.getD_some]
      split <;> rfl
    · rw [if_neg hkey, get?_cons, ih, get?_cons, get?_cons, if_neg (Ne.symm hkey)]
      by_cases hother : other = name
      · rw [if_pos hother, if_pos hother, if_neg (fun h => hkey (h.symm.trans hother))]
      · rw [if_neg hother, if_neg hother]

/-- A field after such a change is an old one, or the change made it. -/
theorem mem_alter (hf : ∀ v, (f (some v)).isSome = true) {fields : Fields} {name : String} {field : String × Json}
    (h : field ∈ alter fields name f) :
    field ∈ fields ∨ f none = some field.2 ∨ ∃ old ∈ fields, f (some old.2) = some field.2 := by
  induction fields with
  | nil =>
    rw [alter] at h
    cases hnone : f none with
    | none => simp [hnone] at h
    | some v =>
      simp only [hnone, List.mem_singleton] at h
      exact .inr (.inl (h ▸ rfl))
  | cons head rest ih =>
    obtain ⟨key, old⟩ := head
    rw [alter] at h
    split at h
    · rcases List.mem_cons.1 h with rfl | h
      · obtain ⟨v, hv⟩ := Option.isSome_iff_exists.1 (hf old)
        refine .inr (.inr ⟨(key, old), List.mem_cons_self, ?_⟩)
        simp only [hv, Option.getD_some]
      · exact .inl (List.mem_cons_of_mem _ h)
    · rcases List.mem_cons.1 h with rfl | h
      · exact .inl List.mem_cons_self
      · rcases ih h with h | h | ⟨o, ho, h⟩
        · exact .inl (List.mem_cons_of_mem _ h)
        · exact .inr (.inl h)
        · exact .inr (.inr ⟨o, List.mem_cons_of_mem _ ho, h⟩)

end Fields

namespace Json

/-- What stands at a path of names through objects. -/
def at? : List String → Option Json → Option Json
  | [], state => state
  | name :: path, some (.obj fields) => at? path (Fields.get? fields name)
  | _ :: _, _ => none

/-- Nothing stands below where nothing stands. -/
theorem at?_none (path : List String) : at? path none = none := by
  cases path <;> rfl

/-- Objects in objects, `k` deep. -/
def Nested : Nat → Json → Prop
  | 0, _ => True
  | k + 1, .obj fields => ∀ field ∈ fields, Nested k field.2
  | _ + 1, _ => False

variable {f : Option Json → Option Json}

/-- A change that never makes nothing of something, made further on, leaves something where something was. -/
theorem isSome_alterAt (hf : ∀ v, (f (some v)).isSome = true) (path : List String) (v : Json) :
    (alterAt path f (some v)).isSome = true := by
  cases path with
  | nil => exact hf v
  | cons name path =>
    rw [alterAt]
    split <;> rfl

/-- The fields of what stands somewhere, none if that is no object. -/
def fieldsOf : Option Json → Fields
  | some (.obj fields) => fields
  | _ => []

/-- What is changed are the fields of an object, the empty one if there is none yet. -/
theorem alterAt_cons {k : Nat} {state : Option Json} (h : ∀ v ∈ state, Nested (k + 1) v) (name : String)
    (path : List String) :
    (∀ field ∈ fieldsOf state, Nested k field.2) ∧
      alterAt (name :: path) f state = some (.obj (Fields.alter (fieldsOf state) name (alterAt path f))) ∧
      ∀ other rest, at? (other :: rest) state = at? rest (Fields.get? (fieldsOf state) other) := by
  cases state with
  | none => exact ⟨fun _ hmem => absurd hmem List.not_mem_nil, rfl, fun other rest => (at?_none rest).symm⟩
  | some v =>
    have hv := h v rfl
    cases v with
    | obj fields => exact ⟨hv, rfl, fun _ _ => rfl⟩
    | _ => exact hv.elim

/-- A change at a path changes what stands there and nothing at another path of the same length. -/
theorem at?_alterAt (hf : ∀ v, (f (some v)).isSome = true) {path other : List String} {state : Option Json}
    (h : ∀ v ∈ state, Nested path.length v) (hlen : other.length = path.length) :
    at? other (alterAt path f state) = if other = path then f (at? path state) else at? other state := by
  induction path generalizing other state with
  | nil =>
    rw [List.length_eq_zero_iff.1 hlen]
    rfl
  | cons name path ih =>
    obtain ⟨hfields, halter, hat⟩ := alterAt_cons (f := f) h name path
    have hfield : ∀ v ∈ Fields.get? (fieldsOf state) name, Nested path.length v := fun v hv => hfields _ (Fields.mem_of_get? hv)
    cases other with
    | nil => cases hlen
    | cons name' other =>
      rw [halter, hat, hat, at?, Fields.get?_alter (isSome_alterAt hf path)]
      by_cases hname : name' = name
      · rw [if_pos hname, ih hfield (Nat.succ.inj hlen), hname]
        simp only [List.cons.injEq, true_and]
      · rw [if_neg hname, if_neg fun h => hname (List.cons.inj h).1]

/-- A change at a path of `k` names leaves objects `k` deep. -/
theorem nested_alterAt (hf : ∀ v, (f (some v)).isSome = true) {path : List String} {state : Option Json}
    (h : ∀ v ∈ state, Nested path.length v) : ∀ v ∈ alterAt path f state, Nested path.length v := by
  induction path generalizing state with
  | nil => exact fun _ _ => trivial
  | cons name path ih =>
    obtain ⟨hfields, halter, -⟩ := alterAt_cons (f := f) h name path
    intro v hv
    rw [halter] at hv
    cases hv
    intro field hfield
    rcases Fields.mem_alter (isSome_alterAt hf path) hfield with hold | hnew | ⟨old, hold, hnew⟩
    · exact hfields field hold
    · exact ih (fun _ hv => absurd hv (Option.not_mem_none _)) field.2 hnew
    · exact ih (fun v hv => Option.mem_some.1 hv ▸ hfields old hold) field.2 hnew

end Json

end StarQuery
