import StarQuery.Proofs.Json.Place
import StarQuery.Query.Json

/-!
# Queries survive being stored

What a value stores depends only on the fields that the form of the query has (`ofJson?_obj`), so a query is read back from the
value that it is stored as (`ofJson?_toJson`). Two values are alike if they agree on these fields, at any depth: they may differ in
the order of the fields, in other fields, and in a base that is missing or null. Values that store the same query are alike
(`alike_of_ofJson?`), and values that are alike store the same (`Alike.readsSame`).
-/

namespace StarQuery

namespace Query

/-- Induction over queries, with a hypothesis for every part. -/
theorem induct {motive : Query → Prop} (input : motive .input) (const : ∀ value, motive (.const value))
    (ident : ∀ name, motive (.ident name)) (member : ∀ key, motive key → motive (.member key))
    (get : ∀ base key, motive base → motive key → motive (.get base key))
    (apply : ∀ head args, motive head → (∀ q ∈ args, motive q) → motive (.apply head args))
    (op : ∀ name args, (∀ q ∈ args, motive q) → motive (.op name args))
    (hint : ∀ head args, motive head → (∀ q ∈ args, motive q) → motive (.hint head args))
    (array : ∀ items, (∀ q ∈ items, motive q) → motive (.array items))
    (object : ∀ entries, (∀ e ∈ entries, motive e.1 ∧ motive e.2) → motive (.object entries)) (q : Query) : motive q :=
  @Query.rec motive (fun qs => ∀ q ∈ qs, motive q) (fun es => ∀ e ∈ es, motive e.1 ∧ motive e.2)
    (fun e => motive e.1 ∧ motive e.2) input const ident member get apply op hint array object
    (fun _ h => absurd h List.not_mem_nil)
    (fun _ _ hq hrest _ h => (List.mem_cons.1 h).elim (fun e => e ▸ hq) (hrest _))
    (fun _ h => absurd h List.not_mem_nil)
    (fun _ _ he hrest _ h => (List.mem_cons.1 h).elim (fun e => e ▸ he) (hrest _))
    (fun _ _ hkey hvalue => ⟨hkey, hvalue⟩) q

/-! ## Fields -/

section Fields
variable {α : Type} {field : String} {fields : Fields}

/-- Reading the first field of a name is looking the name up. -/
theorem field_eq {f : Fields → Option α} {read : Json → Option α} (nil : f [] = none)
    (cons : ∀ name v rest, f ((name, v) :: rest) = if name = field then read v else f rest) :
    f fields = (Fields.get? fields field).bind read := by
  induction fields with
  | nil => rw [nil, Fields.get?_nil, Option.bind_none]
  | cons head rest ih =>
    obtain ⟨name, v⟩ := head
    rw [cons, Fields.get?_cons, ih]
    by_cases h : field = name
    · rw [if_pos h.symm, if_pos h, Option.bind_some]
    · rw [if_neg (Ne.symm h), if_neg h]

theorem queryField?_eq : queryField? field fields = (Fields.get? fields field).bind ofJson? :=
  field_eq (by rw [queryField?]) fun _ _ _ => by rw [queryField?]

theorem listField?_eq : listField? field fields = (Fields.get? fields field).bind listOf? :=
  field_eq (by rw [listField?]) fun _ _ _ => by rw [listField?]

/-- The entries of an object literal are read from the first field of a name. -/
theorem entriesField?_eq : entriesField? field fields = (Fields.get? fields field).bind entriesOf? :=
  field_eq (by rw [entriesField?]) fun _ _ _ => by rw [entriesField?]

/-- The base that is read from the field of that name, if there is one. -/
def baseOf? : Option Json → Option (Option Query)
  | none | some .null => some none
  | some v => (ofJson? v).map some

/-- The base is read from the first field of that name. -/
theorem baseField?_eq : baseField? fields = baseOf? (Fields.get? fields "base") := by
  induction fields with
  | nil => rw [baseField?]; rfl
  | cons head rest ih =>
    obtain ⟨name, v⟩ := head
    unfold baseField?
    rw [Fields.get?_cons, ih]
    by_cases h : "base" = name
    · rw [if_pos h.symm, if_pos h]
      cases v <;> rfl
    · rw [if_neg (Ne.symm h), if_neg h]

/-- There is no base if the field is missing or null. -/
theorem baseOf?_eq_some_none {v : Option Json} : baseOf? v = some none ↔ v.getD .null = .null := by
  unfold baseOf?
  split <;> simp_all

/-- There is a base if the field stores a query; null stores none. -/
theorem baseOf?_eq_some_some {v : Option Json} {base : Query} : baseOf? v = some (some base) ↔ v.bind ofJson? = some base := by
  unfold baseOf?
  split <;> simp_all [ofJson?]

end Fields

/-- The fields hold a query: its kind, and its parts under the names that its form gives them. -/
def Fills (fields : Fields) : Query → Prop
  | .input => Fields.get? fields "kind" = some (.str "input")
  | .const v => Fields.get? fields "kind" = some (.str "const") ∧ Fields.get? fields "value" = some v
  | .ident name => Fields.get? fields "kind" = some (.str "ident") ∧ Fields.get? fields "name" = some (.str name)
  | .member key =>
    Fields.get? fields "kind" = some (.str "get") ∧ baseField? fields = some none ∧ queryField? "key" fields = some key
  | .get base key =>
    Fields.get? fields "kind" = some (.str "get") ∧ baseField? fields = some (some base) ∧
      queryField? "key" fields = some key
  | .apply head args =>
    Fields.get? fields "kind" = some (.str "apply") ∧ queryField? "head" fields = some head ∧
      listField? "args" fields = some args
  | .op name args =>
    Fields.get? fields "kind" = some (.str "op") ∧ Fields.get? fields "op" = some (.str name) ∧
      listField? "args" fields = some args
  | .hint head args =>
    Fields.get? fields "kind" = some (.str "hint") ∧ queryField? "head" fields = some head ∧
      listField? "args" fields = some args
  | .array items => Fields.get? fields "kind" = some (.str "array") ∧ listField? "items" fields = some items
  | .object entries => Fields.get? fields "kind" = some (.str "object") ∧ entriesField? "entries" fields = some entries

/-- Only a string is read as a text. -/
theorem bind_asString?_eq_some {o : Option Json} {text : String} :
    o.bind Json.asString? = some text ↔ o = some (.str text) := by
  rcases o with _ | v
  · simp
  · cases v <;> simp [Json.asString?]

/-- Fields that hold a query are read as it. -/
theorem ofJson?_eq_of_fills {fields : Fields} {q : Query} (h : Fills fields q) : ofJson? (.obj fields) = some q := by
  unfold ofJson?
  cases q <;> simp_all [Fills, Json.asString?]

/-- Fields that are read as a query hold it, its kind telling the form. -/
theorem fills_of_ofJson? {fields : Fields} {q : Query} (h : ofJson? (.obj fields) = some q) : Fills fields q := by
  unfold ofJson? at h
  split at h
  all_goals
    simp only [Option.map_eq_some_iff, Option.bind_eq_bind, Option.bind_eq_some_iff, Option.some.injEq,
      reduceCtorEq] at h
  case h_1 hkind => exact h ▸ hkind
  case h_2 hkind =>
    obtain ⟨v, hv, rfl⟩ := h
    exact ⟨hkind, hv⟩
  case h_3 hkind =>
    obtain ⟨name, hname, rfl⟩ := h
    exact ⟨hkind, bind_asString?_eq_some.1 (Option.bind_eq_some_iff.2 hname)⟩
  case h_4 hkind =>
    obtain ⟨base, hbase, h⟩ := h
    -- The base tells the two forms of a get apart.
    cases base
    all_goals
      simp only [Option.bind_eq_some_iff, Option.some.injEq] at h
      obtain ⟨key, hkey, rfl⟩ := h
      exact ⟨hkind, hbase, hkey⟩
  case h_5 hkind =>
    obtain ⟨head, hhead, args, hargs, rfl⟩ := h
    exact ⟨hkind, hhead, hargs⟩
  case h_6 hkind =>
    obtain ⟨name, hname, args, hargs, rfl⟩ := h
    exact ⟨hkind, bind_asString?_eq_some.1 (Option.bind_eq_some_iff.2 hname), hargs⟩
  case h_7 hkind =>
    obtain ⟨head, hhead, args, hargs, rfl⟩ := h
    exact ⟨hkind, hhead, hargs⟩
  case h_8 hkind =>
    obtain ⟨items, hitems, rfl⟩ := h
    exact ⟨hkind, hitems⟩
  case h_9 hkind =>
    obtain ⟨entries, hentries, rfl⟩ := h
    exact ⟨hkind, hentries⟩

/-- An object stores a query just if its fields hold it, so no other field matters. -/
theorem ofJson?_obj {fields : Fields} {q : Query} : ofJson? (.obj fields) = some q ↔ Fills fields q :=
  ⟨fills_of_ofJson?, ofJson?_eq_of_fills⟩

/-- Only an object stores a query. -/
theorem exists_obj_of_ofJson? {j : Json} {q : Query} (h : ofJson? j = some q) : ∃ fields, j = .obj fields := by
  cases j with
  | obj fields => exact ⟨fields, rfl⟩
  | _ => simp [ofJson?] at h

/-! ## Lists -/

/-- The queries of a list are stored one by one. -/
theorem listToJson_eq_map : ∀ qs : List Query, listToJson qs = qs.map toJson
  | [] => by rw [listToJson, List.map_nil]
  | q :: rest => by rw [listToJson, listToJson_eq_map rest, List.map_cons]

/-- The entries of an object literal are stored one by one, each as an object. -/
theorem entriesToJson_eq_map : ∀ entries : List (Query × Query),
    entriesToJson entries = entries.map fun e => .obj [("key", toJson e.1), ("value", toJson e.2)]
  | [] => by rw [entriesToJson, List.map_nil]
  | (key, value) :: rest => by rw [entriesToJson, entriesToJson_eq_map rest, List.map_cons]

/-- Items are read one by one, and none may fail. -/
theorem itemsOf?_eq_mapM : ∀ xs : List Json, itemsOf? xs = xs.mapM ofJson?
  | [] => by rw [itemsOf?]; rfl
  | v :: rest => by rw [itemsOf?, itemsOf?_eq_mapM rest, List.mapM_cons]; rfl

/-- Entries are read one by one, and none may fail. -/
theorem entryItemsOf?_eq_mapM : ∀ xs : List Json, entryItemsOf? xs = xs.mapM entryOf?
  | [] => by rw [entryItemsOf?]; rfl
  | v :: rest => by rw [entryItemsOf?, entryItemsOf?_eq_mapM rest, List.mapM_cons]; rfl

theorem listOf?_eq_some {j : Json} {qs : List Query} : listOf? j = some qs ↔ ∃ xs, j = .arr xs ∧ xs.mapM ofJson? = some qs := by
  cases j <;> simp [listOf?, itemsOf?_eq_mapM]

/-- The entries of an object literal are read from an array each item of which stores its entry. -/
theorem entriesOf?_eq_some {j : Json} {entries : List (Query × Query)} :
    entriesOf? j = some entries ↔ ∃ xs, j = .arr xs ∧ xs.mapM entryOf? = some entries := by
  cases j <;> simp [entriesOf?, entryItemsOf?_eq_mapM]

/-- An entry is read from an object with a query as its key and a query as its value. -/
theorem entryOf?_eq_some {j : Json} {e : Query × Query} :
    entryOf? j = some e ↔
      ∃ fields, j = .obj fields ∧ (Fields.get? fields "key").bind ofJson? = some e.1 ∧
        (Fields.get? fields "value").bind ofJson? = some e.2 := by
  obtain ⟨key, value⟩ := e
  cases j with
  | obj fields =>
    simp only [entryOf?, queryField?_eq, Option.bind_eq_bind, Json.obj.injEq, exists_eq_left']
    rcases (Fields.get? fields "key").bind ofJson? <;> rcases (Fields.get? fields "value").bind ofJson? <;> simp
  | _ => simp [entryOf?]

section Mapping
variable {α : Type} {read : Json → Option α}

/-- A list is read back from what it is written as, if each of its members is. -/
theorem mapM_map_eq_some {write : α → Json} :
    ∀ {as : List α}, (∀ a ∈ as, read (write a) = some a) → (as.map write).mapM read = some as
  | [], _ => rfl
  | a :: rest, h => by
    obtain ⟨ha, hrest⟩ := List.forall_mem_cons.1 h
    rw [List.map_cons, List.mapM_cons, ha, mapM_map_eq_some hrest]
    rfl

/-- Lists whose members in the same places are read as the same are read as the same. -/
theorem mapM_eq_of_zip :
    ∀ {xs ys : List Json}, xs.length = ys.length → (∀ p ∈ xs.zip ys, read p.1 = read p.2) → xs.mapM read = ys.mapM read
  | [], [], _, _ => rfl
  | x :: xs, y :: ys, hlength, hall => by
    obtain ⟨hxy, hrest⟩ := List.forall_mem_cons.1 hall
    have hlength : xs.length = ys.length := Nat.succ.inj hlength
    rw [List.mapM_cons, List.mapM_cons, mapM_eq_of_zip hlength hrest, hxy]

/-- What is read as a list with a first member has a first item, which is read as that. -/
theorem mapM_cons_eq_some {xs : List Json} {a : α} {rest : List α} (h : xs.mapM read = some (a :: rest)) :
    ∃ x tail, xs = x :: tail ∧ read x = some a ∧ tail.mapM read = some rest := by
  cases xs with
  | nil => simp at h
  | cons x tail => exact ⟨x, tail, rfl, by simpa [Option.bind_eq_some_iff] using h⟩

theorem mapM_nil_eq_some {xs : List Json} (h : xs.mapM read = some []) : xs = [] := by
  cases xs with
  | nil => rfl
  | cons x tail => simp [Option.bind_eq_some_iff] at h

end Mapping

/-! ## Reading back -/

/-- A list of queries is read back, if each of its queries is. -/
theorem listOf?_listToJson {qs : List Query} (h : ∀ q ∈ qs, ofJson? (toJson q) = some q) :
    listOf? (.arr (listToJson qs)) = some qs :=
  listOf?_eq_some.2 ⟨_, rfl, listToJson_eq_map qs ▸ mapM_map_eq_some h⟩

/-- A query is read back from what it is stored as. -/
theorem ofJson?_toJson (q : Query) : ofJson? (toJson q) = some q := by
  induction q using Query.induct with
  | input =>
    rw [toJson, ofJson?_obj]
    rfl
  | const v =>
    rw [toJson, ofJson?_obj]
    exact ⟨rfl, rfl⟩
  | ident name =>
    rw [toJson, ofJson?_obj]
    exact ⟨rfl, rfl⟩
  | member key ih =>
    rw [toJson, ofJson?_obj]
    exact ⟨rfl, baseField?_eq.trans rfl, queryField?_eq.trans ih⟩
  | get base key hbase hkey =>
    rw [toJson, ofJson?_obj]
    exact ⟨rfl, baseField?_eq.trans (baseOf?_eq_some_some.2 hbase), queryField?_eq.trans hkey⟩
  | apply head args hhead hargs =>
    rw [toJson, ofJson?_obj]
    exact ⟨rfl, queryField?_eq.trans hhead, listField?_eq.trans (listOf?_listToJson hargs)⟩
  | hint head args hhead hargs =>
    rw [toJson, ofJson?_obj]
    exact ⟨rfl, queryField?_eq.trans hhead, listField?_eq.trans (listOf?_listToJson hargs)⟩
  | op name args hargs =>
    rw [toJson, ofJson?_obj]
    exact ⟨rfl, rfl, listField?_eq.trans (listOf?_listToJson hargs)⟩
  | array items hitems =>
    rw [toJson, ofJson?_obj]
    exact ⟨rfl, listField?_eq.trans (listOf?_listToJson hitems)⟩
  | object entries hentries =>
    rw [toJson, ofJson?_obj]
    refine ⟨rfl, entriesField?_eq.trans (entriesOf?_eq_some.2 ⟨_, rfl, ?_⟩)⟩
    rw [entriesToJson_eq_map]
    exact mapM_map_eq_some fun e he => entryOf?_eq_some.2 ⟨_, rfl, hentries e he⟩

/-! ## Values that are alike -/

/-- What a field of a stored query holds. -/
inductive Content where
  /-- Any value, kept as it is. -/
  | plain
  | query
  /-- A query, or nothing: the field is missing or null. -/
  | base
  /-- An object with a key and a value, both queries. -/
  | entry
  | list (items : Content)

/-- The fields that each kind of query has, besides its kind. -/
def fieldsOf? : String → Option (List (String × Content))
  | "input" => some []
  | "const" => some [("value", .plain)]
  | "ident" => some [("name", .plain)]
  | "get" => some [("base", .base), ("key", .query)]
  | "apply" => some [("head", .query), ("args", .list .query)]
  | "op" => some [("op", .plain), ("args", .list .query)]
  | "hint" => some [("head", .query), ("args", .list .query)]
  | "array" => some [("items", .list .query)]
  | "object" => some [("entries", .list .entry)]
  | _ => none

/-- Two values, each of which may be missing, are alike as a content: they are the same up to the order of the fields of a stored
query, fields that it does not have, and a base that is missing or null. -/
inductive Alike : Content → Option Json → Option Json → Prop where
  | plain (v : Option Json) : Alike .plain v v
  | query {kind : String} {known : List (String × Content)} {fs gs : Fields} (hknown : fieldsOf? kind = some known)
    (hf : Fields.get? fs "kind" = some (.str kind)) (hg : Fields.get? gs "kind" = some (.str kind))
    (hall : ∀ f ∈ known, Alike f.2 (Fields.get? fs f.1) (Fields.get? gs f.1)) : Alike .query (some (.obj fs)) (some (.obj gs))
  | noBase {v w : Option Json} (hv : v.getD .null = .null) (hw : w.getD .null = .null) : Alike .base v w
  | base {v w : Option Json} (h : Alike .query v w) : Alike .base v w
  | entry {fs gs : Fields} (hall : ∀ name ∈ ["key", "value"], Alike .query (Fields.get? fs name) (Fields.get? gs name)) :
    Alike .entry (some (.obj fs)) (some (.obj gs))
  | list {items : Content} {xs ys : List Json} (hlength : xs.length = ys.length)
    (hall : ∀ p ∈ xs.zip ys, Alike items (some p.1) (some p.2)) : Alike (.list items) (some (.arr xs)) (some (.arr ys))

/-- Both give the same when they are read as the content. -/
def ReadsSame : Content → Option Json → Option Json → Prop
  | .plain, v, w => v = w
  | .query, v, w => v.bind ofJson? = w.bind ofJson?
  | .base, v, w => baseOf? v = baseOf? w
  | .entry, v, w => v.bind entryOf? = w.bind entryOf?
  | .list .query, v, w => v.bind listOf? = w.bind listOf?
  | .list .entry, v, w => v.bind entriesOf? = w.bind entriesOf?
  | .list _, _, _ => True

/-- Objects of the same kind store the same, if the fields that the kind has are read as the same. -/
theorem ofJson?_congr {kind : String} {known : List (String × Content)} {fs gs : Fields}
    (hknown : fieldsOf? kind = some known) (hf : Fields.get? fs "kind" = some (.str kind))
    (hg : Fields.get? gs "kind" = some (.str kind))
    (hall : ∀ f ∈ known, ReadsSame f.2 (Fields.get? fs f.1) (Fields.get? gs f.1)) :
    ofJson? (.obj fs) = ofJson? (.obj gs) := by
  unfold fieldsOf? at hknown
  split at hknown <;> cases hknown
  all_goals simp_all [ofJson?, ReadsSame, queryField?_eq, listField?_eq, entriesField?_eq, baseField?_eq]

/-- Values that are alike store the same. -/
theorem Alike.readsSame {content : Content} {v w : Option Json} (h : Alike content v w) : ReadsSame content v w := by
  induction h with
  | plain v => rfl
  | query hknown hf hg _ ih => exact ofJson?_congr hknown hf hg ih
  | noBase hv hw => exact (baseOf?_eq_some_none.2 hv).trans (baseOf?_eq_some_none.2 hw).symm
  | base h ih =>
    cases h
    exact congrArg (Option.map some) ih
  | entry hall ih =>
    have hkey := ih "key" (by simp)
    have hvalue := ih "value" (by simp)
    simp_all [ReadsSame, entryOf?, queryField?_eq]
  | @list items xs ys hlength hall ih =>
    cases items with
    | query =>
      simp only [ReadsSame, Option.bind_some, listOf?, itemsOf?_eq_mapM]
      exact mapM_eq_of_zip hlength ih
    | entry =>
      simp only [ReadsSame, Option.bind_some, entriesOf?, entryItemsOf?_eq_mapM]
      exact mapM_eq_of_zip hlength ih
    | _ => trivial

theorem Alike.of_eq {v w : Option Json} (h : v = w) : Alike .plain v w := h ▸ .plain v

section Shared
variable {kind name name' : String} {content content' : Content} {fs gs : Fields}

/-- Objects of a kind with one field are alike if this field is. -/
theorem Alike.of_field (hknown : fieldsOf? kind = some [(name, content)]) (hf : Fields.get? fs "kind" = some (.str kind))
    (hg : Fields.get? gs "kind" = some (.str kind)) (h : Alike content (Fields.get? fs name) (Fields.get? gs name)) :
    Alike .query (some (.obj fs)) (some (.obj gs)) :=
  .query hknown hf hg (List.forall_mem_singleton.2 h)

/-- Objects of a kind with two fields are alike if both fields are. -/
theorem Alike.of_fields (hknown : fieldsOf? kind = some [(name, content), (name', content')])
    (hf : Fields.get? fs "kind" = some (.str kind)) (hg : Fields.get? gs "kind" = some (.str kind))
    (h : Alike content (Fields.get? fs name) (Fields.get? gs name))
    (h' : Alike content' (Fields.get? fs name') (Fields.get? gs name')) : Alike .query (some (.obj fs)) (some (.obj gs)) :=
  .query hknown hf hg (List.forall_mem_cons.2 ⟨h, List.forall_mem_singleton.2 h'⟩)

end Shared

/-- Fields that are read as the same thing are alike, if all values that are read as it are. -/
theorem Alike.of_bind {α : Type} {read : Json → Option α} {content : Content} {a : α} {v w : Option Json}
    (h : ∀ j k, read j = some a → read k = some a → Alike content (some j) (some k)) (hv : v.bind read = some a)
    (hw : w.bind read = some a) : Alike content v w := by
  obtain ⟨j, rfl, hj⟩ := Option.bind_eq_some_iff.1 hv
  obtain ⟨k, rfl, hk⟩ := Option.bind_eq_some_iff.1 hw
  exact h j k hj hk

/-- Arrays are alike if their first items are and their other items are. -/
theorem Alike.cons {content : Content} {x y : Json} {xs ys : List Json} (h : Alike content (some x) (some y))
    (hrest : Alike (.list content) (some (.arr xs)) (some (.arr ys))) :
    Alike (.list content) (some (.arr (x :: xs))) (some (.arr (y :: ys))) := by
  cases hrest with
  | list hlength hall => exact .list (by simp [hlength]) (List.forall_mem_cons.2 ⟨h, hall⟩)

/-- Arrays whose items are read as the same are alike, if the items are. -/
theorem Alike.of_mapM {α : Type} {read : Json → Option α} {content : Content} :
    ∀ {as : List α} {xs ys : List Json},
      (∀ a ∈ as, ∀ j k, read j = some a → read k = some a → Alike content (some j) (some k)) →
      xs.mapM read = some as → ys.mapM read = some as → Alike (.list content) (some (.arr xs)) (some (.arr ys))
  | [], xs, ys, _, hxs, hys => by
    rw [mapM_nil_eq_some hxs, mapM_nil_eq_some hys]
    exact .list rfl (by simp)
  | a :: rest, xs, ys, hall, hxs, hys => by
    obtain ⟨x, xs, rfl, hx, hxs⟩ := mapM_cons_eq_some hxs
    obtain ⟨y, ys, rfl, hy, hys⟩ := mapM_cons_eq_some hys
    obtain ⟨ha, hrest⟩ := List.forall_mem_cons.1 hall
    exact .cons (ha x y hx hy) (.of_mapM hrest hxs hys)

/-- Both values are alike as queries, if they store the query. -/
def AlikeAt (q : Query) : Prop := ∀ j k, ofJson? j = some q → ofJson? k = some q → Alike .query (some j) (some k)

/-- Values that store the same list of queries are alike, if those that store one of its queries are. -/
theorem alike_of_listOf? {qs : List Query} (h : ∀ q ∈ qs, AlikeAt q) (j k : Json) (hj : listOf? j = some qs)
    (hk : listOf? k = some qs) : Alike (.list .query) (some j) (some k) := by
  obtain ⟨xs, rfl, hxs⟩ := listOf?_eq_some.1 hj
  obtain ⟨ys, rfl, hys⟩ := listOf?_eq_some.1 hk
  exact .of_mapM h hxs hys

/-- Values that store the same entry are alike, if those that store its key and those that store its value are. -/
theorem alike_of_entryOf? {e : Query × Query} (h : AlikeAt e.1 ∧ AlikeAt e.2) (j k : Json) (hj : entryOf? j = some e)
    (hk : entryOf? k = some e) : Alike .entry (some j) (some k) := by
  obtain ⟨fs, rfl, hfkey, hfvalue⟩ := entryOf?_eq_some.1 hj
  obtain ⟨gs, rfl, hgkey, hgvalue⟩ := entryOf?_eq_some.1 hk
  refine .entry (List.forall_mem_cons.2 ⟨.of_bind h.1 hfkey hgkey, ?_⟩)
  exact List.forall_mem_singleton.2 (.of_bind h.2 hfvalue hgvalue)

/-- Values that store the same entries are alike, if those that store one of the entries are. -/
theorem alike_of_entriesOf? {entries : List (Query × Query)} (h : ∀ e ∈ entries, AlikeAt e.1 ∧ AlikeAt e.2) (j k : Json)
    (hj : entriesOf? j = some entries) (hk : entriesOf? k = some entries) : Alike (.list .entry) (some j) (some k) := by
  obtain ⟨xs, rfl, hxs⟩ := entriesOf?_eq_some.1 hj
  obtain ⟨ys, rfl, hys⟩ := entriesOf?_eq_some.1 hk
  exact .of_mapM (fun e he => alike_of_entryOf? (h e he)) hxs hys

/-- Values that fill the fields of a query alike are alike. -/
theorem alikeAt_of_fills {q : Query}
    (h : ∀ fs gs, Fills fs q → Fills gs q → Alike .query (some (.obj fs)) (some (.obj gs))) : AlikeAt q := by
  intro j k hj hk
  obtain ⟨fs, rfl⟩ := exists_obj_of_ofJson? hj
  obtain ⟨gs, rfl⟩ := exists_obj_of_ofJson? hk
  exact h fs gs (ofJson?_obj.1 hj) (ofJson?_obj.1 hk)

/-- Values that store the same query are alike. -/
theorem alikeAt (q : Query) : AlikeAt q := by
  induction q using Query.induct with
  | input =>
    refine alikeAt_of_fills fun fs gs hf hg => ?_
    exact .query rfl hf hg (by simp)
  | const v =>
    refine alikeAt_of_fills fun fs gs ⟨hf, hfv⟩ ⟨hg, hgv⟩ => ?_
    exact .of_field rfl hf hg (.of_eq (hfv.trans hgv.symm))
  | ident name =>
    refine alikeAt_of_fills fun fs gs ⟨hf, hfname⟩ ⟨hg, hgname⟩ => ?_
    exact .of_field rfl hf hg (.of_eq (hfname.trans hgname.symm))
  | member key hkey =>
    refine alikeAt_of_fills fun fs gs ⟨hf, hfbase, hfkey⟩ ⟨hg, hgbase, hgkey⟩ => ?_
    rw [baseField?_eq, baseOf?_eq_some_none] at hfbase hgbase
    rw [queryField?_eq] at hfkey hgkey
    exact .of_fields rfl hf hg (.noBase hfbase hgbase) (.of_bind hkey hfkey hgkey)
  | get base key hbase hkey =>
    refine alikeAt_of_fills fun fs gs ⟨hf, hfbase, hfkey⟩ ⟨hg, hgbase, hgkey⟩ => ?_
    rw [baseField?_eq, baseOf?_eq_some_some] at hfbase hgbase
    rw [queryField?_eq] at hfkey hgkey
    exact .of_fields rfl hf hg (.base (.of_bind hbase hfbase hgbase)) (.of_bind hkey hfkey hgkey)
  | apply head args hhead hargs | hint head args hhead hargs =>
    refine alikeAt_of_fills fun fs gs ⟨hf, hfhead, hfargs⟩ ⟨hg, hghead, hgargs⟩ => ?_
    rw [queryField?_eq] at hfhead hghead
    rw [listField?_eq] at hfargs hgargs
    exact .of_fields rfl hf hg (.of_bind hhead hfhead hghead) (.of_bind (alike_of_listOf? hargs) hfargs hgargs)
  | op name args hargs =>
    refine alikeAt_of_fills fun fs gs ⟨hf, hfname, hfargs⟩ ⟨hg, hgname, hgargs⟩ => ?_
    rw [listField?_eq] at hfargs hgargs
    exact .of_fields rfl hf hg (.of_eq (hfname.trans hgname.symm)) (.of_bind (alike_of_listOf? hargs) hfargs hgargs)
  | array items hitems =>
    refine alikeAt_of_fills fun fs gs ⟨hf, hfitems⟩ ⟨hg, hgitems⟩ => ?_
    rw [listField?_eq] at hfitems hgitems
    exact .of_field rfl hf hg (.of_bind (alike_of_listOf? hitems) hfitems hgitems)
  | object entries hentries =>
    refine alikeAt_of_fills fun fs gs ⟨hf, hfentries⟩ ⟨hg, hgentries⟩ => ?_
    rw [entriesField?_eq] at hfentries hgentries
    exact .of_field rfl hf hg (.of_bind (alike_of_entriesOf? hentries) hfentries hgentries)

/-- A query is read back from what it is stored as. So reading what any value stores, storing it and reading it again gives the
same query, and what is lost of the value is told: the values that store the query are the ones that are alike to it. -/
theorem stored_queries_read_back (q : Query) :
    ofJson? (toJson q) = some q ∧
      ∀ j, ofJson? j = some q →
        (ofJson? j).bind (fun r => ofJson? (toJson r)) = ofJson? j ∧
          ∀ k, ofJson? k = some q ↔ Alike .query (some j) (some k) := by
  refine ⟨ofJson?_toJson q, fun j hj => ⟨?_, fun k => ⟨alikeAt q j k hj, fun h => ?_⟩⟩⟩
  · rw [hj, Option.bind_some, ofJson?_toJson]
  · exact h.readsSame.symm.trans hj

/-- A get with its fields in another order, one that it does not have, and no base. -/
theorem stored_queries_read_back_get :
    let j : Json := .obj [("key", .obj [("name", .str "*"), ("kind", .str "ident")]), ("note", .bool true), ("kind", .str "get")]
    ofJson? j = some (.member (.ident "*")) ∧ Alike .query (some j) (some (toJson (.member (.ident "*")))) := by
  have hj : ofJson? (.obj [("key", .obj [("name", .str "*"), ("kind", .str "ident")]), ("note", .bool true),
      ("kind", .str "get")]) = some (.member (.ident "*")) := rfl
  exact ⟨hj, (((stored_queries_read_back _).2 _ hj).2 _).1 (ofJson?_toJson _)⟩

end Query

end StarQuery
