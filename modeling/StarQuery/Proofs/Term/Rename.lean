import StarQuery.Proofs.Term.Names
import StarQuery.Variable.Table

/-!
# Renaming variables

A renaming gives the named variables of a query other names, different ones to different variables, and keeps deep variables
deep. It leaves the anonymous star and every other identifier alone. A renamed query resolves if the query does, to the term
with its variables renamed (`ofQuery_rename`).
-/

namespace StarQuery

namespace Query

/-- An identifier under a renaming of the named variables. -/
def renamed (r : String → String) (name : String) : String := if isNamed name then r name else name

mutual
/-- A query with its named variables renamed. -/
def rename (r : String → String) : Query → Query
  | .input => .input
  | .const value => .const value
  | .ident name => .ident (renamed r name)
  | .member key => .member (rename r key)
  | .get base key => .get (rename r base) (rename r key)
  | .apply head args => .apply (rename r head) (listRename r args)
  | .op name args => .op name (listRename r args)
  | .hint head args => .hint (rename r head) (listRename r args)
  | .array items => .array (listRename r items)
  | .object entries => .object (entryRename r entries)
/-- Queries with their named variables renamed. -/
def listRename (r : String → String) : List Query → List Query
  | [] => []
  | q :: rest => rename r q :: listRename r rest
/-- The entries of an object literal with their named variables renamed. -/
def entryRename (r : String → String) : List (Query × Query) → List (Query × Query)
  | [] => []
  | (key, value) :: rest => (rename r key, rename r value) :: entryRename r rest
end

/-- A function on names renames the variables of a query: it takes different ones to different names of variables, and deep
ones, and no others, to deep ones. -/
structure Renames (q : Query) (r : String → String) : Prop where
  named : ∀ x ∈ q.namedVariables, isNamed (r x) = true
  deep : ∀ x ∈ q.namedVariables, NameTable.isDeepName (r x) = NameTable.isDeepName x
  injective : ∀ x ∈ q.namedVariables, ∀ y ∈ q.namedVariables, r x = r y → x = y

/-- The named variables of a query are named. -/
theorem named_of_mem {q : Query} {x : String} (h : x ∈ q.namedVariables) : isNamed x = true := (List.mem_filter.1 h).2

theorem renamed_of_named {r : String → String} {x : String} (h : isNamed x = true) : renamed r x = r x := if_pos h

theorem renamed_of_not_named {r : String → String} {x : String} (h : isNamed x = false) : renamed r x = x := by
  simp [renamed, h]

namespace Renames

variable {q : Query} {r : String → String} {x y : String}

/-- Under a renaming, variables stay variables, and other names stay other names. -/
theorem isNamed_renamed (h : q.Renames r) (hx : isNamed x = true → x ∈ q.namedVariables) :
    isNamed (renamed r x) = isNamed x := by
  cases hnamed : isNamed x with
  | true => rw [renamed_of_named hnamed, h.named x (hx hnamed)]
  | false => rw [renamed_of_not_named hnamed, hnamed]

/-- Under a renaming, deep variables stay deep, and others stay others. -/
theorem isDeepName_renamed (h : q.Renames r) (hx : isNamed x = true → x ∈ q.namedVariables) :
    NameTable.isDeepName (renamed r x) = NameTable.isDeepName x := by
  cases hnamed : isNamed x with
  | true => rw [renamed_of_named hnamed, h.deep x (hx hnamed)]
  | false => rw [renamed_of_not_named hnamed]

/-- Renamed names are as different as the names. -/
theorem renamed_inj (h : q.Renames r) (hx : isNamed x = true → x ∈ q.namedVariables)
    (hy : isNamed y = true → y ∈ q.namedVariables) (hxy : renamed r x = renamed r y) : x = y := by
  have hkind : isNamed x = isNamed y := by rw [← h.isNamed_renamed hx, hxy, h.isNamed_renamed hy]
  cases hnamed : isNamed y with
  | true =>
    rw [hnamed] at hkind
    rw [renamed_of_named hkind, renamed_of_named hnamed] at hxy
    exact h.injective x (hx hkind) y (hy hnamed) hxy
  | false =>
    rw [hnamed] at hkind
    rwa [renamed_of_not_named hkind, renamed_of_not_named hnamed] at hxy

end Renames

end Query

/-! ## Terms -/

namespace Term

mutual
/-- A term with its variables renamed. -/
def rename (r : String → String) : Term → Term
  | .input => .input
  | .const value => .const value
  | .var name => .var (r name)
  | .star => .star
  | .get base key => .get (rename r base) (rename r key)
  | .pointwise op args => .pointwise op (listRename r args)
  | .hint op args => .hint op (listRename r args)
  | .keySet arg => .keySet (rename r arg)
  | .reduce op arg => .reduce op (rename r arg)
  | .scan op arg => .scan op (rename r arg)
  | .group key value => .group (rename r key) (rename r value)
  | .update base key value => .update (rename r base) (rename r key) (rename r value)
/-- Terms with their variables renamed. -/
def listRename (r : String → String) : List Term → List Term
  | [] => []
  | t :: rest => rename r t :: listRename r rest
end

variable {r : String → String}

/-- Terms are renamed one by one. -/
@[simp] theorem listRename_eq (ts : List Term) : listRename r ts = ts.map (rename r) := by
  induction ts with
  | nil => rfl
  | cons t rest ih => rw [listRename, ih, List.map_cons]

/-- Renaming changes no form, so a term gathers after it just if it did before. -/
@[simp] theorem gathers_rename (t : Term) : (t.rename r).gathers = t.gathers := by cases t <;> rfl

/-- Renaming makes no other term a star. -/
theorem rename_eq_star {t : Term} : t.rename r = .star ↔ t = .star := by cases t <;> simp [rename]

end Term

/-! ## Results that may be an error -/

/-- Both results are errors, or the second is the first one under a function. -/
def Follows {α β : Type} (f : α → β) (x : Except QueryError α) (y : Except QueryError β) : Prop :=
  match x, y with
  | .ok a, .ok b => b = f a
  | .error _, .error _ => True
  | _, _ => False

/-- One step after the other, each of which follows the same step before the renaming. -/
theorem Follows.bind {α β γ δ : Type} {f : α → β} {g : γ → δ} {x : Except QueryError α} {y : Except QueryError β}
    {h : α → Except QueryError γ} {k : β → Except QueryError δ} (hxy : Follows f x y)
    (hhk : ∀ a, Follows g (h a) (k (f a))) : Follows g (x >>= h) (y >>= k) := by
  cases x with
  | ok a =>
    cases y with
    | ok b =>
      have hb : b = f a := hxy
      subst hb
      exact hhk a
    | error e => exact hxy.elim
  | error e =>
    cases y with
    | ok b => exact hxy.elim
    | error e' => exact trivial

/-! ## Resolving -/

namespace Term

open Query (isNamed renamed)

variable {r : String → String}

/-- An identifier that names a variable stands for the variable. -/
theorem ofIdent_of_named {name : String} (h : isNamed name = true) : ofIdent name = .ok (.var name) := by
  unfold isNamed at h
  unfold ofIdent
  split at h <;> simp_all

/-- An identifier that names no variable stands for something without names, or for nothing. -/
theorem ofIdent_of_not_named {name : String} (h : isNamed name = false) :
    Follows (rename r) (ofIdent name) (ofIdent name) := by
  unfold ofIdent
  split
  · exact rfl
  · exact trivial
  · unfold isNamed at h
    split at h <;> simp_all
  · exact rfl

/-- A renamed identifier stands for the renamed variable, or for what it stood for. -/
theorem ofIdent_rename {name : String} (h : isNamed name = true → isNamed (r name) = true) :
    Follows (rename r) (ofIdent name) (ofIdent (renamed r name)) := by
  cases hname : isNamed name with
  | true =>
    rw [Query.renamed_of_named hname, ofIdent_of_named hname, ofIdent_of_named (h hname)]
    exact rfl
  | false =>
    rw [Query.renamed_of_not_named hname]
    exact ofIdent_of_not_named hname

/-- Renaming goes into the arguments of a call. -/
theorem ofCallee?_rename (callee : Callee) (args : List Term) :
    ofCallee? callee (args.map (rename r)) = (ofCallee? callee args).map (rename r) := by
  rcases args with _ | ⟨a, _ | ⟨b, _ | ⟨c, _ | ⟨d, rest⟩⟩⟩⟩ <;> cases callee <;> simp [ofCallee?, rename]

/-- A call fits or not, whatever its variables are named. -/
theorem ofCall_rename (name : String) (args : List Term) :
    Follows (rename r) (ofCall name args) (ofCall name (args.map (rename r))) := by
  unfold ofCall
  cases Callee.ofName? name with
  | none => exact trivial
  | some callee =>
    simp only [ofCallee?_rename]
    cases ofCallee? callee args with
    | none => exact trivial
    | some t => exact rfl

/-- Renaming makes no head a string, so it is applied as before. -/
theorem ofApply_rename (head : Term) (args : List Term) :
    Follows (rename r) (ofApply head args) (ofApply (head.rename r) (args.map (rename r))) := by
  cases head with
  | const value =>
    cases value with
    | str name => exact ofCall_rename name args
    | _ => simp [Follows, ofApply, rename]
  | _ => simp [Follows, ofApply, rename]

/-- Renaming goes into the head and the arguments of a hint. -/
theorem ofHint_rename (head : Term) (args : List Term) :
    (ofHint head args).rename r = ofHint (head.rename r) (args.map (rename r)) := by
  cases head with
  | const value => cases value <;> simp [ofHint, rename]
  | _ => simp [ofHint, rename]

/-- Renaming goes into the items of an array literal. -/
theorem ofItems_rename (items : List Term) : (ofItems items).rename r = ofItems (items.map (rename r)) := by
  cases items with
  | nil => rfl
  | cons t rest =>
    cases rest with
    | nil => rfl
    | cons u rest => simp [ofItems, rename, gathered]

mutual
/-- A renamed query resolves if the query does, to the term with its variables renamed. -/
theorem ofQuery_rename : ∀ q : Query, (∀ x ∈ q.identifiers, isNamed x = true → isNamed (r x) = true) →
    Follows (rename r) (ofQuery q) (ofQuery (q.rename r))
  | .input, _ | .const _, _ => rfl
  | .ident name, h => ofIdent_rename (h name (List.mem_singleton_self name))
  | .member key, h => by
    rw [Query.rename, ofQuery, ofQuery]
    exact (ofQuery_rename key h).bind fun t => rfl
  | .get base key, h => by
    rw [Query.rename, ofQuery, ofQuery]
    refine (ofQuery_rename base fun x hx => h x (List.mem_append_left _ hx)).bind fun b => ?_
    exact (ofQuery_rename key fun x hx => h x (List.mem_append_right _ hx)).bind fun k => rfl
  | .apply head args, h => by
    rw [Query.rename, ofQuery, ofQuery]
    refine (ofQuery_rename head fun x hx => h x (List.mem_append_left _ hx)).bind fun t => ?_
    exact (ofQueries_rename args fun x hx => h x (List.mem_append_right _ hx)).bind fun ts => ofApply_rename t ts
  | .op name args, h => by
    rw [Query.rename, ofQuery, ofQuery]
    exact (ofQueries_rename args h).bind fun ts => ofCall_rename name ts
  | .hint head args, h => by
    rw [Query.rename, ofQuery, ofQuery]
    refine (ofQuery_rename head fun x hx => h x (List.mem_append_left _ hx)).bind fun t => ?_
    exact (ofQueries_rename args fun x hx => h x (List.mem_append_right _ hx)).bind fun ts => (ofHint_rename t ts).symm
  | .array items, h => by
    rw [Query.rename, ofQuery, ofQuery]
    exact (ofQueries_rename items h).bind fun ts => (ofItems_rename ts).symm
  | .object entries, h => by
    rw [Query.rename, ofQuery, ofQuery]
    exact ofEntries_rename (.const Json.empty) entries h
/-- Renamed queries resolve if the queries do, to their renamed terms. -/
theorem ofQueries_rename : ∀ qs : List Query, (∀ x ∈ Query.listIdentifiers qs, isNamed x = true → isNamed (r x) = true) →
    Follows (List.map (rename r)) (ofQueries qs) (ofQueries (Query.listRename r qs))
  | [], _ => rfl
  | q :: rest, h => by
    rw [Query.listRename, ofQueries, ofQueries]
    refine (ofQuery_rename q fun x hx => h x (List.mem_append_left _ hx)).bind fun t => ?_
    exact (ofQueries_rename rest fun x hx => h x (List.mem_append_right _ hx)).bind fun ts => rfl
/-- Renamed entries resolve if the entries do, onto the renamed term before them. -/
theorem ofEntries_rename : ∀ (base : Term) (entries : List (Query × Query)),
    (∀ x ∈ Query.entryIdentifiers entries, isNamed x = true → isNamed (r x) = true) →
    Follows (rename r) (ofEntries base entries) (ofEntries (base.rename r) (Query.entryRename r entries))
  | base, [], _ => rfl
  | base, (key, value) :: rest, h => by
    have hkey : ∀ x ∈ key.identifiers, _ := fun x hx => h x (List.mem_append_left _ (List.mem_append_left _ hx))
    have hvalue : ∀ x ∈ value.identifiers, _ := fun x hx => h x (List.mem_append_left _ (List.mem_append_right _ hx))
    rw [Query.entryRename, ofEntries, ofEntries]
    refine (ofQuery_rename key hkey).bind fun k => (ofQuery_rename value hvalue).bind fun v => ?_
    exact ofEntries_rename (.update base k v) rest fun x hx => h x (List.mem_append_right _ hx)
end

end Term

end StarQuery
