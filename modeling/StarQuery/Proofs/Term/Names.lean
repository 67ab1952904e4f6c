import StarQuery.Term.OfQuery

/-!
# The names in a term

A term has the variable names that the identifiers of its query give it, all of them and no others (`ofQuery_yields`): those that
begin with a star and are more than a star or two. A query is rejected for what is wrong with it, never for a breach of the passes.
-/

namespace StarQuery

/-! ## Results that may be an error -/

/-- An error that is about the query, not about the passes. -/
def QueryError.Rejects (e : QueryError) : Prop := ∀ pass detail subterm, e ≠ .invariantViolation pass detail subterm

/-- A result as `P` says, or a rejected query. -/
def Yields {α : Type} (r : Except QueryError α) (P : α → Prop) : Prop :=
  match r with
  | .ok a => P a
  | .error e => e.Rejects

namespace Yields

variable {α β : Type}

/-- One step after the other, each as is said of it. -/
theorem bind {r : Except QueryError α} {f : α → Except QueryError β} {P : α → Prop} {Q : β → Prop} (hr : Yields r P)
    (hf : ∀ a, P a → Yields (f a) Q) : Yields (r >>= f) Q := by
  cases r with
  | ok a => exact hf a hr
  | error e => exact hr

/-- More may be said of a result, if it follows. -/
theorem mono {r : Except QueryError α} {P Q : α → Prop} (hr : Yields r P) (h : ∀ a, P a → Q a) : Yields r Q := by
  cases r with
  | ok a => exact h a hr
  | error e => exact hr

end Yields

/-! ## Names -/

namespace Query

/-- Whether an identifier names a variable: it begins with a star, and is neither the anonymous star nor two stars alone. -/
def isNamed (name : String) : Bool :=
  match name.toList with
  | ['*'] | ['*', '*'] => false
  | '*' :: _ => true
  | _ => false

mutual
/-- The identifiers that occur in a query. -/
def identifiers : Query → List String
  | .input | .const _ => []
  | .ident name => [name]
  | .member key => identifiers key
  | .get base key => identifiers base ++ identifiers key
  | .apply head args | .hint head args => identifiers head ++ listIdentifiers args
  | .op _ args | .array args => listIdentifiers args
  | .object entries => entryIdentifiers entries
/-- The identifiers that occur in a list of queries. -/
def listIdentifiers : List Query → List String
  | [] => []
  | q :: rest => identifiers q ++ listIdentifiers rest
/-- The identifiers that occur in the entries of an object literal. -/
def entryIdentifiers : List (Query × Query) → List String
  | [] => []
  | (key, value) :: rest => identifiers key ++ identifiers value ++ entryIdentifiers rest
end

/-- The named variables of a query. -/
def namedVariables (q : Query) : List String := q.identifiers.filter isNamed

end Query

namespace Term

mutual
/-- The names of the variables that occur in a term. -/
def names : Term → List String
  | .input | .const _ | .star => []
  | .var name => [name]
  | .get base key => names base ++ names key
  | .pointwise _ args | .hint _ args => listNames args
  | .keySet arg | .reduce _ arg | .scan _ arg => names arg
  | .group key value => names key ++ names value
  | .update base key value => names base ++ names key ++ names value
/-- The names of the variables that occur in a list of terms. -/
def listNames : List Term → List String
  | [] => []
  | t :: rest => names t ++ listNames rest
end

/-- The names in a list of terms are those in its terms. -/
@[simp] theorem listNames_eq (ts : List Term) : listNames ts = ts.flatMap names := by
  induction ts with
  | nil => rfl
  | cons t rest ih => rw [listNames, ih, List.flatMap_cons]

/-- The name of a variable: a star and more. -/
def IsVariable (name : String) : Prop := name.toList.head? = some '*' ∧ name ≠ "*"

/-- What names a variable is a star and more. -/
theorem isVariable_of_isNamed {name : String} (h : Query.isNamed name = true) : IsVariable name := by
  unfold Query.isNamed at h
  split at h
  · cases h
  · cases h
  · rename_i cs hne _ hcs
    refine ⟨by rw [hcs]; rfl, ?_⟩
    rintro rfl
    exact hne (List.cons.inj hcs).2.symm
  · cases h

/-- An identifier is read by the cases that tell whether it names a variable. -/
theorem ofIdent_yields (name : String) :
    Yields (ofIdent name) fun t => ∀ x, x ∈ t.names ↔ x ∈ [name] ∧ Query.isNamed x = true := by
  have hnames : Yields (ofIdent name) fun t => t.names = if Query.isNamed name then [name] else [] := by
    unfold ofIdent Query.isNamed
    split
    case h_2 => exact fun _ _ _ h => nomatch h
    all_goals simp_all [Yields, names]
  refine hnames.mono fun t ht x => ?_
  rw [ht, List.mem_singleton]
  split <;> simp_all

/-- A call has the names of its arguments. -/
theorem mem_names_ofCallee? {callee : Callee} {args : List Term} {t : Term} (h : ofCallee? callee args = some t) (x : String) :
    x ∈ t.names ↔ x ∈ args.flatMap names := by
  unfold ofCallee? at h
  split at h
  case h_8 =>
    split at h
    · cases h
      simp [names]
    · cases h
  case h_9 => cases h
  all_goals
    cases h
    simp [names]

/-- A call that fits has the names of its arguments. -/
theorem ofCall_yields (name : String) (args : List Term) :
    Yields (ofCall name args) fun t => ∀ x, x ∈ t.names ↔ x ∈ args.flatMap names := by
  unfold ofCall
  split
  · exact fun _ _ _ h => nomatch h
  · split
    · exact fun _ _ _ h => nomatch h
    · rename_i h
      exact mem_names_ofCallee? h

/-- An application has the names of its head and of its arguments. -/
theorem ofApply_yields (head : Term) (args : List Term) :
    Yields (ofApply head args) fun t => ∀ x, x ∈ t.names ↔ x ∈ head.names ∨ x ∈ args.flatMap names := by
  unfold ofApply
  split
  · exact (ofCall_yields _ args).mono fun t h x => by simp [names, h x]
  · intro x
    simp [names]

/-- A hint has the names of its head and of its arguments. -/
theorem mem_names_ofHint (head : Term) (args : List Term) (x : String) :
    x ∈ (ofHint head args).names ↔ x ∈ head.names ∨ x ∈ args.flatMap names := by
  unfold ofHint
  split <;> simp [names]

/-- An array literal has the names of its items. -/
theorem mem_names_ofItems (items : List Term) (x : String) : x ∈ (ofItems items).names ↔ x ∈ items.flatMap names := by
  unfold ofItems
  split
  · rfl
  · simp [names, gathered]
  · simp [names, gathered, List.flatMap_map]

mutual
/-- A term has the named variables of its query, and a query is rejected for what is wrong with it. -/
theorem ofQuery_yields : ∀ q : Query,
    Yields (ofQuery q) fun t => ∀ x, x ∈ t.names ↔ x ∈ q.identifiers ∧ Query.isNamed x = true
  | .input | .const _ => fun x => by simp [names, Query.identifiers]
  | .ident name => ofIdent_yields name
  | .member key => by
    rw [ofQuery]
    exact Yields.bind (ofQuery_yields key) fun t h x => by simp [names, Query.identifiers, h x]
  | .get base key => by
    rw [ofQuery]
    refine Yields.bind (ofQuery_yields base) fun b hb => Yields.bind (ofQuery_yields key) fun k hk x => ?_
    simp only [names, Query.identifiers, List.mem_append, hb x, hk x, or_and_right]
  | .apply head args => by
    rw [ofQuery]
    refine Yields.bind (ofQuery_yields head) fun t ht => Yields.bind (ofQueries_yields args) fun ts hts => ?_
    refine (ofApply_yields t ts).mono fun u hu x => ?_
    simp only [Query.identifiers, List.mem_append, hu x, ht x, hts x, or_and_right]
  | .op name args => by
    rw [ofQuery]
    refine Yields.bind (ofQueries_yields args) fun ts hts => (ofCall_yields name ts).mono fun u hu x => ?_
    exact (hu x).trans (hts x)
  | .hint head args => by
    rw [ofQuery]
    refine Yields.bind (ofQuery_yields head) fun t ht => Yields.bind (ofQueries_yields args) fun ts hts x => ?_
    simp only [mem_names_ofHint, Query.identifiers, List.mem_append, ht x, hts x, or_and_right]
  | .array items => by
    rw [ofQuery]
    exact Yields.bind (ofQueries_yields items) fun ts hts x => (mem_names_ofItems ts x).trans (hts x)
  | .object entries => by
    rw [ofQuery]
    refine (ofEntries_yields (.const Json.empty) entries).mono fun t h x => ?_
    rw [h x, names]
    simp [Query.identifiers]
/-- The terms of a list of queries have the named variables of the queries. -/
theorem ofQueries_yields : ∀ qs : List Query,
    Yields (ofQueries qs) fun ts => ∀ x, x ∈ ts.flatMap names ↔ x ∈ Query.listIdentifiers qs ∧ Query.isNamed x = true
  | [] => fun x => by simp [Query.listIdentifiers]
  | q :: rest => by
    rw [ofQueries]
    refine Yields.bind (ofQuery_yields q) fun t ht => Yields.bind (ofQueries_yields rest) fun ts hts x => ?_
    simp only [List.flatMap_cons, Query.listIdentifiers, List.mem_append, ht x, hts x, or_and_right]
/-- The entries of an object literal add their named variables to those of the term that they are put onto. -/
theorem ofEntries_yields : ∀ (base : Term) (entries : List (Query × Query)),
    Yields (ofEntries base entries) fun t =>
      ∀ x, x ∈ t.names ↔ x ∈ base.names ∨ x ∈ Query.entryIdentifiers entries ∧ Query.isNamed x = true
  | base, [] => fun x => by simp [Query.entryIdentifiers]
  | base, (key, value) :: rest => by
    rw [ofEntries]
    refine Yields.bind (ofQuery_yields key) fun k hk => Yields.bind (ofQuery_yields value) fun v hv => ?_
    refine (ofEntries_yields (.update base k v) rest).mono fun t h x => ?_
    simp only [h x, names, Query.entryIdentifiers, List.mem_append, hk x, hv x, or_and_right, or_assoc]
end

end Term

end StarQuery
