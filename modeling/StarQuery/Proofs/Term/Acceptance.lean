import StarQuery.Proofs.Naming.Reads

/-!
# Which queries are accepted

Three things can be wrong with a query before its tree is annotated: a call does not fit the operator that it names, an
identifier is two stars alone, or an anonymous star stands where no key stands. The first two are found when the query is
resolved, and the error tells one of them (`ofQuery_resolves`); the last is found when the stars of the term are named,
whatever was named before (`ofTerm_placed`).
-/

namespace StarQuery

/-! ## Well-formed queries -/

namespace Query

/-- The operator that a query names as the head of a call: a string does, and an identifier that does not begin with a star. -/
def headName? : Query → Option String
  | .const (.str name) => some name
  | .ident name => if name.toList.head? = some '*' then none else some name
  | _ => none

mutual
/-- The calls of named operators in a query, each with the number of its arguments. -/
def calls : Query → List (String × Nat)
  | .input | .const _ | .ident _ => []
  | .member key => calls key
  | .get base key => calls base ++ calls key
  | .apply head args => calls head ++ listCalls args ++ (headName? head).toList.map fun name => (name, args.length)
  | .op name args => listCalls args ++ [(name, args.length)]
  | .hint head args => calls head ++ listCalls args
  | .array items => listCalls items
  | .object entries => entryCalls entries
/-- The calls of named operators in a list of queries. -/
def listCalls : List Query → List (String × Nat)
  | [] => []
  | q :: rest => calls q ++ listCalls rest
/-- The calls of named operators in the entries of an object literal. -/
def entryCalls : List (Query × Query) → List (String × Nat)
  | [] => []
  | (key, value) :: rest => calls key ++ calls value ++ entryCalls rest
end

/-- A call fits: it names an operator that takes as many arguments. -/
def CallFits (call : String × Nat) : Prop := ∃ callee, Callee.ofName? call.1 = some callee ∧ callee.admits call.2 = true

/-- Whether a name calls the lookup of a key. -/
def callsGet (name : String) : Bool := decide (Callee.ofName? name = some .get)

mutual
/-- Whether every anonymous star in a query stands as a key: as the key of a path, or as the last argument of a call that looks
a key up. Whether the query itself stands as a key is told. -/
def starsKeyed (asKey : Bool) : Query → Bool
  | .input | .const _ => true
  | .ident name => asKey || name != "*"
  | .member key => starsKeyed true key
  | .get base key => starsKeyed false base && starsKeyed true key
  | .apply head args => starsKeyed false head && listStarsKeyed ((headName? head).any callsGet) args
  | .op name args => listStarsKeyed (callsGet name) args
  | .hint head args => starsKeyed false head && listStarsKeyed false args
  | .array items => listStarsKeyed false items
  | .object entries => entryStarsKeyed entries
/-- The same for a list of queries, of which only the last may stand as a key. -/
def listStarsKeyed (lastAsKey : Bool) : List Query → Bool
  | [] => true
  | q :: rest => starsKeyed (lastAsKey && rest.isEmpty) q && listStarsKeyed lastAsKey rest
/-- The same for the entries of an object literal. -/
def entryStarsKeyed : List (Query × Query) → Bool
  | [] => true
  | (key, value) :: rest => starsKeyed false key && starsKeyed false value && entryStarsKeyed rest
end

/-- An error is to blame on one of some calls or identifiers: on a call of what is no operator, on a call with a number of
arguments that its operator does not take, or on two stars alone. Only the first is told as an unknown operator. -/
inductive Blamed (calls : List (String × Nat)) (identifiers : List String) : QueryError → Prop where
  | unknown {name subterm : String} {count : Nat} : (name, count) ∈ calls → Callee.ofName? name = none →
      Blamed calls identifiers (.unknownOperator name subterm)
  | arity {name subterm : String} {count : Nat} {callee : Callee} : (name, count) ∈ calls →
      Callee.ofName? name = some callee → callee.admits count = false →
      Blamed calls identifiers
        (.malformed ("'" ++ name ++ "' does not take " ++ toString count ++ " argument(s)") subterm)
  | deep : "**" ∈ identifiers →
      Blamed calls identifiers (.malformed "deep variables must be named, e.g. '**A'" "**")

/-- What is to blame among some calls and identifiers is to blame among more. -/
theorem Blamed.mono {calls calls' : List (String × Nat)} {identifiers identifiers' : List String} {e : QueryError}
    (h : Blamed calls identifiers e) (hcalls : calls ⊆ calls') (hidentifiers : identifiers ⊆ identifiers') :
    Blamed calls' identifiers' e := by
  cases h with
  | unknown hcall hname => exact .unknown (hcalls hcall) hname
  | arity hcall hname hcount => exact .arity (hcalls hcall) hname hcount
  | deep hdeep => exact .deep (hidentifiers hdeep)

/-- Where an error is to blame on something, not all is well. -/
theorem Blamed.not_wellFormed {calls : List (String × Nat)} {identifiers : List String} {e : QueryError}
    (h : Blamed calls identifiers e) : ¬ ((∀ call ∈ calls, CallFits call) ∧ "**" ∉ identifiers) := by
  rintro ⟨hfits, hnone⟩
  cases h with
  | unknown hcall hname =>
    obtain ⟨callee, hcallee, -⟩ := hfits _ hcall
    cases hname.symm.trans hcallee
  | arity hcall hname hcount =>
    obtain ⟨callee, hcallee, hadmits⟩ := hfits _ hcall
    cases hname.symm.trans hcallee
    cases hcount.symm.trans hadmits
  | deep hdeep => exact hnone hdeep

end Query

/-! ## Resolving -/

/-- A result is there if the calls fit and no identifier is two stars alone, and is then as `P` says; an error is to blame on
one of them. -/
def Resolves {α : Type} (r : Except QueryError α) (calls : List (String × Nat)) (identifiers : List String) (P : α → Prop) :
    Prop :=
  match r with
  | .ok a => (∀ call ∈ calls, Query.CallFits call) ∧ "**" ∉ identifiers ∧ P a
  | .error e => Query.Blamed calls identifiers e

namespace Resolves

variable {α β : Type} {calls calls' : List (String × Nat)} {identifiers identifiers' : List String}

theorem ok {P : α → Prop} {a : α} (h : P a) : Resolves (.ok a) [] [] P :=
  ⟨fun _ hcall => absurd hcall List.not_mem_nil, List.not_mem_nil, h⟩

/-- One step after the other: the calls and identifiers of both must be right, and the first error is told. -/
theorem bind {r : Except QueryError α} {f : α → Except QueryError β} {P : α → Prop} {Q : β → Prop}
    (hr : Resolves r calls identifiers P) (hf : ∀ a, P a → Resolves (f a) calls' identifiers' Q) :
    Resolves (r >>= f) (calls ++ calls') (identifiers ++ identifiers') Q := by
  cases r with
  | error e => exact Query.Blamed.mono hr (List.subset_append_left _ _) (List.subset_append_left _ _)
  | ok a =>
    obtain ⟨hfits, hnone, ha⟩ := hr
    change Resolves (f a) _ _ Q
    have hfa := hf a ha
    unfold Resolves at hfa ⊢
    split at hfa
    · obtain ⟨hfits', hnone', hb⟩ := hfa
      refine ⟨List.forall_mem_append.2 ⟨hfits, hfits'⟩, fun hmem => ?_, hb⟩
      exact (List.mem_append.1 hmem).elim hnone hnone'
    · exact hfa.mono (List.subset_append_right _ _) (List.subset_append_right _ _)

/-- More may be said of the result, if it follows. -/
theorem mono {r : Except QueryError α} {P Q : α → Prop} (hr : Resolves r calls identifiers P) (h : ∀ a, P a → Q a) :
    Resolves r calls identifiers Q := by
  cases r with
  | error e => exact hr
  | ok a => exact ⟨hr.1, hr.2.1, h a hr.2.2⟩

/-- A result is changed, and what is wrong stays what it is. -/
theorem map {r : Except QueryError α} {f : α → β} {P : α → Prop} {Q : β → Prop} (hr : Resolves r calls identifiers P)
    (hf : ∀ a, P a → Q (f a)) : Resolves (r >>= fun a => pure (f a)) calls identifiers Q := by
  have h : Resolves (r >>= fun a => pure (f a)) (calls ++ []) (identifiers ++ []) Q := hr.bind fun a ha => ok (hf a ha)
  rwa [List.append_nil, List.append_nil] at h

end Resolves

namespace Term

/-- The string that a term is, if it is one. -/
def asString? : Term → Option String
  | .const (.str name) => some name
  | _ => none

mutual
/-- Whether every star in a term stands as the key of a lookup. -/
def starsKeyed (asKey : Bool) : Term → Bool
  | .input | .const _ | .var _ => true
  | .star => asKey
  | .get base key => starsKeyed false base && starsKeyed true key
  | .pointwise _ args | .hint _ args => listStarsKeyed false args
  | .keySet arg | .reduce _ arg | .scan _ arg => starsKeyed false arg
  | .group key value => starsKeyed false key && starsKeyed false value
  | .update base key value => starsKeyed false base && starsKeyed false key && starsKeyed false value
/-- The same for a list of terms, of which only the last may stand as a key. -/
def listStarsKeyed (lastAsKey : Bool) : List Term → Bool
  | [] => true
  | t :: rest => starsKeyed (lastAsKey && rest.isEmpty) t && listStarsKeyed lastAsKey rest
end

/-- A term comes from a query as far as its stars and its use as a head go. -/
structure Resembles (q : Query) (t : Term) : Prop where
  name : t.asString? = q.headName?
  stars : ∀ asKey, t.starsKeyed asKey = q.starsKeyed asKey

/-- Terms come from queries, one from each. -/
structure ListResembles (qs : List Query) (ts : List Term) : Prop where
  length : ts.length = qs.length
  stars : ∀ lastAsKey, listStarsKeyed lastAsKey ts = Query.listStarsKeyed lastAsKey qs

/-- What an identifier stands for, told by its text. -/
theorem ofIdent_eq (name : String) : ofIdent name =
    if name = "*" then .ok .star
    else if name = "**" then .error (.malformed "deep variables must be named, e.g. '**A'" name)
    else if name.toList.head? = some '*' then .ok (.var name) else .ok (.const (.str name)) := by
  have hone : name = "*" ↔ name.toList = ['*'] := String.toList_inj.symm
  have htwo : name = "**" ↔ name.toList = ['*', '*'] := String.toList_inj.symm
  have hhead : name.toList.head? = some '*' ↔ ∃ rest, name.toList = '*' :: rest := List.head?_eq_some_iff
  unfold ofIdent
  simp only [hone, htwo, hhead]
  split <;> simp_all

/-- An identifier resolves unless it is two stars alone. -/
theorem ofIdent_resolves (name : String) : Resolves (ofIdent name) [] [name] (Resembles (.ident name)) := by
  rw [ofIdent_eq]
  split
  · rename_i hone
    subst hone
    exact ⟨by simp, by decide, rfl, fun asKey => by cases asKey <;> rfl⟩
  · rename_i hone
    split
    · rename_i htwo
      subst htwo
      exact .deep List.mem_cons_self
    · rename_i htwo
      have hnone : "**" ∉ [name] := fun hmem => htwo (List.mem_singleton.1 hmem).symm
      have hstars : ∀ asKey, Query.starsKeyed asKey (.ident name) = true := by
        intro asKey
        simp [Query.starsKeyed, hone]
      split
      · rename_i hhead
        exact ⟨by simp, hnone, by simp [asString?, Query.headName?, hhead], fun asKey => (hstars asKey).symm⟩
      · rename_i hhead
        exact ⟨by simp, hnone, by simp [asString?, Query.headName?, hhead], fun asKey => (hstars asKey).symm⟩

/-! ## Calls -/

/-- A call is built if the operator takes as many arguments. -/
theorem isSome_ofCallee? (callee : Callee) (args : List Term) :
    (ofCallee? callee args).isSome = callee.admits args.length := by
  cases callee with
  | pointwise op =>
    rw [ofCallee?]
    split <;> simp_all
  | _ => rcases args with _ | ⟨a, _ | ⟨b, _ | ⟨c, _ | ⟨d, rest⟩⟩⟩⟩ <;> simp [ofCallee?, Callee.admits, Callee.arity]

/-- The last argument of a lookup becomes a key, no other argument does. -/
theorem starsKeyed_ofCallee? {callee : Callee} {args : List Term} {t : Term} (h : ofCallee? callee args = some t) :
    t.asString? = none ∧ ∀ asKey, t.starsKeyed asKey = listStarsKeyed (decide (callee = .get)) args := by
  unfold ofCallee? at h
  split at h
  case h_8 =>
    split at h
    · cases h
      exact ⟨rfl, fun _ => rfl⟩
    · cases h
  case h_9 => cases h
  all_goals
    cases h
    refine ⟨rfl, fun asKey => ?_⟩
    simp [starsKeyed, listStarsKeyed, Bool.and_assoc]

/-- A call resolves if it fits, and then only the last argument of a lookup stands as a key. -/
theorem ofCall_resolves (name : String) (args : List Term) :
    Resolves (ofCall name args) [(name, args.length)] [] fun t =>
      t.asString? = none ∧ ∀ asKey, t.starsKeyed asKey = listStarsKeyed (Query.callsGet name) args := by
  unfold ofCall
  cases hname : Callee.ofName? name with
  | none => exact .unknown List.mem_cons_self hname
  | some callee =>
    have hsome := isSome_ofCallee? callee args
    cases hterm : ofCallee? callee args with
    | none =>
      rw [hterm] at hsome
      simp only [hterm]
      exact .arity List.mem_cons_self hname hsome.symm
    | some term =>
      rw [hterm] at hsome
      simp only [hterm]
      have hfits : Query.CallFits (name, args.length) := ⟨callee, hname, hsome.symm⟩
      obtain ⟨hstring, hstars⟩ := starsKeyed_ofCallee? hterm
      refine ⟨fun call hcall => List.mem_singleton.1 hcall ▸ hfits, List.not_mem_nil, hstring, fun asKey => ?_⟩
      rw [hstars, Query.callsGet, hname]
      simp

/-- A head that is a string makes a call of its name, any other head is applied. -/
theorem ofApply_eq (head : Term) (args : List Term) : ofApply head args =
    match head.asString? with
    | some name => ofCall name args
    | none => .ok (.pointwise .apply (head :: args)) := by
  unfold ofApply asString?
  split <;> simp_all

/-- A head that is a string names a hint, any other head is its first argument. -/
theorem ofHint_eq (head : Term) (args : List Term) : ofHint head args =
    match head.asString? with
    | some op => .hint op args
    | none => .hint "generic" (head :: args) := by
  unfold ofHint asString?
  split <;> simp_all

/-- A string has no stars. -/
theorem starsKeyed_of_asString? {t : Term} {name : String} (h : t.asString? = some name) (asKey : Bool) :
    t.starsKeyed asKey = true := by
  unfold asString? at h
  split at h
  · rfl
  · cases h

theorem listStarsKeyed_false_cons (t : Term) (ts : List Term) :
    listStarsKeyed false (t :: ts) = (t.starsKeyed false && listStarsKeyed false ts) := rfl

section
variable {head : Query} {args : List Query} {t : Term} {ts : List Term} (ht : Resembles head t) (hts : ListResembles args ts)
include ht hts

/-- Applying a head that is a string resolves if the call fits, and any other application resolves. -/
theorem ofApply_resolves :
    Resolves (ofApply t ts) (head.headName?.toList.map fun name => (name, args.length)) [] (Resembles (.apply head args)) := by
  rw [ofApply_eq, ← ht.name]
  cases hname : t.asString? with
  | some name =>
    have hcall := ofCall_resolves name ts
    rw [hts.length] at hcall
    refine hcall.mono fun u hu => ⟨hu.1, fun asKey => ?_⟩
    rw [hu.2, hts.stars, Query.starsKeyed, ← ht.stars, starsKeyed_of_asString? hname, ← ht.name, hname]
    rfl
  | none =>
    refine Resolves.ok ⟨rfl, fun asKey => ?_⟩
    rw [starsKeyed, listStarsKeyed_false_cons, Query.starsKeyed, ht.stars, hts.stars, ← ht.name, hname]
    rfl

/-- The term of a hint has its stars where those of the hint are. -/
theorem ofHint_resembles : Resembles (.hint head args) (ofHint t ts) := by
  rw [ofHint_eq]
  cases hname : t.asString? with
  | some op =>
    refine ⟨rfl, fun asKey => ?_⟩
    simp only [starsKeyed, Query.starsKeyed, ← ht.stars, starsKeyed_of_asString? hname, hts.stars, Bool.true_and]
  | none =>
    refine ⟨rfl, fun asKey => ?_⟩
    simp only [starsKeyed, Query.starsKeyed, listStarsKeyed_false_cons, ht.stars, hts.stars]

end

/-- No item of an array literal stands as a key. -/
theorem starsKeyed_ofItems (items : List Term) (asKey : Bool) :
    (ofItems items).starsKeyed asKey = listStarsKeyed false items := by
  have hgathered : listStarsKeyed false (items.map gathered) = listStarsKeyed false items := by
    induction items with
    | nil => rfl
    | cons t rest ih => rw [List.map_cons, listStarsKeyed_false_cons, listStarsKeyed_false_cons, ih, gathered, starsKeyed]
  unfold ofItems
  split
  · rfl
  · exact (Bool.and_true _).symm
  · exact hgathered

/-- The term of an array literal is no string. -/
theorem asString?_ofItems (items : List Term) : (ofItems items).asString? = none := by
  unfold ofItems
  split <;> rfl

/-! ## Queries -/

mutual
/-- A query is resolved, to a term with its stars where those of the query are, if its calls fit and no identifier is two stars
alone; otherwise the error is to blame on one of them. -/
theorem ofQuery_resolves : ∀ q : Query, Resolves (ofQuery q) q.calls q.identifiers (Resembles q)
  | .input => .ok ⟨rfl, fun _ => rfl⟩
  | .const value => .ok ⟨by cases value <;> rfl, fun _ => rfl⟩
  | .ident name => ofIdent_resolves name
  | .member key => by
    rw [ofQuery, Query.calls, Query.identifiers]
    refine (ofQuery_resolves key).map fun k hk => ⟨rfl, fun asKey => ?_⟩
    rw [starsKeyed, hk.stars, starsKeyed, Query.starsKeyed, Bool.true_and]
  | .get base key => by
    rw [ofQuery, Query.calls, Query.identifiers]
    refine (ofQuery_resolves base).bind fun b hb => (ofQuery_resolves key).map fun k hk => ⟨rfl, fun asKey => ?_⟩
    rw [starsKeyed, hb.stars, hk.stars, Query.starsKeyed]
  | .apply head args => by
    rw [ofQuery, Query.calls, Query.identifiers, List.append_assoc, ← List.append_nil (Query.listIdentifiers args)]
    refine (ofQuery_resolves head).bind fun t ht => (ofQueries_resolves args).bind fun ts hts => ?_
    exact ofApply_resolves ht hts
  | .op name args => by
    rw [ofQuery, Query.calls, Query.identifiers, ← List.append_nil (Query.listIdentifiers args)]
    refine (ofQueries_resolves args).bind fun ts hts => ?_
    rw [← hts.length]
    refine (ofCall_resolves name ts).mono fun t ht => ⟨ht.1, fun asKey => ?_⟩
    rw [ht.2, hts.stars, Query.starsKeyed]
  | .hint head args => by
    rw [ofQuery, Query.calls, Query.identifiers]
    refine (ofQuery_resolves head).bind fun t ht => (ofQueries_resolves args).map fun ts hts => ?_
    exact ofHint_resembles ht hts
  | .array items => by
    rw [ofQuery, Query.calls, Query.identifiers]
    refine (ofQueries_resolves items).map fun ts hts => ⟨asString?_ofItems ts, fun asKey => ?_⟩
    rw [starsKeyed_ofItems, hts.stars, Query.starsKeyed]
  | .object entries => by
    rw [ofQuery, Query.calls, Query.identifiers]
    refine (ofEntries_resolves rfl (fun _ => rfl) entries).mono fun t ht => ⟨ht.1, fun asKey => ?_⟩
    rw [ht.2, starsKeyed, Bool.true_and, Query.starsKeyed]
/-- Queries resolve one by one. -/
theorem ofQueries_resolves : ∀ qs : List Query,
    Resolves (ofQueries qs) (Query.listCalls qs) (Query.listIdentifiers qs) (ListResembles qs)
  | [] => .ok ⟨rfl, fun _ => rfl⟩
  | q :: rest => by
    rw [ofQueries, Query.listCalls, Query.listIdentifiers]
    refine (ofQuery_resolves q).bind fun t ht => (ofQueries_resolves rest).map fun ts hts => ?_
    refine ⟨congrArg (· + 1) hts.length, fun lastAsKey => ?_⟩
    have hempty : ts.isEmpty = rest.isEmpty := by
      rw [Bool.eq_iff_iff, List.isEmpty_iff_length_eq_zero, List.isEmpty_iff_length_eq_zero, hts.length]
    rw [listStarsKeyed, Query.listStarsKeyed, ht.stars, hts.stars, hempty]
/-- Entries resolve one by one, key before value, each put onto the entries before it. -/
theorem ofEntries_resolves {base : Term} (hname : base.asString? = none)
    (hbase : ∀ asKey, base.starsKeyed asKey = base.starsKeyed false) : ∀ entries : List (Query × Query),
    Resolves (ofEntries base entries) (Query.entryCalls entries) (Query.entryIdentifiers entries) fun t =>
      t.asString? = none ∧ ∀ asKey, t.starsKeyed asKey = (base.starsKeyed false && Query.entryStarsKeyed entries)
  | [] => .ok ⟨hname, fun asKey => by rw [hbase, Query.entryStarsKeyed, Bool.and_true]⟩
  | (key, value) :: rest => by
    rw [ofEntries, Query.entryCalls, Query.entryIdentifiers, List.append_assoc, List.append_assoc]
    refine (ofQuery_resolves key).bind fun k hk => (ofQuery_resolves value).bind fun v hv => ?_
    refine (ofEntries_resolves rfl (fun _ => rfl) rest).mono fun t ht => ⟨ht.1, fun asKey => ?_⟩
    rw [ht.2, starsKeyed, Query.entryStarsKeyed, hk.stars, hv.stars, Bool.and_assoc, Bool.and_assoc, Bool.and_assoc]
end

/-- A term that is no star has its stars as keys whether it stands as a key or not. -/
theorem starsKeyed_of_ne_star {t : Term} (h : t ≠ .star) (asKey : Bool) : t.starsKeyed asKey = t.starsKeyed false := by
  cases t with
  | star => exact absurd rfl h
  | _ => rfl

end Term

/-! ## Placing the stars -/

/-- The error of a star where no key stands. -/
def strayStar : QueryError := .malformed "anonymous '*' outside of a path" "*"

/-- Whatever was named before, a run has a result if its stars are placed, and otherwise rejects a star. -/
def Places {α : Type} (m : NamingM α) (placed : Bool) : Prop :=
  ∀ N : Naming,
    match (m.run.run N).1 with
    | .ok _ => placed = true
    | .error e => placed = false ∧ e = strayStar

namespace Places

variable {α β : Type} {m : NamingM α} {placed placed' : Bool}

theorem pure (a : α) : Places (Pure.pure a) true := fun _ => rfl

theorem modifyGet (f : Naming → α × Naming) : Places (MonadStateOf.modifyGet f) true := fun _ => rfl

/-- One run after the other places its stars if both do, whatever the first gives. -/
theorem bind {f : α → NamingM β} (hm : Places m placed) (hf : ∀ a, Places (f a) placed') :
    Places (m >>= f) (placed && placed') := by
  intro N
  have hN := hm N
  rw [NamingM.run_bind]
  rcases hr : m.run.run N with ⟨r, M⟩
  rw [hr] at hN
  cases r with
  | error e => exact ⟨by rw [hN.1, Bool.false_and], hN.2⟩
  | ok a =>
    have hplaced : placed = true := hN
    rw [hplaced, Bool.true_and]
    exact hf a M

/-- What follows a run without stars of its own changes nothing. -/
theorem followed {f : α → NamingM β} (hm : Places m placed) (hf : ∀ a, Places (f a) true) : Places (m >>= f) placed := by
  have h := hm.bind hf
  rwa [Bool.and_true] at h

theorem map (hm : Places m placed) (f : α → β) : Places (m >>= fun a => Pure.pure (f a)) placed :=
  hm.followed fun a => pure (f a)

/-- Whatever was named before, a run gives a result or rejects a star, as its stars are placed or not. -/
theorem outcome (h : Places m placed) (N : Naming) :
    (placed = true ∧ ∃ a M, m.run.run N = (.ok a, M)) ∨ (placed = false ∧ ∃ M, m.run.run N = (.error strayStar, M)) := by
  have hN := h N
  rcases hr : m.run.run N with ⟨r, M⟩
  rw [hr] at hN
  cases r with
  | ok a => exact .inl ⟨hN, a, M, rfl⟩
  | error e => exact .inr ⟨hN.1, M, by rw [hN.2]⟩

end Places

namespace Node

/-- Updating by a key has no stars of its own. -/
theorem updateBy_places (base key value : Node) : Places (updateBy base key value) true := by
  unfold updateBy
  split
  · exact Places.pure _
  · exact (Places.modifyGet _).map _

mutual
/-- Naming the stars of a term gives a node if every star stands as a key, and otherwise rejects a star. -/
theorem ofTerm_places : ∀ t : Term, Places (ofTerm t) (t.starsKeyed false)
  | .input | .const _ => Places.pure _
  | .var _ => (Places.modifyGet _).map _
  | .star => fun _ => ⟨rfl, rfl⟩
  | .get base key => by
    by_cases hstar : key = .star
    · subst hstar
      rw [ofTerm, Term.starsKeyed, Term.starsKeyed, Bool.and_true]
      exact (ofTerm_places base).followed fun _ => (Places.modifyGet _).map _
    · rw [ofTerm, Term.starsKeyed, Term.starsKeyed_of_ne_star hstar]
      swap
      · exact hstar
      exact (ofTerm_places base).bind fun _ => (ofTerm_places key).map _
  | .pointwise _ args | .hint _ args => by
    rw [ofTerm, Term.starsKeyed]
    exact (ofTerms_places args).map _
  | .keySet arg | .reduce _ arg | .scan _ arg => by
    rw [ofTerm, Term.starsKeyed]
    exact (ofTerm_places arg).map _
  | .group key value => by
    rw [ofTerm, Term.starsKeyed]
    exact (ofTerm_places key).bind fun _ => (ofTerm_places value).followed fun _ => updateBy_places _ _ _
  | .update base key value => by
    rw [ofTerm, Term.starsKeyed, Bool.and_assoc]
    refine (ofTerm_places base).bind fun _ => (ofTerm_places key).bind fun _ => ?_
    exact (ofTerm_places value).followed fun _ => updateBy_places _ _ _
/-- The stars of a list of terms are placed if those of each of them are. -/
theorem ofTerms_places : ∀ ts : List Term, Places (ofTerms ts) (Term.listStarsKeyed false ts)
  | [] => Places.pure _
  | t :: ts => by
    rw [ofTerms, Term.listStarsKeyed_false_cons]
    exact (ofTerm_places t).bind fun _ => (ofTerms_places ts).map _
end

end Node

/-! ## Accepted queries -/

/-- The front end accepts the well-formed queries, in any context: those whose calls all fit, without two stars alone, and with
every anonymous star as a key. A query is resolved if and only if the first two hold, and the error is to blame on what does
not; where only the last fails, naming rejects a star. -/
theorem queries_accepted_iff_wellFormed (q : Query) :
    (∀ N : Naming,
      (∃ term node M, Term.ofQuery q = .ok term ∧ (Node.ofTerm term).run.run N = (.ok node, M)) ↔
        (∀ call ∈ q.calls, Query.CallFits call) ∧ "**" ∉ q.identifiers ∧ q.starsKeyed false = true) ∧
    ((∃ e, Term.ofQuery q = .error e) ↔ ¬ ((∀ call ∈ q.calls, Query.CallFits call) ∧ "**" ∉ q.identifiers)) ∧
    (∀ e, Term.ofQuery q = .error e → Query.Blamed q.calls q.identifiers e) ∧
    ((∀ call ∈ q.calls, Query.CallFits call) → "**" ∉ q.identifiers → q.starsKeyed false = false →
      ∃ term, Term.ofQuery q = .ok term ∧
        ∀ N : Naming, ∃ M, (Node.ofTerm term).run.run N = (.error strayStar, M)) := by
  have hresolves := Term.ofQuery_resolves q
  cases hterm : Term.ofQuery q with
  | error e =>
    rw [hterm] at hresolves
    have hblamed : Query.Blamed q.calls q.identifiers e := hresolves
    have hnot := hblamed.not_wellFormed
    refine ⟨fun N => ⟨?_, ?_⟩, ⟨fun _ => hnot, fun _ => ⟨e, rfl⟩⟩, ?_, fun hfits hnone _ => absurd ⟨hfits, hnone⟩ hnot⟩
    · rintro ⟨_, _, _, hok, -⟩
      cases hok
    · rintro ⟨hfits, hnone, -⟩
      exact absurd ⟨hfits, hnone⟩ hnot
    · rintro _ ⟨⟩
      exact hblamed
  | ok term =>
    rw [hterm] at hresolves
    obtain ⟨hfits, hnone, halike⟩ := hresolves
    have houtcome := (Node.ofTerm_places term).outcome
    rw [halike.stars false] at houtcome
    refine ⟨fun N => ⟨?_, ?_⟩, ⟨?_, fun hnot => absurd ⟨hfits, hnone⟩ hnot⟩, ?_, fun _ _ hstray => ⟨term, rfl, fun N => ?_⟩⟩
    · rintro ⟨_, node, M, ⟨⟩, hnode⟩
      obtain ⟨hkeyed, -⟩ | ⟨-, M', hstray⟩ := houtcome N
      · exact ⟨hfits, hnone, hkeyed⟩
      · cases hnode.symm.trans hstray
    · rintro ⟨-, -, hkeyed⟩
      obtain ⟨-, node, M, hnode⟩ | ⟨hstray, -⟩ := houtcome N
      · exact ⟨term, node, M, rfl, hnode⟩
      · cases hkeyed.symm.trans hstray
    · rintro ⟨_, ⟨⟩⟩
    · rintro _ ⟨⟩
    · obtain ⟨hkeyed, -⟩ | ⟨-, M, hM⟩ := houtcome N
      · cases hkeyed.symm.trans hstray
      · exact ⟨M, hM⟩

/-- The median of all values, which no operator computes. -/
def medianOfValues : Query := .op "median" [.path "data.*.value"]

/-- The sum of a star that ranges over nothing. -/
def sumOfStar : Query := .op "sum" [.ident "*"]

/-- A call of no operator is rejected when it is resolved, and a star that is no key only when stars are named. -/
theorem queries_accepted_iff_wellFormed_medianOfValues :
    (∃ e, Term.ofQuery medianOfValues = .error e ∧ Query.Blamed [("median", 1)] medianOfValues.identifiers e) ∧
    (∀ call ∈ sumOfStar.calls, Query.CallFits call) ∧ sumOfStar.starsKeyed false = false ∧
    ∃ term, Term.ofQuery sumOfStar = .ok term ∧
      ∀ N : Naming, ∃ M, (Node.ofTerm term).run.run N = (.error strayStar, M) := by
  have hmedian : Callee.ofName? "median" = none := by decide
  have hsum : ∀ call ∈ sumOfStar.calls, Query.CallFits call := by
    intro call hcall
    cases List.mem_singleton.1 hcall
    exact ⟨.reduce ⟨.sum, false⟩, by decide, by decide⟩
  refine ⟨?_, hsum, by decide, ?_⟩
  · obtain ⟨-, hfails, hblamed, -⟩ := queries_accepted_iff_wellFormed medianOfValues
    obtain ⟨e, he⟩ := hfails.2 fun hfits => by
      obtain ⟨callee, hcallee, -⟩ := hfits.1 ("median", 1) List.mem_cons_self
      cases hmedian.symm.trans hcallee
    exact ⟨e, he, hblamed e he⟩
  · exact (queries_accepted_iff_wellFormed sumOfStar).2.2.2 hsum (by decide) (by decide)

end StarQuery
