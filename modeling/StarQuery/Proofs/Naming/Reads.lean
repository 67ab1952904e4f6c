import StarQuery.Node.OfTerm
import StarQuery.Proofs.Fingerprint
import StarQuery.Proofs.Term.Names

/-!
# What a term reads as

Naming the stars of a term only adds names and collections, and the node of a term is what the term reads as under the names
that there are in the end (`ofTerm_meets`). Under fixed names a term reads as one node only (`Reads.unique`): equal collections
have equal fingerprints, and a variable named after a collection tells the collection (`Naming.NamedAfter.inj`).
-/

namespace StarQuery

namespace Naming

/-- A naming that has all names and collections of another at their places, and perhaps more. -/
structure Extends (N M : Naming) : Prop where
  names : N.table.names <+: M.table.names
  collections : N.collections <+: M.collections

theorem Extends.refl (N : Naming) : N.Extends N := ⟨List.prefix_rfl, List.prefix_rfl⟩

theorem Extends.trans {N M L : Naming} (h : N.Extends M) (h' : M.Extends L) : N.Extends L :=
  ⟨h.names.trans h'.names, h.collections.trans h'.collections⟩

/-- The variable of a name stays its variable. -/
theorem idxOf?_of_prefix {xs ys : List String} (h : xs <+: ys) {x : String} {i : Nat} (hi : xs.idxOf? x = some i) :
    ys.idxOf? x = some i := by
  obtain ⟨zs, rfl⟩ := h
  unfold List.idxOf? at hi ⊢
  rw [List.findIdx?_append, hi, Option.some_or]

/-- At the place where a name is found stands the name. -/
theorem getElem?_of_idxOf? {xs : List String} {x : String} {i : Nat} (hi : xs.idxOf? x = some i) : xs[i]? = some x := by
  rw [List.idxOf?, List.findIdx?_eq_some_iff_getElem] at hi
  obtain ⟨hlt, heq, -⟩ := hi
  rw [List.getElem?_eq_getElem hlt, eq_of_beq heq]

/-- The name of a variable is its only name. -/
theorem eq_of_idxOf? {xs : List String} {x y : String} {i : Nat} (hx : xs.idxOf? x = some i) (hy : xs.idxOf? y = some i) :
    x = y :=
  Option.some.inj ((getElem?_of_idxOf? hx).symm.trans (getElem?_of_idxOf? hy))

/-- `v` is the variable that is named after the collection `key`. -/
def NamedAfter (N : Naming) (tag : Char) (key : String) (v : Var) : Prop :=
  ∃ i : Nat, N.collections.idxOf? key = some i ∧ N.table.lookup? (tag.toString ++ toString i) = some v

/-- A name after a collection is its letter and the digits of its number. -/
theorem toList_name (tag : Char) (i : Nat) : (tag.toString ++ toString i).toList = tag :: Nat.toDigits 10 i := by
  simp [Char.toString]

/-- A variable tells the collection that it is named after. -/
theorem NamedAfter.inj {N : Naming} {tag tag' : Char} {key key' : String} {v : Var} (h : N.NamedAfter tag key v)
    (h' : N.NamedAfter tag' key' v) : tag = tag' ∧ key = key' := by
  obtain ⟨i, hi, hv⟩ := h
  obtain ⟨j, hj, hv'⟩ := h'
  have hname := congrArg String.toList (eq_of_idxOf? hv hv')
  rw [toList_name, toList_name, List.cons.injEq] at hname
  have hij : i = j := by
    rw [← Nat.ofDigitChars_ten_toDigits (n := i), hname.2, Nat.ofDigitChars_ten_toDigits]
  subst hij
  exact ⟨hname.1, eq_of_idxOf? hi hj⟩

/-- One variable only is named after a collection. -/
theorem NamedAfter.unique {N : Naming} {tag : Char} {key : String} {v w : Var} (h : N.NamedAfter tag key v)
    (h' : N.NamedAfter tag key w) : v = w := by
  obtain ⟨i, hi, hv⟩ := h
  obtain ⟨j, hj, hw⟩ := h'
  cases hi.symm.trans hj
  exact Option.some.inj (hv.symm.trans hw)

/-- A variable stays named after its collection when names are added. -/
theorem NamedAfter.mono {N M : Naming} (hM : N.Extends M) {tag : Char} {key : String} {v : Var}
    (h : N.NamedAfter tag key v) : M.NamedAfter tag key v := by
  obtain ⟨i, hi, hv⟩ := h
  exact ⟨i, idxOf?_of_prefix hM.collections hi, idxOf?_of_prefix hM.names hv⟩

/-- No name that a query gives is the name of a variable that is named after a collection. -/
theorem NamedAfter.not_isVariable {N : Naming} {tag : Char} {key name : String} {v : Var} (h : N.NamedAfter tag key v)
    (htag : tag ≠ '*') (hname : N.table.lookup? name = some v) : ¬ Term.IsVariable name := by
  rintro ⟨hhead, -⟩
  obtain ⟨i, -, hi⟩ := h
  rw [eq_of_idxOf? hname hi, toList_name] at hhead
  exact htag (Option.some.inj hhead)

/-- A new name gets the next number. -/
theorem idxOf?_append_self {xs : List String} {x : String} (h : xs.idxOf? x = none) :
    (xs ++ [x]).idxOf? x = some xs.length := by
  unfold List.idxOf? at h ⊢
  rw [List.findIdx?_append, h, Option.none_or]
  simp

/-- Looking a name up adds it if it is new, and gives its variable. -/
theorem intern_spec (N : Naming) (name : String) :
    N.Extends (N.intern name).2 ∧ (N.intern name).2.table.lookup? name = some (N.intern name).1 := by
  unfold intern NameTable.intern
  cases h : N.table.lookup? name with
  | some v => exact ⟨Extends.refl N, h⟩
  | none => exact ⟨⟨List.prefix_append _ _, List.prefix_rfl⟩, idxOf?_append_self h⟩

/-- Numbering a collection adds it if it is new, and gives its place. -/
theorem number_spec (N : Naming) (key : String) :
    N.Extends (N.number key).2 ∧ (N.number key).2.collections.idxOf? key = some (N.number key).1 := by
  unfold number
  cases h : N.collections.idxOf? key with
  | some i => exact ⟨Extends.refl N, h⟩
  | none => exact ⟨⟨List.prefix_rfl, List.prefix_append _ _⟩, idxOf?_append_self h⟩

/-- Naming after a collection adds what is new, and gives the variable that is named after it. -/
theorem nameAfter_spec (N : Naming) (tag : Char) (key : String) :
    N.Extends (N.nameAfter tag key).2 ∧ (N.nameAfter tag key).2.NamedAfter tag key (N.nameAfter tag key).1 := by
  obtain ⟨hnumber, hkey⟩ := N.number_spec key
  obtain ⟨hintern, hname⟩ := (N.number key).2.intern_spec (tag.toString ++ toString (N.number key).1)
  exact ⟨hnumber.trans hintern, _, idxOf?_of_prefix hintern.collections hkey, hname⟩

end Naming

/-! ## Runs that name variables -/

/-- What is run after an error is left out, and what was named before it stays named. -/
theorem NamingM.run_bind {α β : Type} (m : NamingM α) (f : α → NamingM β) (N : Naming) :
    (m >>= f).run.run N =
      match m.run.run N with
      | (.ok a, M) => (f a).run.run M
      | (.error e, M) => (.error e, M) := by
  change ((m.run >>= ExceptT.bindCont f).run N) = _
  rw [StateT.run_bind]
  change (match m.run.run N with | (r, M) => (ExceptT.bindCont f r).run M) = _
  rcases m.run.run N with ⟨r, M⟩
  cases r <;> rfl

/-- A run from the naming `N` ends with a result as `P` says, or it rejects the query. -/
def Meets {α : Type} (m : NamingM α) (N : Naming) (P : α → Naming → Prop) : Prop :=
  match m.run.run N with
  | (.ok a, M) => P a M
  | (.error e, _) => e.Rejects

namespace Meets

variable {α β : Type} {N : Naming}

theorem pure {P : α → Naming → Prop} {a : α} (h : P a N) : Meets (Pure.pure a) N P := h

/-- Looking a name up ends with its variable. -/
theorem intern (N : Naming) (name : String) :
    Meets (modifyGet fun naming => naming.intern name) N fun v M => N.Extends M ∧ M.table.lookup? name = some v :=
  N.intern_spec name

/-- Naming after a collection ends with the variable that is named after it. -/
theorem nameAfter (N : Naming) (tag : Char) (key : String) :
    Meets (modifyGet fun naming => naming.nameAfter tag key) N fun v M => N.Extends M ∧ M.NamedAfter tag key v :=
  N.nameAfter_spec tag key

/-- More may be said of what a run ends with, if it follows. -/
theorem mono {P Q : α → Naming → Prop} {m : NamingM α} (hm : Meets m N Q) (h : ∀ a M, Q a M → P a M) : Meets m N P := by
  unfold Meets at hm ⊢
  rcases hr : m.run.run N with ⟨r, M⟩
  rw [hr] at hm
  cases r with
  | ok a => exact h a M hm
  | error e => exact hm

/-- One run after another: the second starts from what the first ends with. -/
theorem bind {P : β → Naming → Prop} {Q : α → Naming → Prop} {m : NamingM α} {f : α → NamingM β} (hm : Meets m N Q)
    (hf : ∀ a M, Q a M → Meets (f a) M P) : Meets (m >>= f) N P := by
  unfold Meets at hm ⊢
  rw [NamingM.run_bind]
  rcases hr : m.run.run N with ⟨r, M⟩
  rw [hr] at hm
  cases r with
  | ok a => exact hf a M hm
  | error e => exact hm

end Meets

/-! ## What a term reads as -/

namespace Node

/-- A term reads as a node, under the names and collections of `N`. -/
inductive Reads (N : Naming) : Term → Node → Prop where
  | input : Reads N .input (.input {})
  | const (value : Json) : Reads N (.const value) (.const {} value)
  | var {name : String} {v : Var} : N.table.lookup? name = some v → Reads N (.var name) (.var {} v)
  /-- A star after a collection is the variable that is named after it. -/
  | draw {base : Term} {b : Node} {v : Var} :
      Reads N base b → N.NamedAfter 'D' base.fingerprint v → Reads N (.get base .star) (.get {} b (.var {} v))
  | get {base key : Term} {b k : Node} : Reads N base b → Reads N key k → Reads N (.get base key) (.get {} b k)
  | pointwise {op : Pointwise} {args : List Term} {ns : List Node} : args.length = ns.length →
      (∀ p ∈ args.zip ns, Reads N p.1 p.2) → Reads N (.pointwise op args) (.pointwise {} op ns)
  | hint {op : String} {args : List Term} {ns : List Node} : args.length = ns.length →
      (∀ p ∈ args.zip ns, Reads N p.1 p.2) → Reads N (.hint op args) (.hint {} op ns)
  | keySet {arg : Term} {n : Node} : Reads N arg n → Reads N (.keySet arg) (.keySet {} n)
  | reduce {op : Reducer} {arg : Term} {n : Node} : Reads N arg n → Reads N (.reduce op arg) (.reduce {} op .eager n)
  | scan {op : Reducer} {arg : Term} {n : Node} : Reads N arg n → Reads N (.scan op arg) (.scan {} op .eager n)
  | group {key value : Term} {n : Node} :
      Reads N (.update (.const Json.empty) key value) n → Reads N (.group key value) n
  /-- An update by a variable. -/
  | named {base key value : Term} {b x : Node} {v : Var} :
      Reads N base b → Reads N key (.var {} v) → Reads N value x →
      Reads N (.update base key value) (.update {} b (.var {} v) (gathered value x) none)
  /-- An update by a key that is computed: the key is a variable named after the set of its one value. -/
  | keyed {base key value : Term} {b k x : Node} {v : Var} :
      Reads N base b → Reads N key k → Reads N value x → k.asVar? = none →
      N.NamedAfter 'K' (Node.keySet {} k).fingerprint v →
      Reads N (.update base key value)
        (.update {} b (.var {} v) (gathered value x) (some (.get {} (.keySet {} k) (.var {} v))))

/-- What a term reads as stays what it reads as when names are added. -/
theorem Reads.mono {N M : Naming} (hM : N.Extends M) {t : Term} {n : Node} (h : Reads N t n) : Reads M t n := by
  induction h with
  | input => exact .input
  | const value => exact .const value
  | var h => exact .var (Naming.idxOf?_of_prefix hM.names h)
  | draw _ h ih => exact .draw ih (h.mono hM)
  | get _ _ hbase hkey => exact .get hbase hkey
  | pointwise hlen _ ih => exact .pointwise hlen ih
  | hint hlen _ ih => exact .hint hlen ih
  | keySet _ ih => exact .keySet ih
  | reduce _ ih => exact .reduce ih
  | scan _ ih => exact .scan ih
  | group _ ih => exact .group ih
  | named _ _ _ hbase hkey hvalue => exact .named hbase hkey hvalue
  | keyed _ _ _ hk hv hbase hkey hvalue => exact .keyed hbase hkey hvalue hk (hv.mono hM)

/-- Terms whose nodes are unique have unique lists of nodes. -/
theorem Reads.unique_list {N : Naming} {ts : List Term} {ns ms : List Node} (hns : ts.length = ns.length)
    (hms : ts.length = ms.length) (h : ∀ p ∈ ts.zip ns, ∀ {m : Node}, Reads N p.1 m → p.2 = m)
    (h' : ∀ p ∈ ts.zip ms, Reads N p.1 p.2) : ns = ms := by
  induction ts generalizing ns ms with
  | nil =>
    rw [List.length_eq_zero_iff.1 hns.symm, List.length_eq_zero_iff.1 hms.symm]
  | cons t ts ih =>
    obtain ⟨n, ns, rfl⟩ := List.exists_cons_of_length_eq_add_one hns.symm
    obtain ⟨m, ms, rfl⟩ := List.exists_cons_of_length_eq_add_one hms.symm
    rw [List.zip_cons_cons, List.forall_mem_cons] at h h'
    have hhead : n = m := h.1 h'.1
    rw [hhead, ih (Nat.succ.inj hns) (Nat.succ.inj hms) h.2 h'.2]

/-- A term reads as one node only. -/
theorem Reads.unique {N : Naming} {t : Term} {n m : Node} (h : Reads N t n) (h' : Reads N t m) : n = m := by
  induction h generalizing m with
  | input | const => cases h'; rfl
  | var h =>
    cases h' with
    | var h' => rw [Option.some.inj (h.symm.trans h')]
  | draw _ hv ih =>
    cases h' with
    | draw hbase hv' => rw [ih hbase, hv.unique hv']
    | get _ hkey => cases hkey
  | get _ hkey hbase ihkey =>
    cases h' with
    | draw => cases hkey
    | get hbase' hkey' => rw [hbase hbase', ihkey hkey']
  | pointwise hlen _ ih =>
    cases h' with
    | pointwise hlen' h' => rw [Reads.unique_list hlen hlen' ih h']
  | hint hlen _ ih =>
    cases h' with
    | hint hlen' h' => rw [Reads.unique_list hlen hlen' ih h']
  | keySet _ ih =>
    cases h' with
    | keySet h' => rw [ih h']
  | reduce _ ih =>
    cases h' with
    | reduce h' => rw [ih h']
  | scan _ ih =>
    cases h' with
    | scan h' => rw [ih h']
  | group _ ih =>
    cases h' with
    | group h' => exact ih h'
  | named _ _ _ hbase hkey hvalue =>
    cases h' with
    | named hbase' hkey' hvalue' =>
      cases hkey hkey'
      rw [hbase hbase', hvalue hvalue']
    | keyed hbase' hkey' hvalue' hk' hv' =>
      cases hkey hkey'
      cases hk'
  | keyed _ _ _ hk hv hbase hkey hvalue =>
    cases h' with
    | named hbase' hkey' hvalue' =>
      cases hkey hkey'
      cases hk
    | keyed hbase' hkey' hvalue' hk' hv' =>
      cases hkey hkey'
      rw [hbase hbase', hvalue hvalue', hv.unique hv']

/-! ## Naming a term -/

/-- An update by a key ends with what the update of the terms reads as: by the key itself if it is a variable, and by the
variable named after its set otherwise. -/
theorem updateBy_meets {N : Naming} {base key value : Term} {b k x : Node} (hbase : Reads N base b) (hkey : Reads N key k)
    (hvalue : Reads N value x) :
    Meets (updateBy b k (gathered value x)) N fun n M => N.Extends M ∧ Reads M (.update base key value) n := by
  unfold updateBy
  cases hk : k.asVar? with
  | some v =>
    obtain ⟨i, rfl⟩ : ∃ i, k = .var i v := by
      cases k <;> cases hk
      exact ⟨_, rfl⟩
    cases hkey with
    | var hv => exact Meets.pure ⟨Naming.Extends.refl N, .named hbase (.var hv) hvalue⟩
    | group h => cases h
  | none =>
    refine Meets.bind (Meets.nameAfter N 'K' (Node.keySet {} k).fingerprint) fun v M hM => Meets.pure ?_
    exact ⟨hM.1, .keyed (hbase.mono hM.1) (hkey.mono hM.1) (hvalue.mono hM.1) hk hM.2⟩

mutual
/-- Naming the stars of a term ends with what the term reads as under the names that there are then, or rejects the term. -/
theorem ofTerm_meets : ∀ (t : Term) (N : Naming), Meets (ofTerm t) N fun n M => N.Extends M ∧ Reads M t n
  | .input, N => Meets.pure ⟨Naming.Extends.refl N, .input⟩
  | .const value, N => Meets.pure ⟨Naming.Extends.refl N, .const value⟩
  | .var name, N => by
    rw [ofTerm]
    exact Meets.bind (Meets.intern N name) fun v M hM => Meets.pure ⟨hM.1, .var hM.2⟩
  | .star, N => fun _ _ _ h => nomatch h
  | .get base key, N => by
    by_cases hstar : key = .star
    · subst hstar
      rw [ofTerm]
      refine Meets.bind (ofTerm_meets base N) fun b M hb => ?_
      refine Meets.bind (Meets.nameAfter M 'D' base.fingerprint) fun v L hL => Meets.pure ?_
      exact ⟨hb.1.trans hL.1, .draw (hb.2.mono hL.1) hL.2⟩
    · rw [ofTerm]
      swap
      · exact hstar
      refine Meets.bind (ofTerm_meets base N) fun b M hb => ?_
      refine Meets.bind (ofTerm_meets key M) fun k L hk => Meets.pure ?_
      exact ⟨hb.1.trans hk.1, .get (hb.2.mono hk.1) hk.2⟩
  | .pointwise op args, N => by
    rw [ofTerm]
    refine Meets.bind (ofTerms_meets args N) fun ns M h => Meets.pure ⟨h.1, .pointwise h.2.1 h.2.2⟩
  | .hint op args, N => by
    rw [ofTerm]
    refine Meets.bind (ofTerms_meets args N) fun ns M h => Meets.pure ⟨h.1, .hint h.2.1 h.2.2⟩
  | .keySet arg, N => by
    rw [ofTerm]
    exact Meets.bind (ofTerm_meets arg N) fun n M h => Meets.pure ⟨h.1, .keySet h.2⟩
  | .reduce op arg, N => by
    rw [ofTerm]
    exact Meets.bind (ofTerm_meets arg N) fun n M h => Meets.pure ⟨h.1, .reduce h.2⟩
  | .scan op arg, N => by
    rw [ofTerm]
    exact Meets.bind (ofTerm_meets arg N) fun n M h => Meets.pure ⟨h.1, .scan h.2⟩
  | .group key value, N => by
    rw [ofTerm]
    refine Meets.bind (ofTerm_meets key N) fun k M hk => ?_
    refine Meets.bind (ofTerm_meets value M) fun x L hx => ?_
    refine (updateBy_meets (.const Json.empty) (hk.2.mono hx.1) hx.2).mono fun n O h => ?_
    exact ⟨hk.1.trans (hx.1.trans h.1), .group h.2⟩
  | .update base key value, N => by
    rw [ofTerm]
    refine Meets.bind (ofTerm_meets base N) fun b M hb => ?_
    refine Meets.bind (ofTerm_meets key M) fun k L hk => ?_
    refine Meets.bind (ofTerm_meets value L) fun x O hx => ?_
    refine (updateBy_meets (hb.2.mono (hk.1.trans hx.1)) (hk.2.mono hx.1) hx.2).mono fun n P h => ?_
    exact ⟨hb.1.trans (hk.1.trans (hx.1.trans h.1)), h.2⟩
/-- Naming a list of terms ends with what the terms read as, one by one. -/
theorem ofTerms_meets : ∀ (ts : List Term) (N : Naming),
    Meets (ofTerms ts) N fun ns M => N.Extends M ∧ ts.length = ns.length ∧ ∀ p ∈ ts.zip ns, Reads M p.1 p.2
  | [], N => Meets.pure ⟨Naming.Extends.refl N, rfl, fun _ h => absurd h List.not_mem_nil⟩
  | t :: ts, N => by
    rw [ofTerms]
    refine Meets.bind (ofTerm_meets t N) fun n M hn => ?_
    refine Meets.bind (ofTerms_meets ts M) fun ns L hns => Meets.pure ⟨hn.1.trans hns.1, ?_, ?_⟩
    · rw [List.length_cons, List.length_cons, hns.2.1]
    · rw [List.zip_cons_cons, List.forall_mem_cons]
      exact ⟨hn.2.mono hns.1, hns.2.2⟩
end

end Node

end StarQuery
