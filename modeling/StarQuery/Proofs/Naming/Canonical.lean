import StarQuery.Proofs.Naming.Sequence

/-!
# Canonical names

When terms are named one after another, the names that there are in the end tell what each variable was named after, a name
that a query gives, a collection or the set of a computed key (`NamedFor.tells`), and each of these has one variable only. A
variable that is named after a collection occurs only in what is greater than the collection (`Reads.sizeOf_lt_of_holds`), so
not in the collection itself.
-/

namespace StarQuery

/-! ## What variables are named after -/

namespace Node

/-- A star over a collection becomes the variable that is named after the collection. -/
theorem Reads.of_star {N : Naming} {base : Term} {n : Node} (h : Reads N (.get base .star) n) :
    ∃ b v, n = .get {} b (.var {} v) ∧ Reads N base b ∧ N.NamedAfter 'D' base.fingerprint v := by
  cases h with
  | draw hbase hv => exact ⟨_, _, rfl, hbase, hv⟩
  | get _ hkey => cases hkey

/-- The key of a term that becomes an update is a variable already, or becomes one with a filter that generates it. -/
theorem Reads.of_updateKey? {N : Naming} {t key : Term} {n : Node} (h : Reads N t n) (hkey : t.updateKey? = some key) :
    ∃ k, Reads N key k ∧ (k.asVar? = none → ∃ b x v,
      n = .update {} b (.var {} v) x (some (.get {} (.keySet {} k) (.var {} v)))) := by
  have hupdate : ∀ {base value : Term} {n : Node}, Reads N (.update base key value) n → ∃ k, Reads N key k ∧
      (k.asVar? = none → ∃ b x v, n = .update {} b (.var {} v) x (some (.get {} (.keySet {} k) (.var {} v)))) := by
    intro base value n h
    cases h with
    | named _ hk => exact ⟨_, hk, fun hvar => by cases hvar⟩
    | keyed _ hk => exact ⟨_, hk, fun _ => ⟨_, _, _, rfl⟩⟩
  cases t with
  | update => cases hkey; exact hupdate h
  | group =>
    cases hkey
    cases h with
    | group h => exact hupdate h
  | _ => cases hkey

/-- An update by a key that is computed is by the variable that is named after the set of the key. -/
theorem Reads.of_computed {N : Naming} {t : Term} {i : VarInfo} {b y x f : Node} (h : Reads N t (.update i b y x (some f))) :
    ∃ key ∈ t.operands, ∃ k v, Reads N key k ∧ y = .var {} v ∧ f = .get {} (.keySet {} k) (.var {} v) ∧
      N.NamedAfter 'K' (Node.keySet {} k).fingerprint v := by
  cases h with
  | keyed _ hkey _ _ hv => exact ⟨_, by simp [Term.operands], _, _, hkey, rfl, rfl, hv⟩
  | group h =>
    cases h with
    | keyed _ hkey _ _ hv => exact ⟨_, by simp [Term.operands], _, _, hkey, rfl, rfl, hv⟩

/-- A lookup holds the variables of its collection and of its key. -/
theorem holds_get {i : VarInfo} {base key : Node} {v : Var} : (Node.get i base key).Holds v ↔ base.Holds v ∨ key.Holds v := by
  rw [holds_iff]
  simp [asVar?, children]

/-- The set of one value holds the variables of the value. -/
theorem holds_keySet {i : VarInfo} {arg : Node} {v : Var} : (Node.keySet i arg).Holds v ↔ arg.Holds v := by
  rw [holds_iff]
  simp [asVar?, children]

/-- Where a variable of an update comes from: from a part, or it is the key that the update computes. -/
theorem Reads.holds_update {N : Naming} {base key value : Term} {n : Node} (h : Reads N (.update base key value) n) {v : Var}
    (hv : n.Holds v) : (∃ u ∈ [base, key, value], ∃ m, Reads N u m ∧ m.Holds v) ∨ ∃ set, N.NamedAfter 'K' set v := by
  obtain hself | ⟨c, hc, hcv⟩ := holds_iff.1 hv
  · cases h <;> cases hself
  cases h with
  | named hbase hkey hvalue =>
    simp only [children, Option.toList, List.append_nil, List.mem_cons, List.not_mem_nil, or_false] at hc
    rcases hc with rfl | rfl | rfl
    · exact .inl ⟨base, by simp, _, hbase, hcv⟩
    · exact .inl ⟨key, by simp, _, hkey, hcv⟩
    · exact .inl ⟨value, by simp, _, hvalue, holds_gathered.1 hcv⟩
  | @keyed _ _ _ b k x w hbase hkey hvalue _ hw =>
    simp only [children, Option.toList, List.cons_append, List.nil_append, List.mem_cons, List.not_mem_nil, or_false] at hc
    rcases hc with rfl | rfl | rfl | rfl
    · exact .inl ⟨base, by simp, _, hbase, hcv⟩
    · exact .inr ⟨_, holds_var.1 hcv ▸ hw⟩
    · exact .inl ⟨value, by simp, _, hvalue, holds_gathered.1 hcv⟩
    · rw [holds_get, holds_keySet, holds_var] at hcv
      obtain hk | rfl := hcv
      · exact .inl ⟨key, by simp, _, hkey, hk⟩
      · exact .inr ⟨_, hw⟩

/-- Where a variable of the node of a term comes from: from a part of the term, or it is the one variable that the term adds. -/
theorem Reads.holds_cases {N : Naming} {t : Term} {n : Node} (h : Reads N t n) {v : Var} (hv : n.Holds v) :
    (∃ u ∈ t.operands, ∃ m, Reads N u m ∧ m.Holds v) ∨ (∃ name ∈ t.names, N.table.lookup? name = some v) ∨
      (∃ base ∈ t.operands, N.NamedAfter 'D' base.fingerprint v) ∨ ∃ set, N.NamedAfter 'K' set v := by
  have hself := h
  cases h with
  | input | const =>
    rw [holds_iff] at hv
    simp [asVar?, children] at hv
  | var hname => exact .inr (.inl ⟨_, List.mem_cons_self, holds_var.1 hv ▸ hname⟩)
  | @draw base b w hbase hw =>
    obtain hb | hw' := holds_get.1 hv
    · exact .inl ⟨base, List.mem_cons_self, b, hbase, hb⟩
    · exact .inr (.inr (.inl ⟨base, List.mem_cons_self, holds_var.1 hw' ▸ hw⟩))
  | @get base key b k hbase hkey =>
    have hstar : key ≠ .star := by
      rintro rfl
      cases hkey
    rw [Term.operands_get hstar]
    obtain hb | hk := holds_get.1 hv
    · exact .inl ⟨base, by simp, b, hbase, hb⟩
    · exact .inl ⟨key, by simp, k, hkey, hk⟩
  | pointwise hlen hargs | hint hlen hargs =>
    obtain hvar | ⟨c, hc, hcv⟩ := holds_iff.1 hv
    · cases hvar
    · obtain ⟨u, hu, hzip⟩ := mem_zip_of_mem_right hlen hc
      exact .inl ⟨u, hu, c, hargs _ hzip, hcv⟩
  | keySet harg | reduce harg | scan harg =>
    obtain hvar | ⟨c, hc, hcv⟩ := holds_iff.1 hv
    · cases hvar
    · rw [List.mem_singleton.1 hc] at hcv
      exact .inl ⟨_, List.mem_cons_self, _, harg, hcv⟩
  | group h =>
    obtain ⟨u, hu, m, hm, hmv⟩ | hkey := h.holds_update hv
    · obtain rfl | hu := List.mem_cons.1 hu
      -- The empty object that a grouping starts from holds no variable.
      · cases hm
        rw [holds_iff] at hmv
        simp [asVar?, children] at hmv
      · exact .inl ⟨u, hu, m, hm, hmv⟩
    · exact .inr (.inr (.inr hkey))
  | named | keyed =>
    obtain hpart | hkey := hself.holds_update hv
    · exact .inl hpart
    · exact .inr (.inr (.inr hkey))

/-- A variable that is named after a collection occurs only in what is greater than the collection. -/
theorem Reads.sizeOf_lt_of_holds {N : Naming} {t : Term} {n : Node} (h : Reads N t n)
    (hnames : ∀ x ∈ t.names, Term.IsVariable x) {v : Var} (hv : n.Holds v) {u : Term}
    (hu : N.NamedAfter 'D' u.fingerprint v) : sizeOf u < sizeOf t := by
  obtain ⟨s, hs, m, hm, hmv⟩ | ⟨name, hname, hlookup⟩ | ⟨base, hbase, hdrawn⟩ | ⟨set, hset⟩ := h.holds_cases hv
  · have hlt := Term.sizeOf_lt_of_mem_operands hs
    have hsnames : ∀ x ∈ s.names, Term.IsVariable x := fun x hx => hnames x (Term.names_subset_of_mem_operands hs hx)
    exact (hm.sizeOf_lt_of_holds hsnames hmv hu).trans hlt
  · exact absurd (hnames name hname) (hu.not_isVariable (by decide) hlookup)
  · rw [Term.fingerprint_inj (hu.inj hdrawn).2]
    exact Term.sizeOf_lt_of_mem_operands hbase
  · exact absurd (hu.inj hset).1 (by decide)
termination_by sizeOf t

/-- A variable does not occur in the collection that it is named after. -/
theorem Reads.not_holds_of_drawn {N : Naming} {base : Term} {b : Node} (h : Reads N base b)
    (hnames : ∀ x ∈ base.names, Term.IsVariable x) {v : Var} (hv : N.NamedAfter 'D' base.fingerprint v) : ¬ b.Holds v :=
  fun hheld => Nat.lt_irrefl _ (h.sizeOf_lt_of_holds hnames hheld hv)

end Node

/-! ## One variable for each namesake -/

/-- What a variable is named after: the name that a query gives it, the collection that an anonymous star ranges over, or the set
of the one value of a computed key. -/
inductive Namesake where
  | user (name : String)
  | star (base : Term)
  | key (set : Node)

/-- When terms are named one after another, a variable is given for what it is named after. -/
inductive NamedFor (ts : List Term) : Namesake → Var → Prop where
  | user {name : String} {v : Var} : Named ts (.var name) (.var {} v) → NamedFor ts (.user name) v
  | star {base : Term} {b : Node} {v : Var} : Named ts (.get base .star) (.get {} b (.var {} v)) → NamedFor ts (.star base) v
  | key {t : Term} {b x set : Node} {v : Var} :
      Named ts t (.update {} b (.var {} v) x (some (.get {} set (.var {} v)))) → NamedFor ts (.key set) v

namespace Namesake

/-- What a variable is named after, told from the names alone. -/
inductive Tells (N : Naming) (v : Var) : Namesake → Prop where
  | user {name : String} : N.table.lookup? name = some v → Term.IsVariable name → Tells N v (.user name)
  | star {base : Term} : N.NamedAfter 'D' base.fingerprint v → Tells N v (.star base)
  | key {set : Node} : N.NamedAfter 'K' set.fingerprint v → Tells N v (.key set)

/-- There is one variable only that is named after something. -/
theorem Tells.unique {N : Naming} {s : Namesake} {v w : Var} (h : Tells N v s) (h' : Tells N w s) : v = w := by
  cases h with
  | user hname =>
    cases h' with
    | user hname' => exact Option.some.inj (hname.symm.trans hname')
  | star hv =>
    cases h' with
    | star hw => exact hv.unique hw
  | key hv =>
    cases h' with
    | key hw => exact hv.unique hw

/-- A variable is named after one thing only. -/
theorem Tells.inj {N : Naming} {s s' : Namesake} {v : Var} (h : Tells N v s) (h' : Tells N v s') : s = s' := by
  have htag : ∀ {key key' : String}, N.NamedAfter 'D' key v → ¬ N.NamedAfter 'K' key' v :=
    fun hstar hkey => absurd (hstar.inj hkey).1 (by decide)
  cases h with
  | user hname hvariable =>
    cases h' with
    | user hname' => rw [Naming.eq_of_idxOf? hname hname']
    | star hv | key hv => exact absurd hvariable (hv.not_isVariable (by decide) hname)
  | star hv =>
    cases h' with
    | user hname hvariable => exact absurd hvariable (hv.not_isVariable (by decide) hname)
    | star hv' => rw [Term.fingerprint_inj (hv.inj hv').2]
    | key hv' => exact absurd hv' (htag hv)
  | key hv =>
    cases h' with
    | user hname hvariable => exact absurd hvariable (hv.not_isVariable (by decide) hname)
    | star hv' => exact absurd hv (htag hv')
    | key hv' => rw [Node.fingerprint_inj (hv.inj hv').2]

end Namesake

section
variable {ts : List Term} (hts : ∀ t ∈ ts, ∃ q, Term.ofQuery q = .ok t)
include hts

/-- What has become a node has the names of variables only, because it is a part of a resolved query. -/
theorem Named.isVariable {u : Term} {n : Node} (h : Named ts u n) : ∀ x ∈ u.names, Term.IsVariable x := by
  intro x hx
  obtain ⟨t, ht, hsubset⟩ := h.names_subset
  obtain ⟨q, hq⟩ := hts t ht
  exact (isVariable_of_ofQuery hq x (hsubset hx)).2

/-- The names that there are in the end tell what a variable was given for. -/
theorem NamedFor.tells {s : Namesake} {v : Var} (h : NamedFor ts s v) : s.Tells (Naming.recordAll ts) v := by
  cases h with
  | user hnamed =>
    cases hnamed.reads with
    | var hname => exact .user hname (hnamed.isVariable hts _ List.mem_cons_self)
  | star hnamed =>
    obtain ⟨_, _, heq, -, hv⟩ := hnamed.reads.of_star
    cases heq
    exact .star hv
  | key hnamed =>
    obtain ⟨_, -, _, _, -, hvar, hfilter, hv⟩ := hnamed.reads.of_computed
    cases hvar
    cases hfilter
    exact .key hv

/-- A computed key does not occur in its set. -/
theorem NamedFor.not_holds {set : Node} {v : Var} (h : NamedFor ts (.key set) v) : ¬ set.Holds v := by
  cases h with
  | key hnamed =>
    obtain ⟨key, hkey, k, _, hk, hvar, hfilter, hv⟩ := hnamed.reads.of_computed
    cases hvar
    cases hfilter
    rw [Node.holds_keySet]
    exact hk.fresh (fun x hx => hnamed.isVariable hts x (Term.names_subset_of_mem_operands hkey hx)) hv

end

/-! ## Sequences of queries -/

namespace NameTable

/-- Every name of the table has a variable. -/
theorem exists_lookup? {t : NameTable} {name : String} (h : name ∈ t.names) : ∃ v, t.lookup? name = some v := by
  refine Option.ne_none_iff_exists'.1 fun hnone => ?_
  exact List.idxOf?_eq_none_iff.1 hnone h

/-- The name of a variable leads back to the variable, where no name is there twice. -/
theorem lookup?_name {t : NameTable} (hnodup : t.names.Nodup) {v : Var} (hv : v < t.names.length) :
    t.lookup? (t.name v) = some v := by
  have hname : t.name v = t.names[v] := by
    rw [NameTable.name, List.getElem?_eq_getElem hv, Option.getD_some]
  rw [lookup?, List.idxOf?, List.findIdx?_eq_some_iff_getElem, hname]
  refine ⟨hv, beq_self_eq_true _, fun j hj heq => ?_⟩
  have hsame := (hnodup.getElem_inj_iff).1 (eq_of_beq heq)
  omega

end NameTable

/-- The names that are given when terms are named one after another are canonical. -/
structure Canonical (ts : List Term) : Prop where
  /-- Names are only ever added, at the end. -/
  appends : ∀ more : List Term, (Naming.recordAll ts).table.names <+: (Naming.recordAll (ts ++ more)).table.names
  /-- That holds also for what is named in the midst of a term. -/
  appends_within : ∀ earlier t later M u, ts = earlier ++ t :: later → ComesTo (Naming.recordAll earlier) t M u →
    M.table.names <+: (Naming.recordAll ts).table.names
  nodup : (Naming.recordAll ts).table.names.Nodup
  lookup_name : ∀ v < (Naming.recordAll ts).table.names.length,
    (Naming.recordAll ts).table.lookup? ((Naming.recordAll ts).table.name v) = some v
  name_lookup : ∀ name ∈ (Naming.recordAll ts).table.names, ∃ v < (Naming.recordAll ts).table.names.length,
    (Naming.recordAll ts).table.lookup? name = some v ∧ (Naming.recordAll ts).table.name v = name
  /-- Every variable of a node has a name. -/
  bounded : ∀ t n, Named ts t n → ∀ v, n.Holds v → v < (Naming.recordAll ts).table.names.length
  /-- A star over a collection becomes a variable, which does not occur in the collection. -/
  star : ∀ base n, Named ts (.get base .star) n → ∃ b v, n = .get {} b (.var {} v) ∧ Named ts base b ∧ ¬ b.Holds v
  /-- A computed key becomes a variable, which does not occur in the set of the key. -/
  key : ∀ t key n, t.updateKey? = some key → Named ts t n → ∃ k, Named ts key k ∧ (k.asVar? = none → ∃ b x v,
    n = .update {} b (.var {} v) x (some (.get {} (.keySet {} k) (.var {} v))) ∧ ¬ (Node.keySet {} k).Holds v)
  /-- Variables are the same if and only if they are named after the same: an anonymous star is told by its collection, a computed
  key by its set, a named variable by its name, and no variable is of two of these kinds. -/
  same_iff : ∀ s s' v v', NamedFor ts s v → NamedFor ts s' v' → (v = v' ↔ s = s')

/-- The names that are given to queries, one after another and starting from none, are canonical, whichever of them are
rejected. -/
theorem names_canonical (ts : List Term) (hts : ∀ t ∈ ts, ∃ q, Term.ofQuery q = .ok t) : Canonical ts where
  appends more := (Naming.growsTo_recordAll_append ts more).names
  appends_within earlier t later M u hts' hcomes := by
    rw [hts']
    exact ((Node.ofTerm_grows u M).trans (hcomes.growsTo_recordAll later)).names
  nodup := Naming.nodup_recordAll ts
  lookup_name v hv := NameTable.lookup?_name (Naming.nodup_recordAll ts) hv
  name_lookup name hname := by
    obtain ⟨v, hv⟩ := NameTable.exists_lookup? hname
    obtain ⟨hlt, hback⟩ := NameTable.name_of_lookup? hv
    exact ⟨v, hlt, hv, hback⟩
  bounded t n hn v hv := hn.reads.lt_of_holds hv
  star base n hn := by
    obtain ⟨b, v, rfl, hb, hv⟩ := hn.reads.of_star
    refine ⟨b, v, rfl, hn.operand_of_reads List.mem_cons_self hb, ?_⟩
    exact hb.not_holds_of_drawn (fun x hx => hn.isVariable hts x (List.mem_append_left _ hx)) hv
  key t key n ht hn := by
    obtain ⟨k, hk, hcomputed⟩ := hn.reads.of_updateKey? ht
    refine ⟨k, hn.operand_of_reads (Term.mem_operands_of_updateKey? ht) hk, fun hvar => ?_⟩
    obtain ⟨b, x, v, rfl⟩ := hcomputed hvar
    exact ⟨b, x, v, rfl, NamedFor.not_holds hts (.key hn)⟩
  same_iff s s' v v' h h' := by
    constructor
    · rintro rfl
      exact (h.tells hts).inj (h'.tells hts)
    · rintro rfl
      exact (h.tells hts).unique (h'.tells hts)

/-- A term that is rejected for its last star, once the star before it is named. -/
def strayValue : Term := .pointwise .plus [.get (.get .input .star) (.const (.str "value")), .star]

/-- The term of `totalsByKey`. -/
def totals : Term :=
  .group (.get (.get .input .star) (.const (.str "key")))
    (.reduce ⟨.sum, false⟩ (.get (.get .input .star) (.const (.str "value"))))

/-- A term is rejected and its star stays named, so that the next term finds the name that its own star has. -/
theorem names_canonical_totals :
    (∀ t ∈ [strayValue, totals], ∃ q, Term.ofQuery q = .ok t) ∧
    (∃ e M, (Node.ofTerm strayValue).run.run {} = (.error e, M)) ∧
    (Naming.recordAll [strayValue, totals]).table.names = ["D0", "K1"] ∧
    NamedFor [strayValue, totals] (.star .input) 0 ∧ (∃ set v, NamedFor [strayValue, totals] (.key set) v ∧ v ≠ 0) ∧
    Canonical [strayValue, totals] := by
  have hqueries : ∀ t ∈ [strayValue, totals], ∃ q, Term.ofQuery q = .ok t := by
    intro t ht
    rcases List.mem_pair.1 ht with rfl | rfl
    · exact ⟨.op "plus" [.path "*.value", .ident "*"], rfl⟩
    · exact ⟨totalsByKey, rfl⟩
  have hcanonical := names_canonical [strayValue, totals] hqueries
  have hstar : NamedFor [strayValue, totals] (.star .input) 0 :=
    .star ⟨[], strayValue, [totals], {}, _, rfl, .first rfl (.first rfl .self), rfl⟩
  obtain ⟨set, v, hkey⟩ : ∃ set v, NamedFor [strayValue, totals] (.key set) v :=
    ⟨_, _, .key ⟨[strayValue], totals, [], _, _, rfl, .self, rfl⟩⟩
  refine ⟨hqueries, ⟨_, _, rfl⟩, by decide +kernel, hstar, ⟨set, v, hkey, fun hv => ?_⟩, hcanonical⟩
  cases (hcanonical.same_iff _ _ _ _ hkey hstar).1 hv

end StarQuery
