import StarQuery.Proofs.Naming.Reads
import StarQuery.Proofs.Term.Rename

/-!
# Naming a renamed term

Naming the stars of a term and of the term with its variables renamed goes the same way: the collections of both are new, or
were seen before, at the same places, so that the variables get the same numbers (`ofTerm_rename`). What the two end with
differs in the names of the table only: they are the renamed ones.
-/

namespace StarQuery

open Query (isNamed renamed)

variable {q : Query} {r : String → String}

/-! ## Renamed terms -/

namespace Term

mutual
/-- Renaming different variables differently keeps terms apart. -/
theorem rename_inj (hr : q.Renames r) : ∀ {t u : Term}, t.names ⊆ q.namedVariables → u.names ⊆ q.namedVariables →
    t.rename r = u.rename r → t = u
  | .input, u, _, _, h => by cases u <;> simp [rename] at h ⊢
  | .const v, u, _, _, h => by cases u <;> simp [rename] at h ⊢; exact h
  | .var x, u, ht, hu, h => by
    cases u <;> simp [rename] at h ⊢
    exact hr.injective _ (ht List.mem_cons_self) _ (hu List.mem_cons_self) h
  | .star, u, _, _, h => by cases u <;> simp [rename] at h ⊢
  | .get base key, u, ht, hu, h => by
    cases u <;> simp [rename] at h ⊢
    simp only [names, List.append_subset] at ht hu
    exact ⟨rename_inj hr ht.1 hu.1 h.1, rename_inj hr ht.2 hu.2 h.2⟩
  | .pointwise op args, u, ht, hu, h => by
    cases u <;> simp only [rename, reduceCtorEq, pointwise.injEq] at h ⊢
    exact ⟨h.1, listRename_inj hr ht hu h.2⟩
  | .hint op args, u, ht, hu, h => by
    cases u <;> simp only [rename, reduceCtorEq, hint.injEq] at h ⊢
    exact ⟨h.1, listRename_inj hr ht hu h.2⟩
  | .keySet arg, u, ht, hu, h => by
    cases u <;> simp [rename] at h ⊢
    exact rename_inj hr ht hu h
  | .reduce op arg, u, ht, hu, h => by
    cases u <;> simp [rename] at h ⊢
    exact ⟨h.1, rename_inj hr ht hu h.2⟩
  | .scan op arg, u, ht, hu, h => by
    cases u <;> simp [rename] at h ⊢
    exact ⟨h.1, rename_inj hr ht hu h.2⟩
  | .group key value, u, ht, hu, h => by
    cases u <;> simp [rename] at h ⊢
    simp only [names, List.append_subset] at ht hu
    exact ⟨rename_inj hr ht.1 hu.1 h.1, rename_inj hr ht.2 hu.2 h.2⟩
  | .update base key value, u, ht, hu, h => by
    cases u <;> simp [rename] at h ⊢
    simp only [names, List.append_subset] at ht hu
    exact ⟨rename_inj hr ht.1.1 hu.1.1 h.1, rename_inj hr ht.1.2 hu.1.2 h.2.1, rename_inj hr ht.2 hu.2 h.2.2⟩
/-- Renaming different variables differently keeps lists of terms apart. -/
theorem listRename_inj (hr : q.Renames r) : ∀ {ts us : List Term}, listNames ts ⊆ q.namedVariables →
    listNames us ⊆ q.namedVariables → listRename r ts = listRename r us → ts = us
  | [], [], _, _, _ => rfl
  | [], _ :: _, _, _, h => by cases h
  | _ :: _, [], _, _, h => by cases h
  | _ :: _, _ :: _, ht, hu, h => by
    simp only [listRename, List.cons.injEq] at h
    simp only [listNames, List.append_subset] at ht hu
    rw [rename_inj hr ht.1 hu.1 h.1, listRename_inj hr ht.2 hu.2 h.2]
end

end Term

/-! ## Collections -/

/-- The stored object of a term has no field for variable sets. -/
theorem Term.fields_toJson (t : Term) : ∃ fields, t.toJson = .obj fields ∧ ¬ "ann" ∈ fields.map Prod.fst := by
  cases t <;> exact ⟨_, by rw [toJson], by simp⟩

/-- The stored object of a node has one. -/
theorem Node.fields_toJson (n : Node) : ∃ fields, n.toJson = .obj fields ∧ "ann" ∈ fields.map Prod.fst := by
  cases n <;> exact ⟨_, by rw [toJson, stored], by simp⟩

/-- No term has the fingerprint of a node, because only a node is stored with variable sets. -/
theorem Term.fingerprint_ne (t : Term) (n : Node) : t.fingerprint ≠ n.fingerprint := by
  intro h
  obtain ⟨fields, ht, hnone⟩ := t.fields_toJson
  obtain ⟨fields', hn, hann⟩ := n.fields_toJson
  have hfields : Json.obj fields = Json.obj fields' := ht.symm.trans ((Json.text_inj h).trans hn)
  exact hnone (Json.obj.inj hfields ▸ hann)

/-- A collection that a variable is named after: what a star ranges over, or the set of a computed key. -/
inductive Collection where
  | drawn (source : Term)
  | keyed (set : Node)

namespace Collection

/-- The key by which a collection is recognised. -/
def key : Collection → String
  | .drawn source => source.fingerprint
  | .keyed set => set.fingerprint

/-- A collection with the variables of a term renamed. Nodes hold no names. -/
def rename (r : String → String) : Collection → Collection
  | .drawn source => .drawn (source.rename r)
  | .keyed set => .keyed set

/-- The names of the variables of a collection. -/
def names : Collection → List String
  | .drawn source => source.names
  | .keyed _ => []

/-- A key tells the collection: terms and nodes have different fingerprints, and equal ones are of the same tree. -/
theorem key_inj {c d : Collection} (h : c.key = d.key) : c = d := by
  cases c with
  | drawn t =>
    cases d with
    | drawn u => rw [Term.fingerprint_inj h]
    | keyed n => exact absurd h (t.fingerprint_ne n)
  | keyed n =>
    cases d with
    | drawn t => exact absurd h.symm (t.fingerprint_ne n)
    | keyed m => rw [Node.fingerprint_inj h]

/-- Renaming different variables differently keeps collections apart. -/
theorem rename_inj (hr : q.Renames r) {c d : Collection} (hc : c.names ⊆ q.namedVariables) (hd : d.names ⊆ q.namedVariables)
    (h : c.rename r = d.rename r) : c = d := by
  cases c <;> cases d <;> simp only [rename, drawn.injEq, keyed.injEq, reduceCtorEq] at h ⊢
  · exact Term.rename_inj hr hc hd h
  · exact h

end Collection

/-! ## Renamed tables -/

/-- A member is found at the same place under two functions that tell it from the same members. -/
theorem idxOf?_map_congr {α : Type} {f g : α → String} {as : List α} {a : α} (h : ∀ b ∈ as, f b = f a ↔ g b = g a) :
    (as.map f).idxOf? (f a) = (as.map g).idxOf? (g a) := by
  induction as with
  | nil => rfl
  | cons b as ih =>
    rw [List.forall_mem_cons] at h
    rw [List.map_cons, List.map_cons, List.idxOf?_cons, List.idxOf?_cons, ih h.2]
    simp only [beq_iff_eq, h.1]

/-- A naming, and what it is with the variables of a query renamed. -/
structure Naming.Renamed (q : Query) (r : String → String) (N N' : Naming) : Prop where
  table : N'.table.names = N.table.names.map (renamed r)
  names : ∀ x ∈ N.table.names, isNamed x = true → x ∈ q.namedVariables
  collections : ∃ cs : List Collection, N.collections = cs.map Collection.key ∧
    N'.collections = cs.map (fun c => (c.rename r).key) ∧ ∀ c ∈ cs, c.names ⊆ q.namedVariables

namespace Naming.Renamed

variable {N N' : Naming}

/-- A name and its renamed name have the same variable. -/
theorem intern (h : N.Renamed q r N') (hr : q.Renames r) {x : String} (hx : isNamed x = true → x ∈ q.namedVariables) :
    (N'.intern (renamed r x)).1 = (N.intern x).1 ∧ (N.intern x).2.Renamed q r (N'.intern (renamed r x)).2 := by
  have hlookup : N'.table.lookup? (renamed r x) = N.table.lookup? x := by
    unfold NameTable.lookup?
    rw [h.table]
    have hmap := idxOf?_map_congr (f := renamed r) (g := id) (a := x) fun y (hy : y ∈ N.table.names) =>
      ⟨hr.renamed_inj (h.names y hy) hx, congrArg (renamed r)⟩
    rwa [List.map_id] at hmap
  unfold Naming.intern NameTable.intern
  rw [hlookup]
  cases N.table.lookup? x with
  | some v => exact ⟨rfl, h.table, h.names, h.collections⟩
  | none =>
    refine ⟨?_, ?_, fun y hy => ?_, h.collections⟩
    · simp only [h.table, List.length_map]
    · simp only [h.table, List.map_append, List.map_cons, List.map_nil]
    · rcases List.mem_append.1 hy with hy | hy
      · exact h.names y hy
      · rw [List.mem_singleton.1 hy]
        exact hx

/-- A collection and its renamed collection have the same number. -/
theorem number (h : N.Renamed q r N') (hr : q.Renames r) {c : Collection} (hc : c.names ⊆ q.namedVariables) :
    (N'.number (c.rename r).key).1 = (N.number c.key).1 ∧
      (N.number c.key).2.Renamed q r (N'.number (c.rename r).key).2 := by
  obtain ⟨cs, hN, hN', hcs⟩ := h.collections
  have hidx : N'.collections.idxOf? (c.rename r).key = N.collections.idxOf? c.key := by
    rw [hN, hN']
    refine idxOf?_map_congr (f := fun c : Collection => (c.rename r).key) fun d hd => ⟨fun heq => ?_, fun heq => ?_⟩
    · rw [Collection.rename_inj hr (hcs d hd) hc (Collection.key_inj heq)]
    · rw [Collection.key_inj heq]
  unfold Naming.number
  rw [hidx]
  cases N.collections.idxOf? c.key with
  | some i => exact ⟨rfl, h⟩
  | none =>
    refine ⟨?_, h.table, h.names, cs ++ [c], ?_, ?_, ?_⟩
    · simp only [hN, hN', List.length_map]
    · simp only [hN, List.map_append, List.map_cons, List.map_nil]
    · simp only [hN', List.map_append, List.map_cons, List.map_nil]
    · intro d hd
      rcases List.mem_append.1 hd with hd | hd
      · exact hcs d hd
      · rw [List.mem_singleton.1 hd]
        exact hc

/-- No renaming touches a name that is not that of a variable of the query. -/
theorem renamed_tag {tag : Char} (htag : tag ≠ '*') (i : Nat) :
    isNamed (tag.toString ++ toString i) = false ∧ renamed r (tag.toString ++ toString i) = tag.toString ++ toString i := by
  have hnamed : isNamed (tag.toString ++ toString i) = false := by
    unfold isNamed
    rw [Naming.toList_name]
    split <;> simp_all
  exact ⟨hnamed, Query.renamed_of_not_named hnamed⟩

/-- The variables named after a collection and after its renamed collection are the same. -/
theorem nameAfter (h : N.Renamed q r N') (hr : q.Renames r) {tag : Char} (htag : tag ≠ '*') (c : Collection)
    (hc : c.names ⊆ q.namedVariables) :
    (N'.nameAfter tag (c.rename r).key).1 = (N.nameAfter tag c.key).1 ∧
      (N.nameAfter tag c.key).2.Renamed q r (N'.nameAfter tag (c.rename r).key).2 := by
  obtain ⟨hnumber, hrenamed⟩ := h.number hr hc
  obtain ⟨hnamed, htouch⟩ := renamed_tag (r := r) htag (N.number c.key).1
  have hintern := hrenamed.intern hr fun h => absurd (hnamed.symm.trans h) (by decide)
  unfold Naming.nameAfter
  rw [htouch] at hintern
  simp only [hnumber]
  exact hintern

end Naming.Renamed

/-! ## Runs that name variables -/

/-- Two runs that start from a naming and a renamed one end with the same result, and with a naming and a renamed one. -/
def NamesAlike {α : Type} (q : Query) (r : String → String) (m m' : NamingM α) : Prop :=
  ∀ N N' : Naming, N.Renamed q r N' →
    (m'.run.run N').1 = (m.run.run N).1 ∧ (m.run.run N).2.Renamed q r (m'.run.run N').2

namespace NamesAlike

variable {α β : Type}

theorem pure (a : α) : NamesAlike q r (Pure.pure a) (Pure.pure a) := fun _ _ h => ⟨rfl, h⟩

/-- Runs that go the same way, followed by runs that go the same way, go the same way. -/
theorem bind {m m' : NamingM α} {f f' : α → NamingM β} (hm : NamesAlike q r m m') (hf : ∀ a, NamesAlike q r (f a) (f' a)) :
    NamesAlike q r (m >>= f) (m' >>= f') := by
  intro N N' h
  rw [NamingM.run_bind, NamingM.run_bind]
  obtain ⟨hresult, hrenamed⟩ := hm N N' h
  rcases hrun : m.run.run N with ⟨a, M⟩
  rcases hrun' : m'.run.run N' with ⟨a', M'⟩
  rw [hrun, hrun'] at hresult hrenamed
  cases hresult
  cases a with
  | ok a => exact hf a M M' hrenamed
  | error e => exact ⟨rfl, hrenamed⟩

end NamesAlike

namespace Node

/-- A value is gathered after a renaming just if it was gathered before. -/
theorem gathered_rename (t : Term) (n : Node) : gathered (t.rename r) n = gathered t n := by
  rw [gathered, gathered, Term.gathers_rename]

/-- Updating by a key names a node, which has no names of variables to rename. -/
theorem updateBy_rename (hr : q.Renames r) (base key value : Node) :
    NamesAlike q r (updateBy base key value) (updateBy base key value) := by
  unfold updateBy
  cases key.asVar? with
  | some v => exact .pure _
  | none =>
    have hname : NamesAlike q r (modifyGet fun naming => naming.nameAfter 'K' (Node.keySet {} key).fingerprint)
        (modifyGet fun naming => naming.nameAfter 'K' (Node.keySet {} key).fingerprint) := by
      intro N N' h
      have hkey : (Collection.keyed (.keySet {} key)).names ⊆ q.namedVariables := List.nil_subset _
      obtain ⟨hvar, hrenamed⟩ := h.nameAfter hr (show 'K' ≠ '*' by decide) _ hkey
      exact ⟨congrArg Except.ok hvar, hrenamed⟩
    exact hname.bind fun v => .pure _

mutual
/-- Naming the stars of a term and of the term with its variables renamed goes the same way. -/
theorem ofTerm_rename (hr : q.Renames r) : ∀ t : Term, t.names ⊆ q.namedVariables →
    NamesAlike q r (ofTerm t) (ofTerm (t.rename r))
  | .input, _ => .pure _
  | .const _, _ => .pure _
  | .var name, ht => by
    have hname := ht List.mem_cons_self
    have hintern : NamesAlike q r (modifyGet fun naming => naming.intern name)
        (modifyGet fun naming => naming.intern (r name)) := by
      intro N N' h
      have hvar := h.intern hr (x := name) fun _ => hname
      rw [Query.renamed_of_named (Query.named_of_mem hname)] at hvar
      exact ⟨congrArg Except.ok hvar.1, hvar.2⟩
    rw [Term.rename, ofTerm, ofTerm]
    exact hintern.bind fun v => .pure _
  | .star, _ => fun _ _ h => ⟨rfl, h⟩
  | .get base key, ht => by
    obtain ⟨hbase, hkey⟩ := List.append_subset.1 ht
    by_cases hstar : key = .star
    · subst hstar
      have hname : NamesAlike q r (modifyGet fun naming => naming.nameAfter 'D' base.fingerprint)
          (modifyGet fun naming => naming.nameAfter 'D' (base.rename r).fingerprint) := by
        intro N N' h
        obtain ⟨hvar, hrenamed⟩ := h.nameAfter hr (show 'D' ≠ '*' by decide) (.drawn base) hbase
        exact ⟨congrArg Except.ok hvar, hrenamed⟩
      rw [Term.rename, Term.rename, ofTerm, ofTerm]
      exact (ofTerm_rename hr base hbase).bind fun b => hname.bind fun v => .pure _
    · rw [Term.rename, ofTerm, ofTerm]
      · exact (ofTerm_rename hr base hbase).bind fun b => (ofTerm_rename hr key hkey).bind fun k => .pure _
      · exact fun h => hstar (Term.rename_eq_star.1 h)
      · exact hstar
  | .pointwise op args, ht => by
    rw [Term.rename, ofTerm, ofTerm]
    exact (ofTerms_rename hr args ht).bind fun ns => .pure _
  | .hint op args, ht => by
    rw [Term.rename, ofTerm, ofTerm]
    exact (ofTerms_rename hr args ht).bind fun ns => .pure _
  | .keySet arg, ht => by
    rw [Term.rename, ofTerm, ofTerm]
    exact (ofTerm_rename hr arg ht).bind fun n => .pure _
  | .reduce op arg, ht => by
    rw [Term.rename, ofTerm, ofTerm]
    exact (ofTerm_rename hr arg ht).bind fun n => .pure _
  | .scan op arg, ht => by
    rw [Term.rename, ofTerm, ofTerm]
    exact (ofTerm_rename hr arg ht).bind fun n => .pure _
  | .group key value, ht => by
    obtain ⟨hkey, hvalue⟩ := List.append_subset.1 ht
    rw [Term.rename, ofTerm, ofTerm]
    refine (ofTerm_rename hr key hkey).bind fun k => (ofTerm_rename hr value hvalue).bind fun x => ?_
    rw [gathered_rename]
    exact updateBy_rename hr _ k _
  | .update base key value, ht => by
    obtain ⟨hrest, hvalue⟩ := List.append_subset.1 ht
    obtain ⟨hbase, hkey⟩ := List.append_subset.1 hrest
    rw [Term.rename, ofTerm, ofTerm]
    refine (ofTerm_rename hr base hbase).bind fun b => (ofTerm_rename hr key hkey).bind fun k => ?_
    refine (ofTerm_rename hr value hvalue).bind fun x => ?_
    rw [gathered_rename]
    exact updateBy_rename hr b k _
/-- Naming a list of terms and the renamed list goes the same way. -/
theorem ofTerms_rename (hr : q.Renames r) : ∀ ts : List Term, Term.listNames ts ⊆ q.namedVariables →
    NamesAlike q r (ofTerms ts) (ofTerms (Term.listRename r ts))
  | [], _ => .pure _
  | t :: ts, ht => by
    obtain ⟨hhead, htail⟩ := List.append_subset.1 ht
    rw [Term.listRename, ofTerms, ofTerms]
    exact (ofTerm_rename hr t hhead).bind fun n => (ofTerms_rename hr ts htail).bind fun ns => .pure _
end

end Node

end StarQuery
