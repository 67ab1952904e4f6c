import StarQuery.Proofs.Naming.Sequence

/-!
# The names in the table of a query

The table of a compiled query has the named variables of the query, each once, and besides them only names after collections,
which are a letter and a number (`Derivation.mem_names`, `Derivation.namedVariables_subset`).
-/

namespace StarQuery

/-! ## No name is lost -/

/-- The variables of a term have places in the table under which the term reads as a node. -/
theorem Node.Reads.lookup? {N : Naming} {t : Term} {n : Node} (h : Reads N t n) :
    ∀ x ∈ t.names, ∃ v, N.table.lookup? x = some v := by
  induction h with
  | input | const => exact fun x hx => absurd hx List.not_mem_nil
  | @var name v hv =>
    intro x hx
    rw [List.mem_singleton.1 hx]
    exact ⟨v, hv⟩
  | draw _ _ ih =>
    intro x hx
    rw [Term.names, Term.names, List.append_nil] at hx
    exact ih x hx
  | get _ _ hbase hkey => exact fun x hx => (List.mem_append.1 hx).elim (hbase x) (hkey x)
  | pointwise hlen _ ih | hint hlen _ ih =>
    intro x hx
    rw [Term.names, Term.listNames_eq, List.mem_flatMap] at hx
    obtain ⟨t, ht, hx⟩ := hx
    obtain ⟨n, -, hzip⟩ := mem_zip_of_mem_left hlen ht
    exact ih _ hzip x hx
  | keySet _ ih | reduce _ ih | scan _ ih => exact ih
  | group _ ih => exact fun x hx => ih x (by simpa [Term.names] using hx)
  | named _ _ _ hbase hkey hvalue | keyed _ _ _ _ _ hbase hkey hvalue =>
    intro x hx
    simp only [Term.names, List.mem_append] at hx
    rcases hx with (hx | hx) | hx
    · exact hbase x hx
    · exact hkey x hx
    · exact hvalue x hx

/-! ## No other name is given -/

/-- A name after a collection: a letter and a number. -/
def IsNumbered (x : String) : Prop := ∃ tag i, tag ∈ ['D', 'K'] ∧ x.toList = tag :: Nat.toDigits 10 i

/-- A run gives no names but those of a list and names after collections, whether it has a result or not. -/
def Gives {α : Type} (names : List String) (m : NamingM α) : Prop :=
  ∀ N : Naming, ∀ x ∈ (m.run.run N).2.table.names, x ∈ N.table.names ∨ x ∈ names ∨ IsNumbered x

namespace Gives

variable {α β : Type} {names names' : List String}

theorem pure (a : α) : Gives names (Pure.pure a) := fun _ _ hx => .inl hx

theorem throw (e : QueryError) : Gives names (MonadExceptOf.throw e : NamingM α) := fun _ _ hx => .inl hx

theorem mono {m : NamingM α} (h : Gives names m) (hsub : names ⊆ names') : Gives names' m :=
  fun N x hx => (h N x hx).imp_right (Or.imp_left (hsub ·))

/-- One run after the other gives no names but those that both may give. -/
theorem bind {m : NamingM α} {f : α → NamingM β} (hm : Gives names m) (hf : ∀ a, Gives names (f a)) :
    Gives names (m >>= f) := by
  intro N x hx
  have hM := hm N
  rw [NamingM.run_bind] at hx
  rcases hrun : m.run.run N with ⟨r, M⟩
  rw [hrun] at hM hx
  cases r with
  | ok a => exact (hf a M x hx).elim (hM x) .inr
  | error e => exact hM x hx

end Gives

/-- Looking a name up adds no other name. -/
theorem Naming.mem_intern {N : Naming} {name x : String} (hx : x ∈ (N.intern name).2.table.names) :
    x ∈ N.table.names ∨ x = name := by
  unfold intern NameTable.intern at hx
  cases h : N.table.lookup? name with
  | some v =>
    rw [h] at hx
    exact .inl hx
  | none =>
    rw [h] at hx
    simpa using hx

/-- Looking a name up gives this name at most. -/
theorem Gives.intern (name : String) : Gives [name] (modifyGet fun naming => naming.intern name) := by
  intro N x hx
  exact (Naming.mem_intern hx).imp_right fun h => .inl (List.mem_singleton.2 h)

/-- What is named after a collection is named by a letter and a number. -/
theorem Gives.nameAfter {tag : Char} (htag : tag ∈ ['D', 'K']) (key : String) (names : List String) :
    Gives names (modifyGet fun naming => naming.nameAfter tag key) := by
  intro N x hx
  have htable : (N.number key).2.table = N.table := by
    unfold Naming.number
    split <;> rfl
  refine (Naming.mem_intern hx).imp (htable ▸ ·) fun h => .inr ⟨tag, (N.number key).1, htag, ?_⟩
  exact (congrArg String.toList h).trans (Naming.toList_name tag (N.number key).1)

namespace Node

/-- An update gives no name but one after the set of its key. -/
theorem updateBy_gives (base key value : Node) (names : List String) : Gives names (updateBy base key value) := by
  unfold updateBy
  split
  · exact Gives.pure _
  · exact (Gives.nameAfter (by decide) _ _).bind fun _ => Gives.pure _

mutual
/-- Naming a term gives no names but its own and names after collections. -/
theorem ofTerm_gives : ∀ t : Term, Gives t.names (ofTerm t)
  | .input | .const _ => Gives.pure _
  | .var name => by
    rw [ofTerm]
    exact (Gives.intern name).bind fun _ => Gives.pure _
  | .star => Gives.throw _
  | .get base key => by
    have hbase := (ofTerm_gives base).mono (List.subset_append_left base.names key.names)
    have hkey := (ofTerm_gives key).mono (List.subset_append_right base.names key.names)
    by_cases hstar : key = .star
    · subst hstar
      rw [ofTerm]
      exact hbase.bind fun _ => (Gives.nameAfter (by decide) _ _).bind fun _ => Gives.pure _
    · rw [ofTerm]
      swap
      · exact hstar
      exact hbase.bind fun _ => hkey.bind fun _ => Gives.pure _
  | .pointwise op args | .hint op args => by
    rw [ofTerm]
    exact (ofTerms_gives args).bind fun _ => Gives.pure _
  | .keySet arg | .reduce op arg | .scan op arg => by
    rw [ofTerm]
    exact (ofTerm_gives arg).bind fun _ => Gives.pure _
  | .group key value => by
    have hkey := (ofTerm_gives key).mono (List.subset_append_left key.names value.names)
    have hvalue := (ofTerm_gives value).mono (List.subset_append_right key.names value.names)
    rw [ofTerm]
    exact hkey.bind fun _ => hvalue.bind fun _ => updateBy_gives _ _ _ _
  | .update base key value => by
    have hbase : Gives (base.names ++ key.names ++ value.names) (ofTerm base) := (ofTerm_gives base).mono (by simp)
    have hkey : Gives (base.names ++ key.names ++ value.names) (ofTerm key) := (ofTerm_gives key).mono (by simp)
    have hvalue := (ofTerm_gives value).mono (List.subset_append_right (base.names ++ key.names) value.names)
    rw [ofTerm]
    exact hbase.bind fun _ => hkey.bind fun _ => hvalue.bind fun _ => updateBy_gives _ _ _ _
/-- Naming a list of terms gives no names but theirs and names after collections. -/
theorem ofTerms_gives : ∀ ts : List Term, Gives (Term.listNames ts) (ofTerms ts)
  | [] => Gives.pure _
  | t :: rest => by
    have hfirst := (ofTerm_gives t).mono (List.subset_append_left t.names (Term.listNames rest))
    have hrest := (ofTerms_gives rest).mono (List.subset_append_right t.names (Term.listNames rest))
    rw [ofTerms]
    exact hfirst.bind fun _ => hrest.bind fun _ => Gives.pure _
end

end Node

namespace Derivation

variable {q : Query} (D : Derivation q)

/-- Every name in the table is a named variable of the query, or a name after a collection. -/
theorem mem_names {x : String} (hx : x ∈ D.naming.table.names) : x ∈ q.namedVariables ∨ IsNumbered x := by
  have hgives := Node.ofTerm_gives D.term {} x
  rw [D.named] at hgives
  exact ((hgives hx).resolve_left List.not_mem_nil).imp_left (mem_names_ofQuery D.resolved).1

/-- Every named variable of the query is in the table. -/
theorem namedVariables_subset {x : String} (hx : x ∈ q.namedVariables) : ∃ v, D.naming.table.lookup? x = some v :=
  D.reads.lookup? x ((mem_names_ofQuery D.resolved).2 hx)

/-- No name is in the table twice. -/
theorem nodup_names : D.naming.table.names.Nodup := by
  have hgrows := (Node.ofTerm_grows D.term {}).nodup List.nodup_nil
  rw [D.named] at hgrows
  exact hgrows

end Derivation

end StarQuery
