import StarQuery.Node.OfTerm
import StarQuery.Proofs.Json.Text

/-!
# Fingerprints tell terms and nodes apart

The fingerprint of a term, or of a node with its variable sets, is the text of the object that stores it. The field `kind` of
the object tells the form, and the other fields hold the parts. So the object tells the tree (`Term.toJson_inj`,
`Node.toJson_inj`), and its text tells the object (`Json.text_inj`).
-/

namespace StarQuery

/-- The stored form of a pointwise operator tells the operator. -/
theorem Pointwise.toJson_inj : ∀ {op op' : Pointwise}, op.toJson = op'.toJson → op = op' := by
  have h : ∀ op ∈ all, ∀ op' ∈ all, capitalized op.name = capitalized op'.name → op = op' := by decide +kernel
  intro op op' heq
  exact h op (by cases op <;> decide) op' (by cases op' <;> decide) (Json.str.inj heq)

/-- The stored form of a reducer tells the folding, and whether it is nullable. -/
theorem Reducer.toJson_inj {r r' : Reducer} (h : r.toJson = r'.toJson) : r = r' := by
  have hname : ∀ f ∈ Folding.every, ∀ f' ∈ Folding.every, capitalized f.name = capitalized f'.name → f = f' := by
    decide +kernel
  obtain ⟨f, nullable⟩ := r
  obtain ⟨f', nullable'⟩ := r'
  simp only [toJson, Json.obj.injEq, List.cons.injEq, Prod.mk.injEq, Json.str.injEq, Json.bool.injEq, true_and,
    and_true] at h
  rw [hname f (by cases f <;> decide) f' (by cases f' <;> decide) h.1, h.2]

namespace Term

mutual
/-- The object that stores a term tells the term: by its kind the form, and by the other fields the parts. -/
theorem toJson_inj : ∀ {t u : Term}, toJson t = toJson u → t = u
  | .input, u, h => by cases u <;> simp [toJson] at h ⊢
  | .const v, u, h => by cases u <;> simp [toJson] at h ⊢; exact h
  | .var v, u, h => by cases u <;> simp [toJson] at h ⊢; exact h
  | .star, u, h => by cases u <;> simp [toJson] at h ⊢
  | .get base key, u, h => by
    cases u <;> simp [toJson] at h ⊢
    exact ⟨toJson_inj h.1, toJson_inj h.2⟩
  | .pointwise op args, u, h => by
    cases u <;> simp [toJson] at h ⊢
    exact ⟨Pointwise.toJson_inj h.1, listToJson_inj h.2⟩
  | .hint op args, u, h => by
    cases u <;> simp [toJson] at h ⊢
    exact ⟨h.1, listToJson_inj h.2⟩
  | .keySet arg, u, h => by
    cases u <;> simp [toJson] at h ⊢
    exact toJson_inj h
  | .reduce op arg, u, h => by
    cases u <;> simp [toJson] at h ⊢
    exact ⟨Reducer.toJson_inj h.1, toJson_inj h.2⟩
  | .scan op arg, u, h => by
    cases u <;> simp [toJson] at h ⊢
    exact ⟨Reducer.toJson_inj h.1, toJson_inj h.2⟩
  | .group key value, u, h => by
    cases u <;> simp [toJson] at h ⊢
    exact ⟨toJson_inj h.1, toJson_inj h.2⟩
  | .update base key value, u, h => by
    cases u <;> simp [toJson] at h ⊢
    exact ⟨toJson_inj h.1, toJson_inj h.2.1, toJson_inj h.2.2⟩
/-- The stored forms of a list of terms tell the list. -/
theorem listToJson_inj : ∀ {ts us : List Term}, listToJson ts = listToJson us → ts = us
  | [], [], _ => rfl
  | [], _ :: _, h => by cases h
  | _ :: _, [], h => by cases h
  | _ :: _, _ :: _, h => by
    simp only [listToJson, List.cons.injEq] at h
    rw [toJson_inj h.1, listToJson_inj h.2]
end

/-- Terms with the same fingerprint are the same. -/
theorem fingerprint_inj {t u : Term} (h : t.fingerprint = u.fingerprint) : t = u := toJson_inj (Json.text_inj h)

end Term

/-- The stored form of a set of variables tells the set. -/
theorem VarSet.toJson_inj {s t : VarSet} (h : s.toJson = t.toJson) : s = t := by
  have hinj : Function.Injective fun v : Nat => Json.ofInt v := by
    intro v w hvw
    simpa [Json.ofInt] using hvw
  have hlist := hinj.list_map (Json.arr.inj h)
  cases s
  cases t
  simpa using hlist

/-- The stored variable sets of a node tell the sets. -/
theorem VarInfo.toJson_inj {i j : VarInfo} (h : i.toJson = j.toJson) : i = j := by
  simp only [toJson, Json.obj.injEq, List.cons.injEq, Prod.mk.injEq, true_and, and_true] at h
  obtain ⟨h1, h2, h3, h4, h5, h6⟩ := h
  cases i
  cases j
  simp only [VarInfo.mk.injEq]
  exact ⟨VarSet.toJson_inj h1, VarSet.toJson_inj h2, VarSet.toJson_inj h3, VarSet.toJson_inj h4, VarSet.toJson_inj h5,
    VarSet.toJson_inj h6⟩

/-- The two modes are stored differently. -/
theorem Mode.toJson_inj {m m' : Mode} (h : m.toJson = m'.toJson) : m = m' := by
  cases m <;> cases m' <;> first | rfl | simp [toJson] at h

namespace Node

/-- No node is stored as null, which stands for a filter that is not there. -/
theorem toJson_ne_null (n : Node) : toJson n ≠ .null := by
  cases n <;> simp [toJson, stored]

mutual
/-- The object that stores a node tells the node with its variable sets. -/
theorem toJson_inj : ∀ {n m : Node}, toJson n = toJson m → n = m
  | .input _, m, h => by
    cases m <;> simp [toJson, stored] at h ⊢
    exact VarInfo.toJson_inj h
  | .const _ _, m, h => by
    cases m <;> simp [toJson, stored] at h ⊢
    exact ⟨VarInfo.toJson_inj h.2, h.1⟩
  | .var _ _, m, h => by
    cases m <;> simp [toJson, stored, Json.ofInt] at h ⊢
    exact ⟨VarInfo.toJson_inj h.2, h.1⟩
  | .get _ _ _, m, h => by
    cases m <;> simp [toJson, stored] at h ⊢
    exact ⟨VarInfo.toJson_inj h.2.2, toJson_inj h.1, toJson_inj h.2.1⟩
  | .pointwise _ _ _, m, h => by
    cases m <;> simp [toJson, stored] at h ⊢
    exact ⟨VarInfo.toJson_inj h.2.2, Pointwise.toJson_inj h.1, listToJson_inj h.2.1⟩
  | .hint _ _ _, m, h => by
    cases m <;> simp [toJson, stored] at h ⊢
    exact ⟨VarInfo.toJson_inj h.2.2, h.1, listToJson_inj h.2.1⟩
  | .keySet _ _, m, h => by
    cases m <;> simp [toJson, stored] at h ⊢
    exact ⟨VarInfo.toJson_inj h.2, toJson_inj h.1⟩
  | .reduce _ _ _ _, m, h => by
    cases m <;> simp [toJson, stored] at h ⊢
    exact ⟨VarInfo.toJson_inj h.2.2.2, Reducer.toJson_inj h.1, Mode.toJson_inj h.2.1, toJson_inj h.2.2.1⟩
  | .scan _ _ _ _, m, h => by
    cases m <;> simp [toJson, stored] at h ⊢
    exact ⟨VarInfo.toJson_inj h.2.2.2, Reducer.toJson_inj h.1, Mode.toJson_inj h.2.1, toJson_inj h.2.2.1⟩
  | .update _ _ _ _ _, m, h => by
    cases m <;> simp [toJson, stored] at h ⊢
    obtain ⟨hbase, hkey, hvalue, hfilter, hinfo⟩ := h
    exact ⟨VarInfo.toJson_inj hinfo, toJson_inj hbase, toJson_inj hkey, toJson_inj hvalue, optionToJson_inj hfilter⟩
/-- The stored forms of a list of nodes tell the list. -/
theorem listToJson_inj : ∀ {ns ms : List Node}, listToJson ns = listToJson ms → ns = ms
  | [], [], _ => rfl
  | [], _ :: _, h => by cases h
  | _ :: _, [], h => by cases h
  | _ :: _, _ :: _, h => by
    simp only [listToJson, List.cons.injEq] at h
    rw [toJson_inj h.1, listToJson_inj h.2]
/-- The stored form of a filter tells the filter, and whether there is one. -/
theorem optionToJson_inj : ∀ {n m : Option Node}, optionToJson n = optionToJson m → n = m
  | none, none, _ => rfl
  | none, some m, h => absurd h.symm (toJson_ne_null m)
  | some n, none, h => absurd h (toJson_ne_null n)
  | some _, some _, h => congrArg some (toJson_inj h)
end

/-- Nodes with the same fingerprint are the same, their variable sets included. -/
theorem fingerprint_inj {n m : Node} (h : n.fingerprint = m.fingerprint) : n = m := toJson_inj (Json.text_inj h)

end Node

/-- Fingerprints tell trees apart. Two terms, or two nodes with their variable sets, have the same fingerprint if and only if they
are the same tree, down to the order of the fields in a constant and to the form of its numbers. -/
theorem fingerprints_tell_trees_apart :
    (∀ t u : Term, t.fingerprint = u.fingerprint ↔ t = u) ∧ ∀ n m : Node, n.fingerprint = m.fingerprint ↔ n = m :=
  ⟨fun _ _ => ⟨Term.fingerprint_inj, congrArg Term.fingerprint⟩, fun _ _ => ⟨Node.fingerprint_inj, congrArg Node.fingerprint⟩⟩

end StarQuery
