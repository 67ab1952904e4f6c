import StarQuery.Proofs.Direct.Keys
import StarQuery.Proofs.Machine.Values

/-!
# The tuples of a projection

A tree of keys holds tuples, which are told apart by the texts of their keys. A tuple that is added is there afterwards, next to
those that were there before (`KeyTree.mem_texts_insert`), and no tuple is ever held twice (`KeyTree.nodup_texts`). So the tree that a
projection fills leads to one binding for each different tuple of texts among the bindings that fill it
(`Direct.mem_texts_tuples`, `KeyTree.keyTexts?_bindings`).
-/

namespace StarQuery

namespace KeyTree

/-- The texts of the tuples of `n` keys in a tree. -/
def texts : Nat → KeyTree → List (List String)
  | 0, _ => [[]]
  | n + 1, tree => tree.entries.flatMap fun (key, below) => (texts n below).map (key.keyText :: ·)

/-- The tuples of a tree begin with its first key, or are those of the keys after it. -/
theorem texts_cons (n : Nat) (key : Json) (below rest : KeyTree) :
    texts (n + 1) (.cons key below rest) = (texts n below).map (key.keyText :: ·) ++ texts (n + 1) rest := by
  rw [texts, entries, List.flatMap_cons, texts]

/-- A chain holds one tuple. -/
theorem texts_chain (keys : List Json) : texts keys.length (chain keys) = [keys.map Json.keyText] := by
  induction keys with
  | nil => rfl
  | cons key keys ih => rw [List.length_cons, chain, texts_cons, ih]; rfl

/-- One more tuple is held after it is added. -/
theorem mem_texts_insert (tree : KeyTree) (keys : List Json) {ts : List String} :
    ts ∈ texts keys.length (tree.insert keys) ↔ ts ∈ texts keys.length tree ∨ ts = keys.map Json.keyText := by
  fun_induction insert tree keys generalizing ts with
  | case1 keys =>
    cases keys with
    | nil => simp [texts]
    | cons key keys =>
      rw [texts_chain, List.mem_singleton]
      exact (or_iff_right List.not_mem_nil).symm
  | case2 => simp [texts]
  | case3 key below rest k ks hkey ih =>
    rw [List.length_cons, texts_cons, texts_cons, List.mem_append, List.mem_append, List.mem_map, List.mem_map, List.map_cons,
      ← hkey]
    constructor
    · rintro (⟨us, hus, rfl⟩ | hrest)
      · rcases ih.1 hus with hus | rfl
        · exact .inl (.inl ⟨us, hus, rfl⟩)
        · exact .inr rfl
      · exact .inl (.inr hrest)
    · rintro ((⟨us, hus, rfl⟩ | hrest) | rfl)
      · exact .inl ⟨us, ih.2 (.inl hus), rfl⟩
      · exact .inr hrest
      · exact .inl ⟨_, ih.2 (.inr rfl), rfl⟩
  | case4 key below rest k ks _ ih =>
    rw [List.length_cons] at ih ⊢
    rw [texts_cons, texts_cons, List.mem_append, List.mem_append, ih, or_assoc]

/-! ## Different keys -/

/-- The keys that stand side by side in a tree differ in their texts, at every depth. -/
def Distinct : KeyTree → Prop
  | .nil => True
  | .cons key below rest => (∀ item ∈ rest.entries, item.1.keyText ≠ key.keyText) ∧ Distinct below ∧ Distinct rest

/-- In a chain no keys stand side by side. -/
theorem distinct_chain (keys : List Json) : (chain keys).Distinct := by
  induction keys with
  | nil => trivial
  | cons key keys ih => exact ⟨fun _ h => absurd h List.not_mem_nil, ih, trivial⟩

/-- The keys side by side after a tuple is added: those that were there, and perhaps its first key. -/
theorem mem_entries_insert {tree : KeyTree} {k : Json} {ks : List Json} {item : Json × KeyTree}
    (h : item ∈ (tree.insert (k :: ks)).entries) : (∃ old ∈ tree.entries, old.1 = item.1) ∨ item.1 = k := by
  induction tree with
  | nil => exact .inr (congrArg Prod.fst (List.mem_singleton.1 h))
  | cons key below rest _ ih =>
    rw [insert] at h
    split at h
    · rcases List.mem_cons.1 h with rfl | h
      · exact .inl ⟨(key, below), List.mem_cons_self, rfl⟩
      · exact .inl ⟨item, List.mem_cons_of_mem _ h, rfl⟩
    · rcases List.mem_cons.1 h with rfl | h
      · exact .inl ⟨(key, below), List.mem_cons_self, rfl⟩
      · rcases ih h with ⟨old, hold, heq⟩ | hk
        · exact .inl ⟨old, List.mem_cons_of_mem _ hold, heq⟩
        · exact .inr hk

/-- Adding a tuple keeps different keys different. -/
theorem distinct_insert {tree : KeyTree} (h : tree.Distinct) (keys : List Json) : (tree.insert keys).Distinct := by
  fun_induction insert tree keys with
  | case1 keys => exact distinct_chain keys
  | case2 => exact h
  | case3 key below rest k ks _ ih => exact ⟨h.1, ih h.2.1, h.2.2⟩
  | case4 key below rest k ks hkey ih =>
    refine ⟨fun item hitem => ?_, h.2.1, ih h.2.2⟩
    rcases mem_entries_insert hitem with ⟨old, hold, heq⟩ | hk
    · rw [← heq]
      exact h.1 old hold
    · rw [hk]
      exact Ne.symm hkey

/-- The first text of a tuple is that of a key at the top. -/
theorem head_of_mem_texts {n : Nat} {tree : KeyTree} {t : String} {ts : List String} (h : t :: ts ∈ texts (n + 1) tree) :
    ∃ item ∈ tree.entries, item.1.keyText = t := by
  obtain ⟨item, hitem, hmem⟩ := List.mem_flatMap.1 h
  obtain ⟨us, -, heq⟩ := List.mem_map.1 hmem
  exact ⟨item, hitem, (List.cons.inj heq).1⟩

/-- A tree of different keys holds no tuple twice. -/
theorem nodup_texts {tree : KeyTree} (h : tree.Distinct) (n : Nat) : (texts n tree).Nodup := by
  induction n generalizing tree with
  | zero => exact List.pairwise_singleton _ []
  | succ n ih =>
    induction tree with
    | nil => exact List.nodup_nil
    | cons key below rest _ ihrest =>
      rw [texts_cons, List.nodup_append]
      refine ⟨(ih h.2.1).map (fun _ _ heq => (List.cons.inj heq).2), ihrest h.2.2, ?_⟩
      rintro ts hts us hus rfl
      obtain ⟨below', -, rfl⟩ := List.mem_map.1 hts
      obtain ⟨item, hitem, htext⟩ := head_of_mem_texts hus
      exact h.1 item hitem htext

end KeyTree

/-! ## Bindings -/

namespace Direct

/-- The tree that bindings fill has different keys side by side. -/
theorem distinct_tuples (vars : List Var) (bs : List Binding) : (tuples vars bs).Distinct := by
  induction bs using List.reverseRecOn with
  | nil => trivial
  | append_singleton bs b ih =>
    rw [tuples_snoc]
    cases vars.mapM b with
    | none => exact ih
    | some tuple => exact KeyTree.distinct_insert ih tuple

/-- The tree that bindings fill holds the tuples of those bindings that bind all variables. -/
theorem mem_texts_tuples {vars : List Var} (hvars : vars ≠ []) (bs : List Binding) {ts : List String} :
    ts ∈ (tuples vars bs).texts vars.length ↔ ∃ b ∈ bs, b.keyTexts? vars = some ts := by
  induction bs using List.reverseRecOn with
  | nil =>
    obtain ⟨v, vs, rfl⟩ := List.exists_cons_of_ne_nil hvars
    simp [tuples, KeyTree.texts, KeyTree.entries]
  | append_singleton bs b ih =>
    have hlast : (∃ c ∈ bs ++ [b], c.keyTexts? vars = some ts) ↔
        (∃ c ∈ bs, c.keyTexts? vars = some ts) ∨ b.keyTexts? vars = some ts := by
      simp only [List.mem_append, List.mem_singleton, or_and_right, exists_or, exists_eq_left]
    rw [hlast, ← ih, tuples_snoc]
    cases htuple : vars.mapM b with
    | none => simp [Binding.keyTexts?, htuple]
    | some tuple =>
      have htexts : b.keyTexts? vars = some (tuple.map Json.keyText) := by rw [Binding.keyTexts?, htuple, Option.map_some]
      have hlength : tuple.length = vars.length := by rw [← Binding.length_of_keyTexts? htexts, List.length_map]
      rw [Option.elim_some, ← hlength, KeyTree.mem_texts_insert, htexts, Option.some.injEq]
      exact or_congr_right eq_comm

end Direct

namespace KeyTree

/-- The bindings of a tree leave other variables as they are. -/
theorem eq_of_mem_bindings {vs : List Var} {tree : KeyTree} {b c : Binding} (h : c ∈ tree.bindings vs b) {w : Var}
    (hw : ¬ w ∈ vs) : c w = b w := by
  induction vs generalizing tree b with
  | nil => rw [List.mem_singleton.1 h]
  | cons v vs ih =>
    rw [List.mem_cons, not_or] at hw
    obtain ⟨item, -, hc⟩ := List.mem_flatMap.1 h
    rw [ih hc hw.2, Binding.set, Function.update_of_ne hw.1]

/-- The bindings of a tree bind the variables to its tuples, one after the other. -/
theorem keyTexts?_bindings {vs : List Var} (hvs : vs.Nodup) (tree : KeyTree) (b : Binding) :
    (tree.bindings vs b).map (·.keyTexts? vs) = (tree.texts vs.length).map some := by
  induction vs generalizing tree b with
  | nil => rfl
  | cons v vs ih =>
    rw [List.nodup_cons] at hvs
    rw [bindings, List.length_cons, texts, List.map_flatMap, List.map_flatMap]
    refine congrArg List.flatten (List.map_congr_left fun item _ => ?_)
    have hcons : ∀ c ∈ item.2.bindings vs (b.set v item.1),
        c.keyTexts? (v :: vs) = (c.keyTexts? vs).map (item.1.keyText :: ·) := by
      intro c hc
      have hv : c v = some item.1 := by rw [eq_of_mem_bindings hc hvs.1, Binding.set, Function.update_self]
      rw [Binding.keyTexts?_cons, hv, Option.bind_some]
    have hrest := congrArg (List.map (Option.map (item.1.keyText :: ·))) (ih hvs.2 item.2 (b.set v item.1))
    rw [List.map_map, List.map_map] at hrest
    rw [List.map_congr_left hcons, List.map_map]
    exact hrest

end KeyTree

end StarQuery
