import StarQuery.Proofs.Direct.Steady
import StarQuery.Proofs.Naming.Drawn
import StarQuery.Proofs.Path.Node
import StarQuery.Proofs.Scope.Budget

/-!
# Object literals

An object literal is a chain of updates of the empty object, one for each entry. The key of an entry is a constant, which becomes
a variable: the key of the set of that constant. What the entries are at a stage, as terms, as the bottom-up pass leaves them or in
a finished tree, is told by functions of them, and the literal at that stage by these functions. The value of a finished literal is
the record of the values of its entries (`Node.Literal.value_eq`).
-/

namespace StarQuery

variable {α : Type}

/-- The object with the values of some entries under the texts of their keys. An entry without value is left out, and one whose
key is there already takes its place. -/
def Json.record (key : α → Json) (value : α → Option Json) (entries : List α) : Json :=
  .obj (entries.foldl (fun fields e => (value e).elim fields (Fields.insert fields (key e).keyText)) [])

/-- One more entry is put under its key, if it has a value. -/
theorem Json.record_snoc (key : α → Json) (value : α → Option Json) (entries : List α) (e : α) :
    record key value (entries ++ [e]) =
      (value e).elim (record key value entries) fun x => setAt [(key e).keyText] x (record key value entries) := by
  rw [record, List.foldl_append]
  cases hvalue : value e with
  | none => simp [record, hvalue]
  | some x => simp [record, hvalue, setAt, Fields.insert]

/-! ## Terms -/

namespace Term

/-- The entries of an object literal put into the empty object, one after the other. -/
def literal (key : α → Json) (value : α → Term) (entries : List α) : Term :=
  entries.foldl (fun base e => .update base (.const (key e)) (value e)) (.const Json.empty)

variable {key : α → Json} {value : α → Term} {entries : List α}

/-- One more entry is one more update. -/
theorem literal_snoc (e : α) :
    literal key value (entries ++ [e]) = .update (literal key value entries) (.const (key e)) (value e) := by
  rw [literal, List.foldl_append]
  rfl

/-- An object literal resolves to its entries put into the empty object. -/
theorem ofQuery_object {query : α → Query} (h : ∀ e ∈ entries, ofQuery (query e) = .ok (value e)) :
    ofQuery (.object (entries.map fun e => (.const (key e), query e))) = .ok (literal key value entries) := by
  have hentries : ∀ base, ofEntries base (entries.map fun e => (.const (key e), query e)) =
      .ok (entries.foldl (fun base e => .update base (.const (key e)) (value e)) base) := by
    induction entries with
    | nil => exact fun _ => rfl
    | cons e entries ih =>
      rw [List.forall_mem_cons] at h
      intro base
      rw [List.map_cons, ofEntries, ofQuery, h.1, List.foldl_cons, ← ih h.2]
      rfl
  rw [ofQuery, hentries, literal]

/-- The stars of a literal are keys if those of its values are. -/
theorem starsKeyed_literal (h : ∀ e ∈ entries, (value e).starsKeyed false = true) :
    (literal key value entries).starsKeyed false = true := by
  induction entries using List.reverseRecOn with
  | nil => rfl
  | append_singleton entries e ih =>
    rw [List.forall_mem_append, List.forall_mem_singleton] at h
    rw [literal_snoc, starsKeyed, ih h.1, h.2]
    rfl

/-- A literal names no variable if its values name none. -/
theorem names_literal (h : ∀ e ∈ entries, (value e).names = []) : (literal key value entries).names = [] := by
  induction entries using List.reverseRecOn with
  | nil => rfl
  | append_singleton entries e ih =>
    rw [List.forall_mem_append, List.forall_mem_singleton] at h
    rw [literal_snoc, names, ih h.1, h.2]
    rfl

end Term

/-! ## The variables of keys -/

namespace Naming

/-- The variable of a key that is constant. -/
def literalVar (N : Naming) (k : Json) : Var := (N.nameAfter 'K' (Node.keySet {} (.const {} k)).fingerprint).1

/-- The variable of a key is named after the set of the key. -/
def LiteralNamed (N : Naming) (k : Json) : Prop := N.NamedAfter 'K' (Node.keySet {} (.const {} k)).fingerprint (N.literalVar k)

/-- Different keys have different variables. -/
theorem LiteralNamed.inj {N : Naming} {k k' : Json} (h : N.LiteralNamed k) (h' : N.LiteralNamed k')
    (heq : N.literalVar k = N.literalVar k') : k = k' := by
  unfold LiteralNamed at h
  rw [heq] at h
  cases Node.fingerprint_inj (h.inj h').2
  rfl

end Naming

namespace Node

section
variable (N : Naming)

/-- The lookup of a key that is constant, in a finished tree. -/
def literalFilter (k : Json) : Node :=
  .get (.taking (.single (N.literalVar k))) (.keySet {} (.const {} k)) (keyVar (N.literalVar k))

/-- The generator of a key that is constant. -/
def literalGenerator (k : Json) : Generator := ⟨N.literalVar k, .keySet {} (.const {} k), (literalFilter N k).text N.table⟩

end

/-- The generator of a key that is constant is steady, as it draws from a constant. -/
theorem steady_literalGenerator {N : Naming} {given : Given} (htable : given.table = N.table) {k : Json} (h : N.LiteralNamed k) :
    Direct.Steady given (literalGenerator N k) where
  needs := rfl
  shallow := htable ▸ Naming.NamedAfter.isDeep_eq_false h (by decide)
  source _ _ _ _ := rfl

/-- The generator of a key that is constant offers this one key. -/
theorem keysOf_literalGenerator (N : Naming) (given : Given) (k : Json) :
    Direct.keysOf given (literalGenerator N k) = [.str k.keyText] := rfl

/-! ## Literals as the bottom-up pass leaves them -/

/-- An object literal as the bottom-up pass leaves it, if it leaves the values of the entries as `value` tells. -/
def measuredLiteral (N : Naming) (key : α → Json) (value : α → Node) (entries : List α) : Node :=
  entries.foldl (fun base e =>
    (Node.update {} base (measuredVar (N.literalVar (key e))) (value e)
      (some (measuredFilter (.const {} (key e)) (N.literalVar (key e))))).settleExtent) (.const {} Json.empty)

section
variable {N : Naming} {key : α → Json} {value : α → Node} {entries : List α}

/-- One more entry is one more update by a computed key. -/
theorem measuredLiteral_snoc (e : α) : measuredLiteral N key value (entries ++ [e]) =
    (Node.update {} (measuredLiteral N key value entries) (measuredVar (N.literalVar (key e))) (value e)
      (some (measuredFilter (.const {} (key e)) (N.literalVar (key e))))).settleExtent := by
  rw [measuredLiteral, List.foldl_append]
  rfl

/-- What an object literal reads as. -/
theorem of_reads_literal {term : α → Term} {n : Node} (h : Reads N (Term.literal key term entries) n)
    (hvalue : ∀ e ∈ entries, ∀ x, Reads N (term e) x → (gathered (term e) x).withExtents = value e) :
    n.withExtents = measuredLiteral N key value entries ∧
      ∀ e ∈ entries, N.LiteralNamed (key e) ∧ ∃ x, Reads N (term e) x := by
  induction entries using List.reverseRecOn generalizing n with
  | nil =>
    cases h
    exact ⟨rfl, fun e he => absurd he List.not_mem_nil⟩
  | append_singleton entries e ih =>
    rw [List.forall_mem_append, List.forall_mem_singleton] at hvalue
    rw [Term.literal_snoc] at h
    rw [measuredLiteral_snoc, List.forall_mem_append, List.forall_mem_singleton]
    cases h with
    | named _ hkey _ => cases hkey
    | @keyed _ _ _ b k x v hbase hkey hx _ hv =>
      cases hkey
      obtain ⟨hb, hentries⟩ := ih hbase hvalue.1
      have hvar : N.literalVar (key e) = v := hv.nameAfter_eq
      refine ⟨?_, hentries, ?_, x, hx⟩
      · simp only [withExtents, optionWithExtents, hb, hvalue.2 x hx, hvar]
        rfl
      · rw [Naming.LiteralNamed, hvar]
        exact hv

/-- A literal is drawn if its values are. -/
theorem Drawn.literal (h : ∀ e ∈ entries, Drawn (value e)) : Drawn (measuredLiteral N key value entries) := by
  have hconst : ∀ k, Drawn (.const {} k) := fun k =>
    .joint (n := .const {} k) rfl fun c hc => absurd hc List.not_mem_nil
  induction entries using List.reverseRecOn with
  | nil => exact hconst _
  | append_singleton entries e ih =>
    rw [List.forall_mem_append, List.forall_mem_singleton] at h
    rw [measuredLiteral_snoc]
    exact .keyed (ih h.1) (hconst _) h.2 (VarSet.not_mem_empty _)

/-- The values of the entries and the lookups of their keys are parts of a literal. -/
theorem mem_postorder_literal {e : α} (he : e ∈ entries) :
    value e ∈ (measuredLiteral N key value entries).postorder ∧
      measuredFilter (.const {} (key e)) (N.literalVar (key e)) ∈ (measuredLiteral N key value entries).postorder := by
  induction entries using List.reverseRecOn with
  | nil => cases he
  | append_singleton entries last ih =>
    rw [measuredLiteral_snoc]
    rcases List.mem_append.1 he with he | he
    · obtain ⟨hvalue, hfilter⟩ := ih he
      exact ⟨mem_postorder_of_mem_children base_mem_children hvalue, mem_postorder_of_mem_children base_mem_children hfilter⟩
    · rw [List.mem_singleton.1 he]
      exact ⟨mem_postorder_of_mem_children value_mem_children (self_mem_postorder _),
        mem_postorder_of_mem_children filter_mem_children (self_mem_postorder _)⟩

/-- A literal whose values range over nothing in any case ranges over nothing in any case. -/
theorem mind_measuredLiteral (h : ∀ e ∈ entries, (value e).info.mind = ∅) :
    (measuredLiteral N key value entries).info.mind = ∅ := by
  induction entries using List.reverseRecOn with
  | nil => rfl
  | append_singleton entries e ih =>
    rw [List.forall_mem_append, List.forall_mem_singleton] at h
    refine VarSet.ext fun v => ?_
    rw [measuredLiteral_snoc]
    simp [settleExtent, extent, ih h.1, h.2]

/-- A literal ranges over what its entries range over, apart from their keys. -/
theorem mem_dims_measuredLiteral {v : Var} : v ∈ (measuredLiteral N key value entries).info.dims ↔
    ∃ e ∈ entries, v ∈ (value e).info.dims ∧ v ≠ N.literalVar (key e) := by
  induction entries using List.reverseRecOn with
  | nil => simp [measuredLiteral]
  | append_singleton entries e ih =>
    have hvar : (measuredVar (N.literalVar (key e))).info.vars = .single (N.literalVar (key e)) := rfl
    rw [measuredLiteral_snoc]
    simp [settleExtent, extent, ih, hvar, or_and_right, exists_or]

/-- The lookups of variables in an update are those in its base, its value and its filter. -/
theorem filters_keyed (i j : VarInfo) (v : Var) (base x filter : Node) :
    (Node.update i base (.var j v) x (some filter)).filters = base.filters ++ (x.filters ++ filter.filters) := by
  have hvar : (Node.var j v).filters = [] := rfl
  rw [filters_eq]
  simp [children, filterVar?, hvar]

/-- The lookups of variables in a literal are those in its values, each followed by that of its key. -/
theorem filters_measuredLiteral : (measuredLiteral N key value entries).filters =
    entries.flatMap fun e => (value e).filters ++ [measuredFilter (.const {} (key e)) (N.literalVar (key e))] := by
  induction entries using List.reverseRecOn with
  | nil => rfl
  | append_singleton entries e ih =>
    have hfilter : (measuredFilter (.const {} (key e)) (N.literalVar (key e))).filters =
        [measuredFilter (.const {} (key e)) (N.literalVar (key e))] := rfl
    rw [measuredLiteral_snoc, List.flatMap_append, List.flatMap_singleton, ← ih, ← hfilter]
    exact filters_keyed _ _ _ _ _ _

end

/-! ## Literals in a finished tree -/

/-- An object literal in a finished tree, if the values of its entries are what `value` tells: an entry loops over its key, and
takes from around it what the entries before it and its value take. -/
inductive Literal (N : Naming) (key : α → Json) (value : α → Node) : List α → Node → Prop where
  | nil : Literal N key value [] (.const {} Json.empty)
  | snoc {entries : List α} {e : α} {base : Node} {i : VarInfo} : Literal N key value entries base →
      i.bound = .single (N.literalVar (key e)) → i.free = base.info.free ∪ (value e).info.free →
      Literal N key value (entries ++ [e])
        (.update i base (keyVar (N.literalVar (key e))) (value e) (some (literalFilter N (key e))))

/-- An entry of a literal in a finished tree: its key has its own variable and a generator, and its value, an aggregate that takes
some of `vars` from around it, is `y`. -/
structure Entry (N : Naming) (given : Given) (generators : List Generator) (vars : VarSet) (b : Binding) (k : Json) (x : Node)
    (y : Option Json) : Prop where
  named : N.LiteralNamed k
  generator : literalGenerator N k ∈ generators
  fresh : ¬ N.literalVar k ∈ vars
  gathers : x.gathers = true
  free : x.info.free ⊆ vars
  value : ∀ depth, Direct.value given generators (depth + 1) b x = y

section
variable {N : Naming} {key : α → Json} {measured value : α → Node} {entries : List α}

/-- A literal takes from around it what its values take. -/
theorem Literal.mem_free {n : Node} (h : Literal N key value entries n) {v : Var} :
    v ∈ n.info.free ↔ ∃ e ∈ entries, v ∈ (value e).info.free := by
  induction h with
  | nil => simp
  | snoc _ _ hfree ih => simp [hfree, ih, or_and_right, exists_or]

/-- The passes from the root down give the lookup of a key that is constant its key. -/
theorem annotated_literalFilter (d : Dependencies) (k : Json) (outB outF : VarSet) (path : List Grouping) :
    annotated d (measuredFilter (.const {} k) (N.literalVar k)) outB outF path = literalFilter N k := by
  have hconst : annotated d (.const {} k) outB outF path = .const {} k := rfl
  rw [annotated_filter, hconst]
  simp [literalFilter, measuredFilter, measuredVar, settleExtent, extent, jointExtent, setInfo, VarInfo.taking,
    VarSet.empty_union]

/-- An entry takes from around it what the object before it and its value take, if its key is not provided there and depends on
nothing else. -/
theorem needed_entry {d : Dependencies} {out : VarSet} {u : Var} (hfresh : ¬ u ∈ out) (hdepends : d.of u ⊆ .single u)
    {base x : VarSet} (hbase : base ⊆ out) (hx : x ⊆ out) :
    needed d (.single u) (.unions [base, .single u, x, ∅]) out [] = base ∪ x := by
  have hkey : ∀ v ∈ d.ofSet (.single u), v = u := by
    intro v hv
    obtain ⟨w, hw, hv⟩ := VarSet.mem_unions_map.1 hv
    rw [VarSet.mem_toList, VarSet.mem_single] at hw
    exact VarSet.mem_single.1 (hdepends v (hw ▸ hv))
  refine VarSet.ext fun v => ?_
  simp only [needed, correlated, List.filter_nil, List.map_nil, VarSet.unions_nil, VarSet.union_empty, VarSet.mem_inter,
    VarSet.mem_union, VarSet.mem_unions, List.mem_cons, List.not_mem_nil, or_false, exists_eq_or_imp, exists_eq_left,
    VarSet.mem_single, VarSet.not_mem_empty]
  constructor
  · rintro ⟨hv | hv | hv | hv, hout⟩
    · exact absurd (hkey v hv ▸ hout) hfresh
    · exact .inl hv
    · exact absurd (hv ▸ hout) hfresh
    · exact .inr hv
  · rintro (hv | hv)
    · exact ⟨.inr (.inl hv), hbase v hv⟩
    · exact ⟨.inr (.inr (.inr hv)), hx v hv⟩

/-- The passes from the root down make a literal of what the values of the entries become, if these take only what is provided
around the literal, and no key is provided there or depends on anything else. -/
theorem annotated_literal {d : Dependencies} {out : VarSet} (hfresh : ∀ e ∈ entries, ¬ N.literalVar (key e) ∈ out)
    (hdepends : ∀ e ∈ entries, d.of (N.literalVar (key e)) ⊆ .single (N.literalVar (key e)))
    (hvalue : ∀ e ∈ entries, annotated d (measured e) (out ∪ .single (N.literalVar (key e)))
      (out ∪ .single (N.literalVar (key e)))
      [⟨.single (N.literalVar (key e)), d.ofSet (.single (N.literalVar (key e)))⟩] = value e)
    (hfree : ∀ e ∈ entries, (value e).info.free ⊆ out) :
    Literal N key value entries (annotated d (measuredLiteral N key measured entries) out out []) := by
  induction entries using List.reverseRecOn with
  | nil => exact .nil
  | append_singleton entries e ih =>
    rw [List.forall_mem_append, List.forall_mem_singleton] at hfresh hdepends hvalue hfree
    have hbase := ih hfresh.1 hdepends.1 hvalue.1 hfree.1
    have hbound : VarSet.single (N.literalVar (key e)) \ out = .single (N.literalVar (key e)) := by
      refine VarSet.ext fun v => ?_
      rw [VarSet.mem_sdiff, VarSet.mem_single, and_iff_left_iff_imp]
      rintro rfl
      exact hfresh.2
    have hin : (annotated d (measuredLiteral N key measured entries) out out []).info.free ⊆ out := by
      intro v hv
      obtain ⟨e', he', hv⟩ := hbase.mem_free.1 hv
      exact hfree.1 e' he' v hv
    have hbody : bodyFree out (some (literalFilter N (key e))) = ∅ := by
      refine VarSet.ext fun v => ?_
      simp [bodyFree, literalFilter]
    rw [measuredLiteral_snoc, annotated_keyed, annotated_literalFilter, List.nil_append, hvalue.2, hbound, hbody]
    exact .snoc hbase rfl (needed_entry hfresh.2 hdepends.2 hin hfree.2)

namespace Literal

variable {n : Node} (h : Literal N key value entries n)

include h

/-- In a finished tree the lookups of variables are those in the values, each followed by that of its key. -/
theorem filters_eq : n.filters = entries.flatMap fun e => (value e).filters ++ [literalFilter N (key e)] := by
  induction h with
  | nil => rfl
  | @snoc entries e base i _ _ _ ih =>
    have hfilter : (literalFilter N (key e)).filters = [literalFilter N (key e)] := rfl
    rw [List.flatMap_append, List.flatMap_singleton, ← ih, ← hfilter]
    exact filters_keyed _ _ _ _ _ _

/-- The value of a literal depends on the variables that it takes from around it only. -/
theorem dependsOn (given : Given) (generators : List Generator) (depth : Nat) :
    Direct.DependsOn (Direct.value given generators depth) n.info.free n := by
  cases h with
  | nil => exact fun _ _ _ => rfl
  | snoc => exact Direct.dependsOn_of_gathers given generators depth rfl

/-- The value of a literal is the record of the values of its entries. -/
theorem value_eq {given : Given} {generators : List Generator} {vars : VarSet} {b : Binding} {values : α → Option Json}
    (hsteady : Direct.SteadyIn given generators vars) (hb : Direct.Fits given generators vars b) (htable : given.table = N.table)
    (hentries : ∀ e ∈ entries, Entry N given generators vars b (key e) (value e) (values e)) {depth : Nat}
    (hdepth : entries.length < depth) :
    Direct.value given generators depth b n = some (Json.record key values entries) := by
  induction h generalizing depth with
  | nil => rfl
  | @snoc entries e base i hbase hbound hi ih =>
    rw [List.forall_mem_append, List.forall_mem_singleton] at hentries
    rw [List.length_append, List.length_singleton] at hdepth
    -- the value of the entry and the entries before it are one aggregate further in
    obtain ⟨depth, rfl⟩ : ∃ k, depth = k + 2 := ⟨depth - 2, by omega⟩
    have hlast := hentries.2
    have hfree : i.free ⊆ vars := by
      intro v hv
      rw [hi, VarSet.mem_toList, VarSet.mem_union] at hv
      rcases hv with hv | hv
      · obtain ⟨e', he', hv⟩ := hbase.mem_free.1 hv
        exact (hentries.1 e' he').free v hv
      · exact hlast.free v hv
    have hbases : Direct.DependsOn (Direct.value given generators (depth + 1)) i.free base :=
      (hbase.dependsOn given generators (depth + 1)).mono fun v hv => hi ▸ VarSet.mem_union.2 (.inl hv)
    have hvalues : Direct.DependsOn (Direct.value given generators (depth + 1)) i.free (value e) :=
      (Direct.dependsOn_of_gathers given generators (depth + 1) hlast.gathers).mono fun v hv =>
        hi ▸ VarSet.mem_union.2 (.inr hv)
    have hrest : Direct.value given generators (depth + 1) b base = some (Json.record key values entries) :=
      ih hentries.1 (by omega)
    have hentry : Direct.value given generators (depth + 2) b
        (.update i base (keyVar (N.literalVar (key e))) (value e) (some (literalFilter N (key e)))) =
          (Direct.value given generators (depth + 1) b (value e)).elim (Direct.value given generators (depth + 1) b base) fun y =>
            some (Json.setAt [(key e).keyText] y ((Direct.value given generators (depth + 1) b base).getD Json.empty)) :=
      Direct.aggregateWith_entry (hsteady.mono hfree) (hb.mono hfree) hlast.generator
        (steady_literalGenerator htable hlast.named) (keysOf_literalGenerator N given (key e))
        (fun hv => hlast.fresh (hfree _ hv)) hbound hbases hvalues _
    rw [hentry, hlast.value, hrest, Json.record_snoc]
    cases values e <;> rfl

end Literal

end

end Node

end StarQuery
