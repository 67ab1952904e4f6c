import Mathlib.Data.List.Nodup
import StarQuery.Proofs.Naming.Range

/-!
# Naming terms one after another

Terms are named one after another, each with what was named before it; what was named before a term is rejected stays named.
Names are only ever added (`Node.ofTerm_grows`), so that a part of a term that has become a node reads as that node under the
names that there are in the end (`Named.reads`).
-/

namespace StarQuery

/-! ## Names are only added -/

namespace Naming

/-- A naming that keeps all that another has, and has each of its names once if the other does. -/
structure GrowsTo (N M : Naming) : Prop extends N.Extends M where
  nodup : N.table.names.Nodup → M.table.names.Nodup

namespace GrowsTo

theorem refl (N : Naming) : N.GrowsTo N := ⟨.refl N, id⟩

theorem trans {N M L : Naming} (h : N.GrowsTo M) (h' : M.GrowsTo L) : N.GrowsTo L :=
  ⟨h.toExtends.trans h'.toExtends, h'.nodup ∘ h.nodup⟩

end GrowsTo

/-- Looking a name up adds it at most, and only if it is new. -/
theorem intern_growsTo (N : Naming) (name : String) : N.GrowsTo (N.intern name).2 := by
  refine ⟨(N.intern_spec name).1, fun hnodup => ?_⟩
  unfold intern NameTable.intern
  cases h : N.table.lookup? name with
  | some v => exact hnodup
  | none =>
    have hnew : name ∉ N.table.names := List.idxOf?_eq_none_iff.1 h
    rw [← List.concat_eq_append]
    exact List.Nodup.concat hnew hnodup

/-- Naming after a collection adds the collection and a name at most. -/
theorem nameAfter_growsTo (N : Naming) (tag : Char) (key : String) : N.GrowsTo (N.nameAfter tag key).2 := by
  refine ⟨(N.nameAfter_spec tag key).1, fun hnodup => ?_⟩
  have htable : (N.number key).2.table = N.table := by
    unfold number
    split <;> rfl
  exact ((N.number key).2.intern_growsTo _).nodup (htable ▸ hnodup)

end Naming

/-- A run only adds names, whether it has a result or not. -/
def Grows {α : Type} (m : NamingM α) : Prop := ∀ N : Naming, N.GrowsTo (m.run.run N).2

namespace Grows

variable {α β : Type}

theorem pure (a : α) : Grows (Pure.pure a) := Naming.GrowsTo.refl

theorem throw (e : QueryError) : Grows (MonadExceptOf.throw e : NamingM α) := Naming.GrowsTo.refl

/-- Looking a name up only adds names. -/
theorem intern (name : String) : Grows (modifyGet fun naming => naming.intern name) := fun N => N.intern_growsTo name

/-- Naming after a collection only adds names. -/
theorem nameAfter (tag : Char) (key : String) : Grows (modifyGet fun naming => naming.nameAfter tag key) :=
  fun N => N.nameAfter_growsTo tag key

/-- What follows a run keeps what the run has named. -/
theorem run_bind {f : α → NamingM β} (hf : ∀ a, Grows (f a)) (m : NamingM α) (N : Naming) :
    (m.run.run N).2.GrowsTo ((m >>= f).run.run N).2 := by
  rw [NamingM.run_bind]
  rcases m.run.run N with ⟨r, M⟩
  cases r with
  | ok a => exact hf a M
  | error e => exact .refl M

theorem bind {m : NamingM α} {f : α → NamingM β} (hm : Grows m) (hf : ∀ a, Grows (f a)) : Grows (m >>= f) :=
  fun N => (hm N).trans (run_bind hf m N)

theorem map {m : NamingM α} (hm : Grows m) (f : α → β) : Grows (m >>= fun a => Pure.pure (f a)) :=
  hm.bind fun a => pure (f a)

end Grows

/-! ## The parts of a term -/

namespace Term

/-- The parts of a term that are named before it, in order. A star that a lookup draws from a collection is no such part. -/
def operands : Term → List Term
  | .input | .const _ | .var _ | .star => []
  | .get base .star => [base]
  | .get base key => [base, key]
  | .pointwise _ args | .hint _ args => args
  | .keySet arg | .reduce _ arg | .scan _ arg => [arg]
  | .group key value => [key, value]
  | .update base key value => [base, key, value]

/-- The key of a term that becomes an update. -/
def updateKey? : Term → Option Term
  | .group key _ | .update _ key _ => some key
  | _ => none

/-- The key of an update is one of the parts. -/
theorem mem_operands_of_updateKey? {t key : Term} (h : t.updateKey? = some key) : key ∈ t.operands := by
  cases t <;> cases h <;> simp [operands]

/-- A lookup by a key that is no star has two parts to name. -/
theorem operands_get {base key : Term} (h : key ≠ .star) : (Term.get base key).operands = [base, key] := by
  rw [operands]
  exact h

/-- The parts of a lookup are its collection and its key. -/
theorem mem_operands_get {u base key : Term} (h : u ∈ (Term.get base key).operands) : u = base ∨ u = key := by
  by_cases hstar : key = .star
  · subst hstar
    exact .inl (List.mem_singleton.1 h)
  · rw [operands_get hstar] at h
    exact List.mem_pair.1 h

/-- A part is smaller than the term. -/
theorem sizeOf_lt_of_mem_operands {t u : Term} (h : u ∈ t.operands) : sizeOf u < sizeOf t := by
  cases t with
  | input | const | var | star => cases h
  | get base key => rcases mem_operands_get h with rfl | rfl <;> (simp only [get.sizeOf_spec]; omega)
  | pointwise op args | hint op args =>
    have hlt : sizeOf u < sizeOf args := List.sizeOf_lt_of_mem h
    simp only [pointwise.sizeOf_spec, hint.sizeOf_spec]
    omega
  | keySet arg | reduce op arg | scan op arg => simp [List.mem_singleton.1 h]
  | group key value => rcases List.mem_pair.1 h with rfl | rfl <;> (simp only [group.sizeOf_spec]; omega)
  | update base key value =>
    simp only [operands, List.mem_cons, List.not_mem_nil, or_false] at h
    rcases h with rfl | rfl | rfl <;> (simp only [update.sizeOf_spec]; omega)

/-- A part has no names but those of the term. -/
theorem names_subset_of_mem_operands {t u : Term} (h : u ∈ t.operands) : u.names ⊆ t.names := by
  cases t with
  | input | const | var | star => cases h
  | get base key => rcases mem_operands_get h with rfl | rfl <;> simp [names]
  | pointwise op args | hint op args =>
    intro name hname
    rw [names, listNames_eq]
    exact List.mem_flatMap.2 ⟨u, h, hname⟩
  | keySet arg | reduce op arg | scan op arg => simp [names, List.mem_singleton.1 h]
  | group key value => rcases List.mem_pair.1 h with rfl | rfl <;> simp [names]
  | update base key value =>
    simp only [operands, List.mem_cons, List.not_mem_nil, or_false] at h
    rcases h with rfl | rfl | rfl <;> simp [names]

end Term

namespace Node

/-- Two lists of terms are named one after the other. -/
theorem ofTerms_append (ts us : List Term) :
    ofTerms (ts ++ us) = ofTerms ts >>= fun ns => ofTerms us >>= fun ms => pure (ns ++ ms) := by
  induction ts with
  | nil => simp [ofTerms]
  | cons t ts ih => simp [ofTerms, ih]

/-- Updating by a key only adds names. -/
theorem updateBy_grows (base key value : Node) : Grows (updateBy base key value) := by
  unfold updateBy
  split
  · exact Grows.pure _
  · exact (Grows.nameAfter _ _).map _

section
variable {β : Type} (t u w : Term)

/-- Naming one term is naming a list of one. -/
theorem ofTerm_bind (f : Node → NamingM β) : ofTerm t >>= f = ofTerms [t] >>= fun ns => f (ns[0]?.getD default) := by
  simp [ofTerms]

/-- Naming two terms is naming the list of the two. -/
theorem ofTerm_bind_two (f : Node → Node → NamingM β) : (ofTerm t >>= fun a => ofTerm u >>= fun b => f a b) =
    ofTerms [t, u] >>= fun ns => f (ns[0]?.getD default) (ns[1]?.getD default) := by
  simp [ofTerms]

/-- Naming three terms is naming the list of the three. -/
theorem ofTerm_bind_three (f : Node → Node → Node → NamingM β) :
    (ofTerm t >>= fun a => ofTerm u >>= fun b => ofTerm w >>= fun c => f a b c) =
      ofTerms [t, u, w] >>= fun ns => f (ns[0]?.getD default) (ns[1]?.getD default) (ns[2]?.getD default) := by
  simp [ofTerms]

end

/-- A term is named after its parts, and naming it then only adds names. -/
theorem ofTerm_eq (t : Term) :
    ∃ finish : List Node → NamingM Node, ofTerm t = ofTerms t.operands >>= finish ∧ ∀ ns, Grows (finish ns) := by
  cases t with
  | input | const => exact ⟨_, rfl, fun _ => Grows.pure _⟩
  | var name => exact ⟨fun _ => ofTerm (.var name), rfl, fun _ => (Grows.intern name).map _⟩
  | star => exact ⟨fun _ => ofTerm .star, rfl, fun _ => Grows.throw _⟩
  | get base key =>
    by_cases hstar : key = .star
    · subst hstar
      rw [ofTerm, ofTerm_bind]
      exact ⟨_, rfl, fun _ => (Grows.nameAfter _ _).map _⟩
    · rw [ofTerm, ofTerm_bind_two, Term.operands_get hstar]
      · exact ⟨_, rfl, fun _ => Grows.pure _⟩
      · exact hstar
  | pointwise op args | hint op args =>
    rw [ofTerm]
    exact ⟨_, rfl, fun _ => Grows.pure _⟩
  | keySet arg | reduce op arg | scan op arg =>
    rw [ofTerm, ofTerm_bind]
    exact ⟨_, rfl, fun _ => Grows.pure _⟩
  | group key value =>
    rw [ofTerm, ofTerm_bind_two]
    exact ⟨_, rfl, fun _ => updateBy_grows _ _ _⟩
  | update base key value =>
    rw [ofTerm, ofTerm_bind_three]
    exact ⟨_, rfl, fun _ => updateBy_grows _ _ _⟩

/-- Naming a list of terms only adds names, if naming each of them does. -/
theorem ofTerms_grows {ts : List Term} (h : ∀ t ∈ ts, Grows (ofTerm t)) : Grows (ofTerms ts) := by
  induction ts with
  | nil => exact Grows.pure _
  | cons t ts ih =>
    rw [List.forall_mem_cons] at h
    exact h.1.bind fun _ => (ih h.2).map _

/-- Naming a term only adds names, whether the term is rejected or not. -/
theorem ofTerm_grows (t : Term) : Grows (ofTerm t) := by
  obtain ⟨finish, ht, hfinish⟩ := ofTerm_eq t
  rw [ht]
  exact (ofTerms_grows fun u hu => ofTerm_grows u).bind hfinish
termination_by sizeOf t
decreasing_by exact Term.sizeOf_lt_of_mem_operands hu

end Node

/-! ## Naming one term after another -/

namespace Naming

/-- What is named once a term is named or rejected, after what was named before. -/
def record (N : Naming) (t : Term) : Naming := ((Node.ofTerm t).run.run N).2

/-- What is named once terms are named or rejected, one after another. -/
def recordAll (ts : List Term) : Naming := ts.foldl record {}

/-- Naming terms one after another only adds to what was named before. -/
theorem growsTo_foldl_record (N : Naming) (ts : List Term) : N.GrowsTo (ts.foldl record N) := by
  induction ts generalizing N with
  | nil => exact .refl N
  | cons t ts ih => exact (Node.ofTerm_grows t N).trans (ih (N.record t))

/-- What the first terms have named stays named when more terms follow. -/
theorem growsTo_recordAll_append (ts us : List Term) : (recordAll ts).GrowsTo (recordAll (ts ++ us)) := by
  rw [recordAll, recordAll, List.foldl_append]
  exact growsTo_foldl_record _ us

/-- Starting from nothing, no name is given twice. -/
theorem nodup_recordAll (ts : List Term) : (recordAll ts).table.names.Nodup :=
  (growsTo_foldl_record {} ts).nodup List.nodup_nil

end Naming

/-- Naming `t` after what is named in `N` comes to naming `u` after what is named in `M`: `u` is `t`, or is come to in a part of
`t` when the parts before it are named. -/
inductive ComesTo : Naming → Term → Naming → Term → Prop where
  | self {N : Naming} {t : Term} : ComesTo N t N t
  | operand {N L M : Naming} {t s u : Term} {before after : List Term} {ns : List Node} : t.operands = before ++ s :: after →
      (Node.ofTerms before).run.run N = (.ok ns, L) → ComesTo L s M u → ComesTo N t M u

namespace ComesTo

/-- The first part of a term is come to with nothing else named. -/
theorem first {N M : Naming} {t s u : Term} {after : List Term} (hoperands : t.operands = s :: after) (h : ComesTo N s M u) :
    ComesTo N t M u := by
  have hnone : (Node.ofTerms []).run.run N = (.ok [], N) := rfl
  have happend : t.operands = [] ++ s :: after := hoperands
  exact .operand happend hnone h

/-- What is come to in a part is come to in the whole. -/
theorem trans {N M L : Naming} {t u w : Term} (h : ComesTo N t M u) (h' : ComesTo M u L w) : ComesTo N t L w := by
  induction h with
  | self => exact h'
  | operand hoperands hbefore _ ih => exact .operand hoperands hbefore (ih h')

/-- What is come to in a term has no names but those of the term. -/
theorem names_subset {N M : Naming} {t u : Term} (h : ComesTo N t M u) : u.names ⊆ t.names := by
  induction h with
  | self => exact List.Subset.refl _
  | @operand N L M t s u before after ns hoperands _ _ ih =>
    have hs : s ∈ t.operands := by simp [hoperands]
    exact List.Subset.trans ih (Term.names_subset_of_mem_operands hs)

/-- What a part has named stays named. -/
theorem record_growsTo {N M : Naming} {t u : Term} (h : ComesTo N t M u) : (M.record u).GrowsTo (N.record t) := by
  induction h with
  | self => exact .refl _
  | @operand N L M t s u before after ns hoperands hbefore _ ih =>
    obtain ⟨finish, ht, hfinish⟩ := Node.ofTerm_eq t
    have hlist : (L.record s).GrowsTo ((Node.ofTerms t.operands).run.run N).2 := by
      have hrest : Grows (Node.ofTerms after) := Node.ofTerms_grows fun u _ => Node.ofTerm_grows u
      rw [hoperands, Node.ofTerms_append, NamingM.run_bind, hbefore]
      refine .trans ?_ (Grows.run_bind (fun _ => Grows.pure _) (Node.ofTerms (s :: after)) L)
      exact Grows.run_bind (fun _ => hrest.map _) (Node.ofTerm s) L
    refine ih.trans (hlist.trans ?_)
    rw [Naming.record, ht]
    exact Grows.run_bind hfinish _ N

/-- What is named when a part is come to, and what the part has named, stays named in the end. -/
theorem growsTo_recordAll {earlier : List Term} {M : Naming} {t u : Term} (h : ComesTo (Naming.recordAll earlier) t M u)
    (later : List Term) : (M.record u).GrowsTo (Naming.recordAll (earlier ++ t :: later)) := by
  rw [Naming.recordAll, List.foldl_append]
  exact h.record_growsTo.trans (Naming.growsTo_foldl_record _ later)

end ComesTo

/-- A run in two parts has a result if both have one. -/
theorem NamingM.ok_of_bind_ok {α β : Type} {m : NamingM α} {f : α → NamingM β} {N M : Naming} {b : β}
    (h : (m >>= f).run.run N = (.ok b, M)) : ∃ a L, m.run.run N = (.ok a, L) ∧ (f a).run.run L = (.ok b, M) := by
  rw [NamingM.run_bind] at h
  rcases hr : m.run.run N with ⟨r, L⟩
  rw [hr] at h
  cases r with
  | ok a => exact ⟨a, L, rfl, h⟩
  | error e => cases h

/-- Every part of a term that is not rejected is come to, and is not rejected either. -/
theorem ComesTo.of_operand {N M : Naming} {t u : Term} {n : Node} (h : (Node.ofTerm t).run.run N = (.ok n, M))
    (hu : u ∈ t.operands) : ∃ L K m, ComesTo N t L u ∧ (Node.ofTerm u).run.run L = (.ok m, K) := by
  obtain ⟨before, after, hoperands⟩ := List.append_of_mem hu
  obtain ⟨finish, ht, -⟩ := Node.ofTerm_eq t
  rw [ht, hoperands, Node.ofTerms_append] at h
  obtain ⟨_, _, hlist, -⟩ := NamingM.ok_of_bind_ok h
  obtain ⟨ns, L, hbefore, hrest⟩ := NamingM.ok_of_bind_ok hlist
  obtain ⟨_, _, hrest, -⟩ := NamingM.ok_of_bind_ok hrest
  rw [Node.ofTerms] at hrest
  obtain ⟨m, K, hm, -⟩ := NamingM.ok_of_bind_ok hrest
  exact ⟨L, K, m, .operand hoperands hbefore .self, hm⟩

/-- When terms are named one after another, `u` is named, as one of them or as a part of one, and becomes the node `n`. The
term that it is a part of may be rejected after that. -/
def Named (ts : List Term) (u : Term) (n : Node) : Prop :=
  ∃ earlier t later M L, ts = earlier ++ t :: later ∧ ComesTo (Naming.recordAll earlier) t M u ∧
    (Node.ofTerm u).run.run M = (.ok n, L)

namespace Named

variable {ts : List Term} {t u : Term} {n m : Node}

/-- A part reads as its node under the names that there are in the end. -/
theorem reads (h : Named ts u n) : Node.Reads (Naming.recordAll ts) u n := by
  obtain ⟨earlier, t, later, M, L, rfl, hcomes, hrun⟩ := h
  have hL : M.record u = L := by rw [Naming.record, hrun]
  rw [← hL] at hrun
  exact (reads_of_ofTerm hrun).2.mono (hcomes.growsTo_recordAll later).toExtends

/-- What has become a node has no names but those of one of the terms. -/
theorem names_subset (h : Named ts u n) : ∃ t ∈ ts, u.names ⊆ t.names := by
  obtain ⟨earlier, t, later, M, L, rfl, hcomes, -⟩ := h
  exact ⟨t, by simp, hcomes.names_subset⟩

/-- A part that has become a node has parts that have become nodes. -/
theorem operand (h : Named ts t n) (hu : u ∈ t.operands) : ∃ m, Named ts u m := by
  obtain ⟨earlier, s, later, M, L, hts, hcomes, hrun⟩ := h
  obtain ⟨L', K, m, hcomes', hm⟩ := ComesTo.of_operand hrun hu
  exact ⟨m, earlier, s, later, L', K, hts, hcomes.trans hcomes', hm⟩

/-- Those are the nodes that the parts read as. -/
theorem operand_of_reads (h : Named ts t n) (hu : u ∈ t.operands) (hm : Node.Reads (Naming.recordAll ts) u m) :
    Named ts u m := by
  obtain ⟨m', hm'⟩ := h.operand hu
  rwa [← hm'.reads.unique hm]

end Named

end StarQuery
