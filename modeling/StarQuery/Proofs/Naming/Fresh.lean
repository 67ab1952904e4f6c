import Mathlib.Data.List.Flatten
import Mathlib.Data.List.Zip
import StarQuery.Proofs.Naming.Reads
import StarQuery.Proofs.Scope.Measured

/-!
# A computed key is new to what it is computed from

A variable in the node of a term is named in the term, or after a collection, or after a set of one value; in the last case
the set is in the node (`Reads.origin`). A key that is computed is named after the set of its own value, which would have to be
a part of itself if the key occurred in it. So the bottom-up pass leaves the node of a term measured (`Reads.measured`).
-/

namespace StarQuery

namespace Node

/-! ## The variables of a node -/

/-- The variable `v` is a node of the tree. -/
def Holds (n : Node) (v : Var) : Prop := ∃ m ∈ n.postorder, m.asVar? = some v

/-- A tree holds a variable if it is the variable, or one of its parts holds it. -/
theorem holds_iff {n : Node} {v : Var} : n.Holds v ↔ n.asVar? = some v ∨ ∃ c ∈ n.children, c.Holds v := by
  constructor
  · rintro ⟨m, hm, hv⟩
    rcases mem_postorder.1 hm with rfl | ⟨c, hc, hm⟩
    · exact .inl hv
    · exact .inr ⟨c, hc, m, hm, hv⟩
  · rintro (hv | ⟨c, hc, m, hm, hv⟩)
    · exact ⟨n, self_mem_postorder n, hv⟩
    · exact ⟨m, mem_postorder_of_mem_children hc hm, hv⟩

/-- A variable holds itself only. -/
theorem holds_var {i : VarInfo} {v w : Var} : (Node.var i w).Holds v ↔ v = w := by
  rw [holds_iff]
  simp [asVar?, children, eq_comm]

/-- The variables that the bottom-up pass finds are those that the tree holds. -/
theorem mem_vars_withExtents {n : Node} {v : Var} : v ∈ n.withExtents.info.vars ↔ n.Holds v := by
  induction n using Node.induct with
  | input | const =>
    rw [holds_iff]
    simp [withExtents, settleExtent, extent, asVar?, children]
  | var i w => rw [holds_var, withExtents, settleExtent, info_setInfo, extent, VarSet.mem_single]
  | get i base key hbase hkey =>
    rw [holds_iff]
    simp [withExtents, settleExtent, extent, jointExtent, asVar?, children, hbase, hkey]
  | pointwise i op args ih | hint i op args ih =>
    rw [holds_iff, withExtents, settleExtent, info_setInfo, extent, jointExtent, listWithExtents_eq, VarSet.mem_unions_map]
    simp only [List.mem_map, exists_exists_and_eq_and, asVar?, reduceCtorEq, children, false_or]
    exact exists_congr fun c => and_congr_right (ih c)
  | keySet i arg ih | reduce i op mode arg ih | scan i op mode arg ih =>
    rw [holds_iff]
    simp [withExtents, settleExtent, extent, jointExtent, reducedExtent, asVar?, children, ih]
  | update i base key value filter hbase hkey hvalue hfilter =>
    rw [holds_iff]
    cases filter with
    | none =>
      simp [withExtents, settleExtent, extent, asVar?, children, hbase, hkey, hvalue]
    | some f =>
      simp [withExtents, settleExtent, extent, asVar?, children, hbase, hkey, hvalue, hfilter f rfl]

/-- Gathering a value into an array brings in no variable. -/
theorem holds_gathered {t : Term} {n : Node} {v : Var} : (gathered t n).Holds v ↔ n.Holds v := by
  unfold gathered
  split
  · rfl
  · rw [holds_iff]
    simp [asVar?, children]

/-- What is in a value is in what gathers it. -/
theorem mem_postorder_gathered {t : Term} {m n : Node} (h : m ∈ n.postorder) : m ∈ (gathered t n).postorder := by
  unfold gathered
  split
  · exact h
  · exact mem_postorder_of_mem_children List.mem_cons_self h

/-- No tree is a part of one of its own parts. -/
theorem length_postorder_le {m n : Node} (h : m ∈ n.postorder) : m.postorder.length ≤ n.postorder.length := by
  induction n using inductParts with
  | step n ih =>
    rcases mem_postorder.1 h with rfl | ⟨c, hc, hm⟩
    · exact Nat.le_refl _
    · refine (ih c hc hm).trans ?_
      rw [postorder_eq n, List.length_append]
      have hsub := ((List.singleton_sublist.2 hc).flatMap postorder).length_le
      simp only [List.flatMap_singleton] at hsub
      omega

/-- The set of one value is no part of the value. -/
theorem not_mem_postorder_keySet {i : VarInfo} {n : Node} : ¬ Node.keySet i n ∈ n.postorder := by
  intro h
  have hle := length_postorder_le h
  rw [postorder_eq (.keySet i n)] at hle
  simp [children] at hle

/-! ## Where a variable comes from -/

/-- Where a variable of a node comes from: it is one of the names of the term, or named after a collection, or after a set of
one value that is a part of the node. -/
inductive Origin (N : Naming) (names : List String) (n : Node) (v : Var) : Prop where
  | named {name : String} : name ∈ names → N.table.lookup? name = some v → Origin N names n v
  | drawn {key : String} : N.NamedAfter 'D' key v → Origin N names n v
  | keyed {body : Node} : Node.keySet {} body ∈ n.postorder → N.NamedAfter 'K' (Node.keySet {} body).fingerprint v →
      Origin N names n v

/-- The origin of a variable in a part is its origin in the whole. -/
theorem Origin.lift {N : Naming} {names names' : List String} {n n' : Node} {v : Var} (h : Origin N names n v)
    (hnames : names ⊆ names') (hn : ∀ m ∈ n.postorder, m ∈ n'.postorder) : Origin N names' n' v := by
  cases h with
  | named hname hv => exact .named (hnames hname) hv
  | drawn hv => exact .drawn hv
  | keyed hbody hv => exact .keyed (hn _ hbody) hv

/-- A variable of a part comes from where it comes from in the part. -/
theorem Origin.ofPart {N : Naming} {names names' : List String} {c n : Node} {v : Var} (h : Origin N names c v)
    (hnames : names ⊆ names') (hc : c ∈ n.children) : Origin N names' n v :=
  h.lift hnames fun _ hm => mem_postorder_of_mem_children hc hm

/-- A variable of a value comes from where it comes from before the value is gathered. -/
theorem Origin.ofValue {N : Naming} {names names' : List String} {t : Term} {x n : Node} {v : Var} (h : Origin N names x v)
    (hnames : names ⊆ names') (hc : gathered t x ∈ n.children) : Origin N names' n v :=
  h.lift hnames fun _ hm => mem_postorder_of_mem_children hc (mem_postorder_gathered hm)

/-- Every member of the second of two lists of one length stands with a member of the first. -/
theorem mem_zip_of_mem_right {α β : Type} {xs : List α} {ys : List β} (hlen : xs.length = ys.length) {y : β} (hy : y ∈ ys) :
    ∃ x ∈ xs, (x, y) ∈ xs.zip ys := by
  obtain ⟨i, hi, rfl⟩ := List.getElem_of_mem hy
  refine ⟨xs[i], List.getElem_mem _, ?_⟩
  rw [← List.getElem_zip (h := by rw [List.length_zip]; omega)]
  exact List.getElem_mem _

/-- Every member of the first of two lists of one length stands with a member of the second. -/
theorem mem_zip_of_mem_left {α β : Type} {xs : List α} {ys : List β} (hlen : xs.length = ys.length) {x : α} (hx : x ∈ xs) :
    ∃ y ∈ ys, (x, y) ∈ xs.zip ys := by
  obtain ⟨y, hy, hzip⟩ := mem_zip_of_mem_right hlen.symm hx
  refine ⟨y, hy, ?_⟩
  rw [← List.zip_swap]
  exact List.mem_map.2 ⟨(y, x), hzip, rfl⟩

/-- Every variable of the node of a term has such an origin. -/
theorem Reads.origin {N : Naming} {t : Term} {n : Node} (h : Reads N t n) {v : Var} (hv : n.Holds v) :
    Origin N t.names n v := by
  induction h with
  | input | const =>
    rw [holds_iff] at hv
    simp [asVar?, children] at hv
  | var hname => exact .named List.mem_cons_self (holds_var.1 hv ▸ hname)
  | @draw base b w _ hw ih =>
    rcases holds_iff.1 hv with h | ⟨c, hc, hcv⟩
    · cases h
    · simp only [children, List.mem_cons, List.not_mem_nil, or_false] at hc
      rcases hc with rfl | rfl
      · exact (ih hcv).ofPart (List.subset_append_left _ _) List.mem_cons_self
      · exact .drawn (holds_var.1 hcv ▸ hw)
  | get _ _ hbase hkey =>
    rcases holds_iff.1 hv with h | ⟨c, hc, hcv⟩
    · cases h
    · have hc' := hc
      simp only [children, List.mem_cons, List.not_mem_nil, or_false] at hc'
      rcases hc' with rfl | rfl
      · exact (hbase hcv).ofPart (List.subset_append_left _ _) hc
      · exact (hkey hcv).ofPart (List.subset_append_right _ _) hc
  | @pointwise op args ns hlen _ ih | @hint op args ns hlen _ ih =>
    rcases holds_iff.1 hv with h | ⟨c, hc, hcv⟩
    · cases h
    · obtain ⟨t, ht, hzip⟩ := mem_zip_of_mem_right hlen hc
      refine (ih _ hzip hcv).ofPart (fun name hname => ?_) hc
      rw [Term.names, Term.listNames_eq]
      exact List.mem_flatMap.2 ⟨t, ht, hname⟩
  | keySet _ ih | reduce _ ih | scan _ ih =>
    rcases holds_iff.1 hv with h | ⟨c, hc, hcv⟩
    · cases h
    · rw [List.mem_singleton.1 hc] at hcv
      exact (ih hcv).ofPart (List.Subset.refl _) List.mem_cons_self
  | group _ ih => exact ih hv
  | @named base key value b x w _ _ _ hbase hkey hvalue =>
    rcases holds_iff.1 hv with h | ⟨c, hc, hcv⟩
    · cases h
    · have hc' := hc
      simp only [children, Option.toList, List.append_nil, List.mem_cons, List.not_mem_nil, or_false] at hc'
      rcases hc' with rfl | rfl | rfl
      · exact (hbase hcv).ofPart (by simp [Term.names]) hc
      · exact (hkey hcv).ofPart (by simp [Term.names]) hc
      · exact (hvalue (holds_gathered.1 hcv)).ofValue (by simp [Term.names]) hc
  | @keyed base key value b k x w _ _ _ _ hw hbase hkey hvalue =>
    have hset : ∀ {n : Node}, Node.get {} (Node.keySet {} k) (.var {} w) ∈ n.children →
        Node.keySet {} k ∈ n.postorder := fun hf =>
      mem_postorder_of_mem_children hf (mem_postorder_of_mem_children List.mem_cons_self (self_mem_postorder _))
    rcases holds_iff.1 hv with h | ⟨c, hc, hcv⟩
    · cases h
    · have hc' := hc
      simp only [children, Option.toList, List.cons_append, List.nil_append, List.mem_cons, List.not_mem_nil,
        or_false] at hc'
      rcases hc' with rfl | rfl | rfl | rfl
      · exact (hbase hcv).ofPart (by simp [Term.names]) hc
      · exact .keyed (hset (by simp [children])) (holds_var.1 hcv ▸ hw)
      · exact (hvalue (holds_gathered.1 hcv)).ofValue (by simp [Term.names]) hc
      · rcases holds_iff.1 hcv with h | ⟨c', hc', hcv'⟩
        · cases h
        · simp only [children, List.mem_cons, List.not_mem_nil, or_false] at hc'
          rcases hc' with rfl | rfl
          · rcases holds_iff.1 hcv' with h | ⟨c', hc', hk⟩
            · cases h
            · rw [List.mem_singleton.1 hc'] at hk
              refine (hkey hk).lift (by simp [Term.names]) fun m hm => mem_postorder_of_mem_children hc ?_
              exact mem_postorder_of_mem_children List.mem_cons_self (mem_postorder_of_mem_children List.mem_cons_self hm)
          · exact .keyed (hset hc) (holds_var.1 hcv' ▸ hw)

/-- A computed key does not occur in what it is computed from. -/
theorem Reads.fresh {N : Naming} {t : Term} {n : Node} (h : Reads N t n) (hnames : ∀ x ∈ t.names, Term.IsVariable x)
    {v : Var} (hv : N.NamedAfter 'K' (Node.keySet {} n).fingerprint v) : ¬ n.Holds v := by
  intro hheld
  cases h.origin hheld with
  | named hname hlookup => exact hv.not_isVariable (by decide) hlookup (hnames _ hname)
  | drawn hdrawn => exact absurd (hdrawn.inj hv).1 (by decide)
  | keyed hbody hkeyed =>
    have hsame := fingerprint_inj (hkeyed.inj hv).2
    rw [hsame] at hbody
    exact not_mem_postorder_keySet hbody

/-- Gathering a value leaves the tree measured. -/
theorem Measured.gathered {t : Term} {n : Node} (h : Measured n.withExtents) : Measured (Node.gathered t n).withExtents := by
  unfold Node.gathered
  split
  · exact h
  · exact h.reduce

/-- The bottom-up pass leaves the node of a term measured. -/
theorem Reads.measured {N : Naming} {t : Term} {n : Node} (h : Reads N t n) (hnames : ∀ x ∈ t.names, Term.IsVariable x) :
    Measured n.withExtents := by
  have htwo : ∀ {a b : Node}, Measured a → Measured b → ∀ c ∈ [a, b], Measured c := by
    intro a b ha hb c hc
    simp only [List.mem_cons, List.not_mem_nil, or_false] at hc
    exact hc.elim (· ▸ ha) (· ▸ hb)
  induction h with
  | input | const => exact .joint rfl fun c hc => absurd hc List.not_mem_nil
  | var => exact .var _
  | draw _ _ ih => exact .joint rfl (htwo (ih fun x hx => hnames x (List.mem_append_left _ hx)) (.var _))
  | get _ _ hbase hkey =>
    exact .joint rfl (htwo (hbase fun x hx => hnames x (List.mem_append_left _ hx))
      (hkey fun x hx => hnames x (List.mem_append_right _ hx)))
  | @pointwise op args ns hlen _ ih | @hint op args ns hlen _ ih =>
    refine .joint rfl fun c hc => ?_
    simp only [children, listWithExtents_eq, List.mem_map] at hc
    obtain ⟨m, hm, rfl⟩ := hc
    obtain ⟨t, ht, hzip⟩ := mem_zip_of_mem_right hlen hm
    refine ih _ hzip fun x hx => hnames x ?_
    rw [Term.names, Term.listNames_eq]
    exact List.mem_flatMap.2 ⟨t, ht, hx⟩
  | keySet _ ih => exact .joint rfl fun c hc => (List.mem_singleton.1 hc) ▸ ih hnames
  | reduce _ ih => exact (ih hnames).reduce
  | scan _ ih => exact (ih hnames).scan
  | group _ ih => exact ih hnames
  | named _ _ _ hbase _ hvalue =>
    exact .named (hbase fun x hx => hnames x (by simp [Term.names, hx]))
      (.gathered (hvalue fun x hx => hnames x (by simp [Term.names, hx])))
  | keyed _ hkey _ _ hv hbase ihkey hvalue =>
    refine .keyed (hbase fun x hx => hnames x (by simp [Term.names, hx]))
      (ihkey fun x hx => hnames x (by simp [Term.names, hx]))
      (.gathered (hvalue fun x hx => hnames x (by simp [Term.names, hx]))) ?_
    rw [mem_vars_withExtents]
    exact hkey.fresh (fun x hx => hnames x (by simp [Term.names, hx])) hv

end Node

end StarQuery
