import StarQuery.Proofs.Naming.Fresh
import StarQuery.Proofs.Scope.Closure

/-!
# Queries without names of variables

Where no variable is named, every variable is drawn from a collection: it occurs as the key of a lookup in every part that it
occurs in (`Drawn.exists_lookup`), and all lookups of one variable are in one and the same collection (`Reads.source_unique`).
So whatever a variable of a part depends on occurs in the part as well (`Reads.of_subset_vars`).
-/

namespace StarQuery

namespace Node

/-! ## The direct dependences of a tree -/

/-- Recording a dependence adds no variable. -/
theorem length_addDependence (direct : List VarSet) (n : Node) : (addDependence direct n).length = direct.length := by
  unfold addDependence
  split
  · exact List.length_modify _ _ _
  · rfl

/-- There is an entry for every variable. -/
theorem length_directDependences (count : Nat) (root : Node) : (root.directDependences count).length = count := by
  have hfold : ∀ (ns : List Node) (direct : List VarSet), (ns.foldl addDependence direct).length = direct.length := by
    intro ns
    induction ns with
    | nil => exact fun _ => rfl
    | cons n ns ih => exact fun direct => (ih _).trans (length_addDependence direct n)
  rw [directDependences, hfold, List.length_replicate]

/-- A direct dependence that is known stays known. -/
theorem subset_addDependence (direct : List VarSet) (n : Node) (u : Var) :
    direct[u]?.getD ∅ ⊆ (addDependence direct n)[u]?.getD ∅ := by
  intro w hw
  unfold addDependence
  split
  · rw [List.getElem?_modify]
    cases hdirect : direct[u]? with
    | none =>
      rw [hdirect] at hw
      exact hw
    | some s =>
      rw [hdirect, Option.getD_some] at hw
      rw [Option.map_eq_map, Option.map_some, Option.getD_some]
      split
      · exact VarSet.mem_union.2 (.inl hw)
      · exact hw
  · exact hw

/-- A variable depends directly on the dimensions of a collection that it is looked up in. -/
theorem dims_subset_directDependences {count : Nat} {root base : Node} {i j : VarInfo} {u : Var} (hu : u < count)
    (h : Node.get i base (.var j u) ∈ root.postorder) : base.info.dims ⊆ (root.directDependences count)[u]?.getD ∅ := by
  have hkeep : ∀ (ns : List Node) (direct : List VarSet), direct[u]?.getD ∅ ⊆ (ns.foldl addDependence direct)[u]?.getD ∅ := by
    intro ns
    induction ns with
    | nil => exact fun _ _ hw => hw
    | cons n ns ih => exact fun direct w hw => ih _ w (subset_addDependence direct n u w hw)
  have hlookup : ∀ (ns : List Node) (direct : List VarSet), u < direct.length → Node.get i base (.var j u) ∈ ns →
      base.info.dims ⊆ (ns.foldl addDependence direct)[u]?.getD ∅ := by
    intro ns
    induction ns with
    | nil => exact fun _ _ hmem => absurd hmem List.not_mem_nil
    | cons n ns ih =>
      intro direct hlt hmem
      rcases List.mem_cons.1 hmem with rfl | hmem
      · intro w hw
        refine hkeep ns _ w ?_
        rw [addDependence, List.getElem?_modify_eq, List.getElem?_eq_getElem hlt]
        exact VarSet.mem_union.2 (.inr hw)
      · exact ih _ ((length_addDependence direct n).symm ▸ hlt) hmem
  exact hlookup _ _ (by rwa [List.length_replicate]) h

/-- A dependence is known already, or is a dimension of the collection that the node looks the variable up in. -/
theorem mem_addDependence {direct : List VarSet} {n : Node} {u w : Var} (hw : w ∈ (addDependence direct n)[u]?.getD ∅) :
    w ∈ direct[u]?.getD ∅ ∨ ∃ i base j, n = .get i base (.var j u) ∧ w ∈ base.info.dims := by
  unfold addDependence at hw
  split at hw
  · rename_i i base j v
    rw [List.getElem?_modify] at hw
    cases hdirect : direct[u]? with
    | none =>
      rw [hdirect] at hw
      exact .inl hw
    | some s =>
      rw [hdirect, Option.map_eq_map, Option.map_some, Option.getD_some] at hw
      split at hw
      · rename_i huv
        subst huv
        exact (VarSet.mem_union.1 hw).imp id fun hw => ⟨i, base, j, rfl, hw⟩
      · exact .inl hw
  · exact .inl hw

/-- A direct dependence is a dimension of a collection that the variable is looked up in. -/
theorem mem_directDependences {count : Nat} {root : Node} {u w : Var}
    (hw : w ∈ (root.directDependences count)[u]?.getD ∅) :
    ∃ i base j, Node.get i base (.var j u) ∈ root.postorder ∧ w ∈ base.info.dims := by
  have hfold : ∀ (ns : List Node) (direct : List VarSet), w ∈ (ns.foldl addDependence direct)[u]?.getD ∅ →
      w ∈ direct[u]?.getD ∅ ∨ ∃ i base j, Node.get i base (.var j u) ∈ ns ∧ w ∈ base.info.dims := by
    intro ns
    induction ns with
    | nil => exact fun _ hw => .inl hw
    | cons n ns ih =>
      intro direct hw
      rcases ih _ hw with hw | ⟨i, base, j, hmem, hw⟩
      · rcases mem_addDependence hw with hw | ⟨i, base, j, rfl, hdims⟩
        · exact .inl hw
        · exact .inr ⟨i, base, j, List.mem_cons_self, hdims⟩
      · exact .inr ⟨i, base, j, List.mem_cons_of_mem n hmem, hw⟩
  rcases hfold _ _ hw with hw | hw
  · rw [List.getElem?_replicate] at hw
    split at hw
    · exact absurd hw (VarSet.not_mem_empty w)
    · exact absurd hw (VarSet.not_mem_empty w)
  · exact hw

/-! ## Drawn trees -/

/-- A measured tree in which every variable is the key of a lookup, or of an update by a computed key. -/
inductive Drawn : Node → Prop where
  | joint {n : Node} : n.isJoint = true → (∀ c ∈ n.children, Drawn c) → Drawn n.settleExtent
  /-- A variable that is drawn from a collection. -/
  | draw {base : Node} {v : Var} : Drawn base → Drawn (Node.get {} base (measuredVar v)).settleExtent
  | reduce {op : Reducer} {mode : Mode} {arg : Node} : Drawn arg → Drawn (Node.reduce {} op mode arg).settleExtent
  | scan {op : Reducer} {mode : Mode} {arg : Node} : Drawn arg → Drawn (Node.scan {} op mode arg).settleExtent
  | keyed {base body value : Node} {v : Var} : Drawn base → Drawn body → Drawn value → ¬ v ∈ body.info.vars →
      Drawn (Node.update {} base (measuredVar v) value (some (measuredFilter body v))).settleExtent

namespace Drawn

/-- Drawn trees are measured. -/
theorem measured {n : Node} (h : Drawn n) : Measured n := by
  induction h with
  | joint hjoint _ ih => exact .joint hjoint ih
  | @draw base v _ ih =>
    refine .joint rfl fun c hc => ?_
    rcases mem_children_get.1 hc with rfl | rfl
    · exact ih
    · exact .var v
  | reduce _ ih => exact ih.reduce
  | scan _ ih => exact ih.scan
  | keyed _ _ _ hv hbase hbody hvalue => exact .keyed hbase hbody hvalue hv

/-- A variable alone is not drawn. -/
theorem asVar?_eq {n : Node} (h : Drawn n) : n.asVar? = none := by
  cases h with
  | @joint n hjoint _ =>
    cases n with
    | var => cases hjoint
    | _ => rfl
  | _ => rfl

/-- The set of one value is drawn if the value is. -/
theorem keySet {body : Node} (h : Drawn body) : Drawn (Node.keySet {} body).settleExtent :=
  .joint rfl fun _ hc => List.mem_singleton.1 hc ▸ h

/-- Gathering a value leaves the tree drawn. -/
theorem gathered {t : Term} {n : Node} (h : Drawn n.withExtents) : Drawn (Node.gathered t n).withExtents := by
  unfold Node.gathered
  split
  · exact h
  · exact h.reduce

end Drawn

/-- A term that reads as a variable names it. -/
theorem Reads.names_ne_nil {N : Naming} {t : Term} {i : VarInfo} {v : Var} (h : Reads N t (.var i v)) : t.names ≠ [] := by
  cases h with
  | var => exact List.cons_ne_nil _ _
  | group h => cases h

/-- The bottom-up pass leaves the node of a term drawn, if the term names no variable. -/
theorem Reads.drawn {N : Naming} {t : Term} {n : Node} (h : Reads N t n) (hnames : t.names = []) : Drawn n.withExtents := by
  induction h with
  | input | const => exact .joint rfl fun c hc => absurd hc List.not_mem_nil
  | var => cases hnames
  | draw _ _ ih => exact .draw (ih (List.append_eq_nil_iff.1 hnames).1)
  | get _ _ hbase hkey =>
    obtain ⟨hb, hk⟩ := List.append_eq_nil_iff.1 hnames
    refine .joint rfl fun c hc => ?_
    rcases mem_children_get.1 hc with rfl | rfl
    · exact hbase hb
    · exact hkey hk
  | @pointwise op args ns hlen _ ih | @hint op args ns hlen _ ih =>
    refine .joint rfl fun c hc => ?_
    simp only [children, listWithExtents_eq, List.mem_map] at hc
    obtain ⟨m, hm, rfl⟩ := hc
    obtain ⟨t, ht, hzip⟩ := mem_zip_of_mem_right hlen hm
    rw [Term.names, Term.listNames_eq, List.flatMap_eq_nil_iff] at hnames
    exact ih _ hzip (hnames t ht)
  | keySet _ ih => exact .joint rfl fun c hc => List.mem_singleton.1 hc ▸ ih hnames
  | reduce _ ih => exact (ih hnames).reduce
  | scan _ ih => exact (ih hnames).scan
  | group _ ih => exact ih hnames
  | named _ hkey _ =>
    simp only [Term.names, List.append_eq_nil_iff] at hnames
    exact absurd hnames.1.2 hkey.names_ne_nil
  | keyed _ hread _ _ hv hbase hkey hvalue =>
    simp only [Term.names, List.append_eq_nil_iff] at hnames
    refine .keyed (hbase hnames.1.1) (hkey hnames.1.2) (hvalue hnames.2).gathered ?_
    rw [mem_vars_withExtents]
    exact hread.fresh (by simp [hnames.1.2]) hv

/-- A variable of a node is the node or a variable of a part. -/
theorem mem_vars_settleExtent {n : Node} {v : Var} (hn : n.asVar? = none) (hv : v ∈ n.settleExtent.info.vars) :
    ∃ c ∈ n.children, v ∈ c.info.vars := by
  cases n with
  | var => cases hn
  | update i base key value filter =>
    rw [settleExtent, info_setInfo, extent, VarSet.mem_unions_map] at hv
    exact hv
  | reduce i op mode arg | scan i op mode arg => exact ⟨arg, List.mem_cons_self, hv⟩
  | _ =>
    rw [info_settleExtent_joint rfl, jointExtent, VarSet.mem_unions_map] at hv
    exact hv

/-- A variable of a drawn tree is looked up in it. -/
theorem Drawn.exists_lookup {n : Node} (h : Drawn n) {v : Var} (hv : v ∈ n.info.vars) :
    ∃ i base j, Node.get i base (.var j v) ∈ n.postorder := by
  have hpart : ∀ {m c : Node}, c ∈ m.children → (∃ i base j, Node.get i base (.var j v) ∈ c.postorder) →
      ∃ i base j, Node.get i base (.var j v) ∈ m.settleExtent.postorder := by
    rintro m c hc ⟨i, base, j, hmem⟩
    exact ⟨i, base, j, mem_postorder_of_mem_children (by rwa [children_settleExtent]) hmem⟩
  induction h with
  | @joint m hjoint hparts ih =>
    have hvar := (Drawn.joint hjoint hparts).asVar?_eq
    rw [settleExtent, asVar?_setInfo] at hvar
    obtain ⟨c, hc, hcv⟩ := mem_vars_settleExtent hvar hv
    exact hpart hc (ih c hc hcv)
  | @draw base w _ ih =>
    obtain ⟨c, hc, hcv⟩ := mem_vars_settleExtent rfl hv
    rcases mem_children_get.1 hc with rfl | rfl
    · exact hpart hc (ih hcv)
    · cases VarSet.mem_single.1 hcv
      exact ⟨_, base, _, self_mem_postorder _⟩
  | reduce _ ih => exact hpart List.mem_cons_self (ih hv)
  | scan _ ih => exact hpart List.mem_cons_self (ih hv)
  | @keyed base body value w _ _ _ _ hbase hbody hvalue =>
    have hfilter : ∀ {u : Var}, u = w → ∃ i b j, Node.get i b (.var j u) ∈ (measuredFilter body w).postorder := by
      rintro u rfl
      exact ⟨_, _, _, self_mem_postorder _⟩
    have hmem : measuredFilter body w ∈
        (Node.update {} base (measuredVar w) value (some (measuredFilter body w))).children :=
      filter_mem_children
    obtain ⟨c, hc, hcv⟩ := mem_vars_settleExtent rfl hv
    rcases mem_children_update.1 hc with rfl | rfl | rfl | hc'
    · exact hpart hc (hbase hcv)
    · exact hpart hmem (hfilter (VarSet.mem_single.1 hcv))
    · exact hpart hc (hvalue hcv)
    · cases hc'
      rcases mem_vars_measuredFilter.1 hcv with hcv | rfl
      · obtain ⟨i, b, j, hb⟩ := hbody hcv
        have hset : body ∈ (measuredFilter body w).postorder :=
          mem_postorder_of_part (mem_postorder_of_part (self_mem_postorder _) (mem_children_get.2 (.inl rfl)))
            List.mem_cons_self
        exact hpart hmem ⟨i, b, j, mem_postorder_trans hb hset⟩
      · exact hpart hmem (hfilter rfl)

/-! ## One collection for each variable -/

/-- The collection that a variable is named after. -/
inductive Source (N : Naming) (base : Node) (v : Var) : Prop where
  | drawn {t : Term} : Reads N t base → N.NamedAfter 'D' t.fingerprint v → Source N base v
  | keyed : N.NamedAfter 'K' base.fingerprint v → Source N base v

/-- A variable is named after one collection only. -/
theorem Source.unique {N : Naming} {base base' : Node} {v : Var} (h : Source N base v) (h' : Source N base' v) :
    base = base' := by
  cases h with
  | drawn hread hv =>
    cases h' with
    | drawn hread' hv' =>
      cases Term.fingerprint_inj (hv.inj hv').2
      exact hread.unique hread'
    | keyed hv' => exact absurd (hv.inj hv').1 (by decide)
  | keyed hv =>
    cases h' with
    | drawn _ hv' => exact absurd (hv.inj hv').1 (by decide)
    | keyed hv' => exact fingerprint_inj (hv.inj hv').2

/-- In a term that names no variable, variables are looked up in the collections that they are named after. -/
theorem Reads.source {N : Naming} {t : Term} {n : Node} (h : Reads N t n) (hnames : t.names = []) {i j : VarInfo}
    {base : Node} {v : Var} (hm : Node.get i base (.var j v) ∈ n.postorder) : Source N base v := by
  have hgathered : ∀ {t : Term} {x : Node}, Node.get i base (.var j v) ∈ (gathered t x).postorder →
      Node.get i base (.var j v) ∈ x.postorder := by
    intro t x hx
    unfold gathered at hx
    split at hx
    · exact hx
    · rcases mem_postorder.1 hx with hx | ⟨c, hc, hx⟩
      · cases hx
      · rwa [List.mem_singleton.1 hc] at hx
  induction h with
  | input | const | var => cases List.mem_singleton.1 hm
  | draw hread hv ih =>
    rcases mem_postorder.1 hm with heq | ⟨c, hc, hmc⟩
    · cases heq
      exact .drawn hread hv
    · rcases mem_children_get.1 hc with rfl | rfl
      · exact ih (List.append_eq_nil_iff.1 hnames).1 hmc
      · cases List.mem_singleton.1 hmc
  | get _ hread hbase hkey =>
    obtain ⟨hb, hk⟩ := List.append_eq_nil_iff.1 hnames
    rcases mem_postorder.1 hm with heq | ⟨c, hc, hmc⟩
    · cases heq
      exact absurd hk hread.names_ne_nil
    · rcases mem_children_get.1 hc with rfl | rfl
      · exact hbase hb hmc
      · exact hkey hk hmc
  | @pointwise op args ns hlen _ ih | @hint op args ns hlen _ ih =>
    rcases mem_postorder.1 hm with heq | ⟨c, hc, hmc⟩
    · cases heq
    · obtain ⟨t, ht, hzip⟩ := mem_zip_of_mem_right hlen hc
      rw [Term.names, Term.listNames_eq, List.flatMap_eq_nil_iff] at hnames
      exact ih _ hzip (hnames t ht) hmc
  | keySet _ ih | reduce _ ih | scan _ ih =>
    rcases mem_postorder.1 hm with heq | ⟨c, hc, hmc⟩
    · cases heq
    · rw [List.mem_singleton.1 hc] at hmc
      exact ih hnames hmc
  | group _ ih => exact ih hnames hm
  | named _ _ _ hbase hkey hvalue =>
    simp only [Term.names, List.append_eq_nil_iff] at hnames
    rcases mem_postorder.1 hm with heq | ⟨c, hc, hmc⟩
    · cases heq
    · rcases mem_children_update.1 hc with rfl | rfl | rfl | hc
      · exact hbase hnames.1.1 hmc
      · exact hkey hnames.1.2 hmc
      · exact hvalue hnames.2 (hgathered hmc)
      · cases hc
  | keyed _ _ _ _ hv hbase hkey hvalue =>
    simp only [Term.names, List.append_eq_nil_iff] at hnames
    rcases mem_postorder.1 hm with heq | ⟨c, hc, hmc⟩
    · cases heq
    · rcases mem_children_update.1 hc with rfl | rfl | rfl | hc
      · exact hbase hnames.1.1 hmc
      · cases List.mem_singleton.1 hmc
      · exact hvalue hnames.2 (hgathered hmc)
      · cases hc
        rcases mem_postorder.1 hmc with heq | ⟨c, hc, hmf⟩
        · cases heq
          exact .keyed hv
        · rcases mem_children_get.1 hc with rfl | rfl
          · rcases mem_postorder.1 hmf with heq | ⟨c, hc, hms⟩
            · cases heq
            · rw [List.mem_singleton.1 hc] at hms
              exact hkey hnames.1.2 hms
          · cases List.mem_singleton.1 hmf

/-- The parts after the bottom-up pass are the parts before it, each after the pass. -/
theorem children_withExtents (n : Node) : n.withExtents.children = n.children.map withExtents := by
  cases n with
  | update i base key value filter =>
    rw [withExtents, children_settleExtent]
    cases filter <;> simp [children]
  | _ =>
    rw [withExtents, children_settleExtent]
    simp [children]

/-- The nodes after the bottom-up pass are those before it, each after the pass. -/
theorem mem_postorder_withExtents {m n : Node} (h : m ∈ n.withExtents.postorder) : ∃ x ∈ n.postorder, m = x.withExtents := by
  induction n using inductParts with
  | step n ih =>
    rcases mem_postorder.1 h with rfl | ⟨c, hc, hm⟩
    · exact ⟨n, self_mem_postorder n, rfl⟩
    · rw [children_withExtents] at hc
      obtain ⟨part, hpart, rfl⟩ := List.mem_map.1 hc
      obtain ⟨x, hx, rfl⟩ := ih part hpart hm
      exact ⟨x, mem_postorder_of_mem_children hpart hx, rfl⟩

/-- Where no variable is named, every lookup of a variable after the bottom-up pass is in the same collection. -/
theorem Reads.source_unique {N : Naming} {t : Term} {n : Node} (h : Reads N t n) (hnames : t.names = [])
    {i i' j j' : VarInfo} {base base' : Node} {v : Var} (hm : Node.get i base (.var j v) ∈ n.withExtents.postorder)
    (hm' : Node.get i' base' (.var j' v) ∈ n.withExtents.postorder) : base = base' := by
  have hsource : ∀ {i j : VarInfo} {base : Node}, Node.get i base (.var j v) ∈ n.withExtents.postorder →
      ∃ b, base = b.withExtents ∧ Source N b v := by
    intro i j base hm
    obtain ⟨x, hx, heq⟩ := mem_postorder_withExtents hm
    cases x with
    | get k b key =>
      cases key with
      | var l w =>
        cases heq
        exact ⟨b, rfl, h.source hnames hx⟩
      | _ => cases heq
    | _ => cases heq
  obtain ⟨b, rfl, hb⟩ := hsource hm
  obtain ⟨b', rfl, hb'⟩ := hsource hm'
  rw [hb.unique hb']

/-- Where no variable is named, what a variable of a drawn part depends on occurs in the part. -/
theorem Reads.of_subset_vars {N : Naming} {t : Term} {n : Node} (h : Reads N t n) (hnames : t.names = []) {m : Node}
    (hm : m ∈ n.withExtents.postorder) (hd : Drawn m) {v : Var} (hv : v ∈ m.info.vars) :
    (n.withExtents.dependencies N.table).of v ⊆ m.info.vars := by
  refine Dependencies.of_ofDirect_subset (fun u hu w hw => ?_) hv
  obtain ⟨i, base, j, hlookup, hdims⟩ := mem_directDependences hw
  obtain ⟨i', base', j', hlookup'⟩ := hd.exists_lookup hu
  cases h.source_unique hnames hlookup (mem_postorder_trans hlookup' hm)
  have hbase : base ∈ m.postorder := mem_postorder_of_part hlookup' (mem_children_get.2 (.inl rfl))
  exact hd.measured.vars_subset hbase w ((hd.measured.mem_postorder hbase).dims_subset_vars w hdims)

end Node

end StarQuery
