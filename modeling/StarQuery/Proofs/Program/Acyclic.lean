import StarQuery.Proofs.Plan.Chain
import StarQuery.Proofs.Program.Depth
import StarQuery.Proofs.Program.Ends

/-!
# Aggregates that do not go round in circles

An aggregate uses those that stand in its own parts or in the sources that its loops may draw from (`Uses`). What its block needs is
among them (`Needs.uses`). If no aggregate that is reached from the root uses itself at any distance, the number of aggregates that
it uses is a rank that goes down along uses, and the depth of generation is enough (`exists_generate_of_acyclic`). Where no source
holds an aggregate this is so for every tree, since an aggregate then uses parts of its own only (`acyclic_of_sources`).
-/

namespace StarQuery

namespace Program

open Relation

variable {s : Setting} {root : Node}

/-! ## Uses -/

/-- The parts that an aggregate is computed from. -/
def ownNodes : Node → List Node
  | .reduce _ _ _ arg | .scan _ _ _ arg => [arg]
  | .update _ base key value _ => [base, key, value]
  | _ => []

/-- One aggregate uses another: it stands, not below a further aggregate or a hint, in a part of the first, or in the source of a
generator of a variable that the loops of the first may need. -/
def Uses (s : Setting) (a b : Node) : Prop :=
  (∃ part ∈ ownNodes a, b ∈ readsOf part) ∨
    ∃ g ∈ s.generators, g.var ∈ Generator.closure s.generators (a.info.free ∪ a.info.bound) ∧ b ∈ readsOf g.source

/-- An aggregate is reached from a tree: the tree reads it, or it is used, at some distance, by one that the tree reads. -/
def Reached (s : Setting) (root b : Node) : Prop := ∃ a ∈ readsOf root, ReflTransGen (Uses s) a b

/-- No aggregate that is reached uses itself, at any distance. -/
def Acyclic (s : Setting) (root : Node) : Prop := ∀ b, Reached s root b → ¬ TransGen (Uses s) b b

/-- A key reads what its parts read. -/
theorem mem_readsOf_of_mem_keyNodes {key c m : Node} (hc : c ∈ keyNodes key) (hm : m ∈ readsOf c) : m ∈ readsOf key := by
  unfold keyNodes at hc
  split at hc
  · rw [readsOf, listReadsOf_eq]
    exact List.mem_flatMap.2 ⟨c, hc, hm⟩
  · rwa [← List.mem_singleton.1 hc]

/-- What the parts of an aggregate read that its block holds, the parts that it is computed from read. -/
theorem exists_ownNodes {n c m : Node} (hc : c ∈ firstNodes n ++ actionNodes n) (hm : m ∈ readsOf c) :
    ∃ part ∈ ownNodes n, m ∈ readsOf part := by
  cases n with
  | reduce | scan => exact ⟨c, hc, hm⟩
  | update i base key value filter =>
    simp only [firstNodes, actionNodes, List.mem_append, List.mem_singleton] at hc
    rcases hc with rfl | hc | rfl
    · exact ⟨c, by simp [ownNodes], hm⟩
    · exact ⟨key, by simp [ownNodes], mem_readsOf_of_mem_keyNodes hc hm⟩
    · exact ⟨c, by simp [ownNodes], hm⟩
  | _ => cases hc

/-- The loops of a nest draw from sources of generators of the variables that are needed. -/
theorem exists_generator_of_mem_nestNodes {vars : VarSet} {c : Node} (hc : c ∈ nestNodes s vars) :
    ∃ g ∈ s.generators, g.var ∈ Generator.closure s.generators vars ∧ c = g.source := by
  unfold nestNodes at hc
  split at hc
  · cases hc
  · obtain ⟨l, hl, rfl⟩ := List.mem_map.1 hc
    obtain ⟨hg, hvar⟩ := Plan.mem_levels_ofGenerators hl
    exact ⟨l.generator, hg, hvar, rfl⟩

/-- What the block of an aggregate needs, the aggregate uses. -/
theorem Needs.uses {n m : Node} (h : Needs s n m) : Uses s n m := by
  have hnest : ∀ vars ⊆ n.info.free ∪ n.info.bound, ∀ c ∈ nestNodes s vars, m ∈ readsOf c → Uses s n m := by
    intro vars hvars c hc hm
    obtain ⟨g, hg, hvar, rfl⟩ := exists_generator_of_mem_nestNodes hc
    refine .inr ⟨g, hg, ?_, hm⟩
    exact Generator.closure_subset (Generator.closed_closure _ _)
      (fun v hv => Generator.subset_closure _ _ v (hvars v hv)) _ hvar
  obtain ⟨c, hc, hm⟩ := List.mem_flatMap.1 h
  simp only [blockNodes, List.mem_append] at hc
  rcases hc with (hc | hc) | hc | hc
  · split at hc
    · exact hnest _ (fun v hv => VarSet.mem_union.2 (.inl hv)) c hc hm
    · cases hc
  · exact .inl (exists_ownNodes (List.mem_append_left _ hc) hm)
  · exact hnest _ (fun _ hv => hv) c hc hm
  · exact .inl (exists_ownNodes (List.mem_append_right _ hc) hm)

/-! ## The aggregates that there are -/

/-- The aggregates of a tree and of the sources. -/
def aggregates (s : Setting) (root : Node) : List Node :=
  (root.postorder ++ s.generators.flatMap fun g => g.source.postorder).filter Node.gathers

/-- Generation allows as much depth as there are aggregates. -/
theorem length_aggregates (s : Setting) (root : Node) : (aggregates s root).length = maxDepth s root := by
  have hfold : ∀ (gs : List Generator) (k : Nat), gs.foldl (fun n g => n + aggregateCount g.source) k =
      k + ((gs.flatMap fun g => g.source.postorder).filter Node.gathers).length := by
    intro gs
    induction gs with
    | nil => exact fun k => rfl
    | cons g gs ih =>
      intro k
      rw [List.foldl_cons, ih, List.flatMap_cons, List.filter_append, List.length_append, aggregateCount, Nat.add_assoc]
  rw [aggregates, List.filter_append, List.length_append, maxDepth, hfold, aggregateCount]

/-- What an expression reads are aggregates of its node. -/
theorem mem_postorder_of_mem_readsOf {n m : Node} (hm : m ∈ readsOf n) : m ∈ n.postorder ∧ m.gathers = true := by
  induction n using Node.induct with
  | input | const | var | hint => cases hm
  | get i base key hbase hkey =>
    rcases List.mem_append.1 hm with hm | hm
    · obtain ⟨hmem, hg⟩ := hbase hm
      exact ⟨Node.mem_postorder_of_mem_children (Node.mem_children_get.2 (.inl rfl)) hmem, hg⟩
    · obtain ⟨hmem, hg⟩ := hkey hm
      exact ⟨Node.mem_postorder_of_mem_children (Node.mem_children_get.2 (.inr rfl)) hmem, hg⟩
  | pointwise i op args ih =>
    rw [readsOf, listReadsOf_eq] at hm
    obtain ⟨c, hc, hm⟩ := List.mem_flatMap.1 hm
    obtain ⟨hmem, hg⟩ := ih c hc hm
    exact ⟨Node.mem_postorder_of_mem_children hc hmem, hg⟩
  | keySet i arg ih =>
    obtain ⟨hmem, hg⟩ := ih hm
    exact ⟨Node.mem_postorder_of_mem_children List.mem_cons_self hmem, hg⟩
  | reduce | scan | update =>
    rw [List.mem_singleton.1 hm]
    exact ⟨Node.self_mem_postorder _, rfl⟩

/-- The aggregates in the tree, and those in the sources. -/
theorem mem_aggregates {m : Node} : m ∈ aggregates s root ↔
    (m ∈ root.postorder ∨ ∃ g ∈ s.generators, m ∈ g.source.postorder) ∧ m.gathers = true := by
  rw [aggregates, List.mem_filter, List.mem_append, List.mem_flatMap]

/-- Only aggregates are computed from parts of theirs. -/
theorem mem_children_of_mem_ownNodes {n c : Node} (hc : c ∈ ownNodes n) : c ∈ n.children ∧ n.gathers = true := by
  cases n with
  | reduce | scan => exact ⟨hc, rfl⟩
  | update =>
    simp only [ownNodes, List.mem_cons, List.not_mem_nil, or_false] at hc
    rcases hc with rfl | rfl | rfl
    · exact ⟨Node.base_mem_children, rfl⟩
    · exact ⟨Node.key_mem_children, rfl⟩
    · exact ⟨Node.value_mem_children, rfl⟩
  | _ => cases hc

/-- What one of the aggregates uses is one of them. -/
theorem Uses.mem_aggregates {a b : Node} (h : Uses s a b) (ha : a ∈ aggregates s root) : b ∈ aggregates s root := by
  rcases h with ⟨part, hpart, hb⟩ | ⟨g, hg, -, hb⟩
  · obtain ⟨hmem, hgathers⟩ := mem_postorder_of_mem_readsOf hb
    have hbelow := Node.mem_postorder_of_mem_children (mem_children_of_mem_ownNodes hpart).1 hmem
    refine Program.mem_aggregates.2 ⟨(Program.mem_aggregates.1 ha).1.imp (Node.mem_postorder_trans hbelow) ?_, hgathers⟩
    rintro ⟨g, hg, hin⟩
    exact ⟨g, hg, Node.mem_postorder_trans hbelow hin⟩
  · obtain ⟨hmem, hgathers⟩ := mem_postorder_of_mem_readsOf hb
    exact Program.mem_aggregates.2 ⟨.inr ⟨g, hg, hmem⟩, hgathers⟩

/-- What is reached from the root is one of the aggregates. -/
theorem Reached.mem_aggregates {b : Node} (h : Reached s root b) : b ∈ aggregates s root := by
  obtain ⟨a, ha, hab⟩ := h
  induction hab with
  | refl =>
    obtain ⟨hmem, hgathers⟩ := mem_postorder_of_mem_readsOf ha
    exact Program.mem_aggregates.2 ⟨.inl hmem, hgathers⟩
  | tail _ huses ih => exact huses.mem_aggregates ih

/-! ## Ranks -/

open Classical in
/-- The aggregates that one uses, at some distance. -/
noncomputable def usedBy (s : Setting) (root a : Node) : List Node :=
  (aggregates s root).filter fun b => decide (TransGen (Uses s) a b)

/-- Where there are no cycles, an aggregate uses more aggregates than one that it uses. -/
theorem Acyclic.length_usedBy_lt (h : Acyclic s root) {a b : Node} (hb : Reached s root b) (hab : Uses s a b) :
    (usedBy s root b).length < (usedBy s root a).length := by
  classical
  have hfilter : usedBy s root b = (usedBy s root a).filter fun c => decide (TransGen (Uses s) b c) := by
    rw [usedBy, usedBy, List.filter_filter]
    refine List.filter_congr fun c _ => ?_
    have himp : TransGen (Uses s) b c → TransGen (Uses s) a c := TransGen.head hab
    rw [Bool.eq_iff_iff]
    simpa using himp
  rw [hfilter]
  refine List.length_filter_lt_length_iff_exists.2 ⟨b, ?_, by simpa using h b hb⟩
  exact List.mem_filter.2 ⟨hb.mem_aggregates, decide_eq_true (.single hab)⟩

/-- Where there are no cycles, no aggregate uses all of them, as it does not use itself. -/
theorem Acyclic.length_usedBy_lt_maxDepth (h : Acyclic s root) {b : Node} (hb : Reached s root b) :
    (usedBy s root b).length < maxDepth s root := by
  rw [← length_aggregates]
  exact List.length_filter_lt_length_iff_exists.2 ⟨b, hb.mem_aggregates, by simpa using h b hb⟩

/-- Where there are no cycles there is a program. -/
theorem exists_generate_of_acyclic (h : Acyclic s root) : ∃ r, generate s root = some r := by
  refine @exists_generate s (Reached s root) (fun n => (usedBy s root n).length) (fun n m hn hneeds => ?_) root fun m hm => ?_
  · obtain ⟨a, ha, han⟩ := hn
    have hm : Reached s root m := ⟨a, ha, han.tail hneeds.uses⟩
    exact ⟨hm, h.length_usedBy_lt hm hneeds.uses⟩
  · have hreached : Reached s root m := ⟨m, hm, .refl⟩
    exact ⟨hreached, h.length_usedBy_lt_maxDepth hreached⟩

/-! ## Sources that read nothing -/

/-- The aggregates of a tree are those of its parts, and itself if it is one. -/
theorem aggregateCount_eq (n : Node) :
    aggregateCount n = ((n.children.flatMap Node.postorder).filter Node.gathers).length + if n.gathers then 1 else 0 := by
  rw [aggregateCount, Node.postorder_eq, List.filter_append, List.length_append]
  cases h : n.gathers <;> simp [h]

/-- A part has no more aggregates than all parts together. -/
theorem aggregateCount_part_le {n c : Node} (hc : c ∈ n.children) :
    aggregateCount c ≤ ((n.children.flatMap Node.postorder).filter Node.gathers).length := by
  have hsublist : c.postorder.Sublist (n.children.flatMap Node.postorder) :=
    List.sublist_flatten_of_mem (List.mem_map_of_mem hc)
  exact (hsublist.filter _).length_le

/-- A node of a tree has no more aggregates than the tree. -/
theorem aggregateCount_le {n m : Node} (hm : m ∈ n.postorder) : aggregateCount m ≤ aggregateCount n := by
  induction n using Node.inductParts with
  | step n ih =>
    rcases Node.mem_postorder.1 hm with rfl | ⟨c, hc, hm⟩
    · exact Nat.le_refl _
    · have hpart := aggregateCount_part_le hc
      have hcount := aggregateCount_eq n
      have := ih c hc hm
      omega

/-- The aggregates in the parts of an aggregate hold fewer aggregates. -/
theorem aggregateCount_lt {n c m : Node} (hc : c ∈ ownNodes n) (hm : m ∈ readsOf c) : aggregateCount m < aggregateCount n := by
  obtain ⟨hpart, hn⟩ := mem_children_of_mem_ownNodes hc
  have hcount := aggregateCount_eq n
  have hle := aggregateCount_part_le hpart
  have hbelow := aggregateCount_le (mem_postorder_of_mem_readsOf hm).1
  rw [if_pos hn] at hcount
  omega

/-- Where sources read nothing there are no cycles: an aggregate uses parts of its own only. -/
theorem acyclic_of_sources (hsources : ∀ g ∈ s.generators, readsOf g.source = []) (root : Node) : Acyclic s root := by
  have huses : ∀ a b, Uses s a b → aggregateCount b < aggregateCount a := by
    rintro a b (⟨part, hpart, hb⟩ | ⟨g, hg, -, hb⟩)
    · exact aggregateCount_lt hpart hb
    · rw [hsources g hg] at hb
      cases hb
  have hdistance : ∀ a b, TransGen (Uses s) a b → aggregateCount b < aggregateCount a := by
    intro a b hab
    induction hab with
    | single hab => exact huses _ _ hab
    | tail _ hbc ih => exact (huses _ _ hbc).trans ih
  exact fun b _ hcycle => Nat.lt_irrefl _ (hdistance b b hcycle)

/-- Where sources read nothing, every tree has a program. -/
theorem exists_generate_of_sources (hsources : ∀ g ∈ s.generators, readsOf g.source = []) (root : Node) :
    ∃ r, generate s root = some r := exists_generate_of_acyclic (acyclic_of_sources hsources root)

/-- Generation ends unless aggregates go round in circles. Whatever the generators and the tree: if no aggregate that is reached from
the root uses itself, at any distance, there is a program, and what is generated does not depend on the depth that is allowed for.
This is so for every tree if no source of a generator holds an aggregate. -/
theorem acyclic_aggregates_have_programs (s : Setting) (root : Node) :
    (Acyclic s root → ∃ program diagnostics, generate s root = some (program, diagnostics) ∧
      ∀ depth, maxDepth s root ≤ depth →
        (exprAt s depth root ∅).run {} = (exprAt s (maxDepth s root) root ∅).run {}) ∧
    ((∀ g ∈ s.generators, ∀ m ∈ g.source.postorder, m.gathers = false) → Acyclic s root) := by
  refine ⟨fun h => ?_, fun hsources => acyclic_of_sources (fun g hg => ?_) root⟩
  · obtain ⟨⟨program, diagnostics⟩, hgenerate⟩ := exists_generate_of_acyclic h
    obtain ⟨e, hrun, -, -⟩ := run_of_generate hgenerate
    refine ⟨program, diagnostics, hgenerate, fun depth hdepth => ?_⟩
    rw [hrun]
    exact within_exprAt hdepth root ∅ _ _ hrun
  · refine List.eq_nil_iff_forall_not_mem.2 fun m hm => ?_
    obtain ⟨hmem, hgathers⟩ := mem_postorder_of_mem_readsOf hm
    rw [hsources g hg m hmem] at hgathers
    cases hgathers

/-- The running totals of the input. -/
def runningTotals : Node :=
  .scan { bound := .single 1 } ⟨.sum, false⟩ .eager (.get { dims := .single 1 } (.input {}) (.var {} 1))

/-- The sum of the running totals, which draws its variable from them. -/
def sumOfTotals : Node :=
  .reduce { bound := .single 0 } ⟨.sum, false⟩ .eager (.get { dims := .single 0 } runningTotals (.var {} 0))

/-- What a program for the sum of the running totals is generated with. -/
def layered : Setting where
  table := ⟨["*A", "*B"]⟩
  generators := [⟨1, .input {}, "input[*B]"⟩, ⟨0, runningTotals, "scan_sum(input[*B])[*A]"⟩]
  listing := ""
  comments := true

/-- The running totals use nothing, as they draw from the input. -/
theorem not_uses_runningTotals (b : Node) : ¬ Uses layered runningTotals b := by
  rintro (⟨part, hpart, hb⟩ | ⟨g, hg, hvar, hb⟩)
  · rw [List.mem_singleton.1 hpart] at hb
    cases hb
  · have hclosure : Generator.closure layered.generators (runningTotals.info.free ∪ runningTotals.info.bound) = .single 1 := by
      decide
    rw [hclosure, VarSet.mem_single] at hvar
    rcases List.mem_pair.1 hg with rfl | rfl
    · cases hb
    · cases hvar

/-- The sum uses the running totals, and they use nothing. -/
theorem acyclic_sumOfTotals : Acyclic layered sumOfTotals := by
  have huses : ∀ b, Uses layered sumOfTotals b → b = runningTotals := by
    rintro b (⟨part, hpart, hb⟩ | ⟨g, hg, -, hb⟩)
    · rw [List.mem_singleton.1 hpart] at hb
      exact List.mem_singleton.1 hb
    · rcases List.mem_pair.1 hg with rfl | rfl
      · cases hb
      · exact List.mem_singleton.1 hb
  have hlast : ∀ b, ReflTransGen (Uses layered) runningTotals b → b = runningTotals := by
    intro b hb
    rcases ReflTransGen.cases_head hb with hb | ⟨c, hc, -⟩
    · exact hb.symm
    · exact absurd hc (not_uses_runningTotals c)
  rintro b ⟨a, ha, hab⟩ hcycle
  rw [List.mem_singleton.1 ha] at hab
  obtain ⟨c, hbc, hcb⟩ := TransGen.head'_iff.1 hcycle
  rcases ReflTransGen.cases_head hab with rfl | ⟨d, hd, hdb⟩
  · rw [huses c hbc] at hcb
    cases hlast _ hcb
  · rw [hlast b (huses d hd ▸ hdb)] at hbc
    exact not_uses_runningTotals c hbc

/-- The sum that draws from an aggregate has a program, at every depth from three on, and the running totals alone go
round in no circle. -/
theorem acyclic_aggregates_have_programs_layered :
    Acyclic layered sumOfTotals ∧
    (∃ program diagnostics, generate layered sumOfTotals = some (program, diagnostics) ∧
      ∀ depth, 3 ≤ depth → (exprAt layered depth sumOfTotals ∅).run {} = (exprAt layered 3 sumOfTotals ∅).run {}) ∧
    Acyclic { layered with generators := [⟨1, .input {}, "input[*B]"⟩] } runningTotals := by
  refine ⟨acyclic_sumOfTotals, (acyclic_aggregates_have_programs layered sumOfTotals).1 acyclic_sumOfTotals, ?_⟩
  refine (acyclic_aggregates_have_programs _ runningTotals).2 fun g hg m hm => ?_
  rw [List.mem_singleton.1 hg] at hm
  rw [List.mem_singleton.1 hm]
  rfl

end Program

end StarQuery
