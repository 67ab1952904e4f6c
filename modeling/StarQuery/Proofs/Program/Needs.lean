import Mathlib.Logic.Relation
import StarQuery.Proofs.Program.History
import StarQuery.Proofs.Scope.Supplied

/-!
# What an aggregate needs

The expression of a node reads the slots of certain aggregates (`readsOf`), and the block of an aggregate holds the expressions
of certain nodes. So an aggregate needs those aggregates that its block reads (`needsOf`). In finished entries these come
earlier, so that no aggregate of theirs needs itself, at any distance (`Built.not_needs_self`).
-/

namespace StarQuery

namespace Program

mutual
/-- The aggregates whose slots the expression of a node reads. -/
def readsOf : Node → List Node
  | .input _ | .const .. | .var .. | .hint .. => []
  | .get _ base key => readsOf base ++ readsOf key
  | .pointwise _ _ args => listReadsOf args
  | .keySet _ arg => readsOf arg
  | .reduce i op mode arg => [.reduce i op mode arg]
  | .scan i op mode arg => [.scan i op mode arg]
  | .update i base key value filter => [.update i base key value filter]
/-- The aggregates whose slots the expressions of a list of nodes read. -/
def listReadsOf : List Node → List Node
  | [] => []
  | n :: rest => readsOf n ++ listReadsOf rest
end

/-- What the expressions of a list of nodes read is what each reads. -/
theorem listReadsOf_eq (ns : List Node) : listReadsOf ns = ns.flatMap readsOf := by
  induction ns with
  | nil => rfl
  | cons n ns ih => rw [listReadsOf, ih, List.flatMap_cons]

/-- The expression of an aggregate reads its slot. -/
theorem readsOf_gathers {n : Node} (h : n.gathers = true) : readsOf n = [n] := by
  cases n with
  | reduce | scan | update => rfl
  | _ => cases h

variable (s : Setting)

/-- The nodes whose expressions the loops of a nest hold. -/
def nestNodes (vars : VarSet) : List Node :=
  if vars = ∅ then [] else (nestPlan s vars).levels.map fun l => l.generator.source

/-- The nodes whose expressions the block of an aggregate holds. -/
def blockNodes (n : Node) : List Node :=
  (if hasFirst n then nestNodes s n.info.free else []) ++ firstNodes n ++
    (nestNodes s (n.info.free ∪ n.info.bound) ++ actionNodes n)

/-- The aggregates whose slots the block of an aggregate reads. -/
def needsOf (n : Node) : List Node := (blockNodes s n).flatMap readsOf

/-- One aggregate needs another to be finished. -/
def Needs (n m : Node) : Prop := m ∈ needsOf s n

variable {s} {entries : List Entry}

/-! ## What is read is finished -/

/-- What an expression reads is finished. -/
theorem ExprOf.reads {env : VarSet} {n : Node} {x : Expr} (h : ExprOf s entries env n x) :
    ∀ m ∈ readsOf n, ∃ y ∈ entries, y.node = m := by
  induction h with
  | input | const | var | hint =>
    intro m hm
    cases hm
  | get _ _ hbase hkey =>
    intro m hm
    exact (List.mem_append.1 hm).elim (hbase m) (hkey m)
  | @pointwise i op args xs hlen _ ih =>
    intro m hm
    rw [readsOf, listReadsOf_eq] at hm
    obtain ⟨n, hn, hm⟩ := List.mem_flatMap.1 hm
    obtain ⟨x, -, hzip⟩ := Node.mem_zip_of_mem_left hlen hn
    exact ih _ hzip m hm
  | keySet _ ih => exact ih
  | slot hn hentry hnode =>
    intro m hm
    rw [readsOf_gathers hn] at hm
    rw [List.mem_singleton.1 hm]
    exact ⟨_, hentry, hnode⟩

/-- What the loops of a nest read is finished. -/
theorem NestOf.reads {limit : Nat} {vars : VarSet} {body : List Stmt → Prop} {stmts : List Stmt}
    (h : NestOf s entries limit vars body stmts) :
    (∀ n ∈ nestNodes s vars, ∀ m ∈ readsOf n, ∃ y ∈ entries, y.node = m) ∧ ∃ inner, body inner := by
  have hlevels : ∀ {xs : List (Level × Expr)}, LevelsOf s entries (nestPlan s vars).levels xs →
      ∀ n ∈ nestNodes s vars, ∀ m ∈ readsOf n, ∃ y ∈ entries, y.node = m := by
    intro xs hxs n hn
    unfold nestNodes at hn
    split at hn
    · cases hn
    · rw [← hxs.1, List.map_map] at hn
      obtain ⟨x, hx, rfl⟩ := List.mem_map.1 hn
      exact (hxs.2 x hx).reads
  cases h with
  | plain hvars hinner =>
    refine ⟨fun n hn => ?_, _, hinner⟩
    rw [nestNodes, if_pos hvars] at hn
    cases hn
  | levels _ _ hxs hinner => exact ⟨hlevels hxs, _, hinner⟩
  | projected _ _ _ hxs hinner => exact ⟨hlevels hxs, _, hinner⟩

/-- What a first state reads is finished. -/
theorem FirstOf.reads {env : VarSet} {n : Node} {x : Expr} {copy : Bool} (h : FirstOf s entries env n x copy) :
    ∀ c ∈ firstNodes n, ∀ m ∈ readsOf c, ∃ y ∈ entries, y.node = m := by
  intro c hc
  cases h with
  | reduce | scan => cases hc
  | update hbase =>
    rw [List.mem_singleton.1 hc]
    exact hbase.reads

/-- What an action reads is finished. -/
theorem ActionOf.reads {env : VarSet} {n : Node} {a : Action} (h : ActionOf s entries env n a) :
    ∀ c ∈ actionNodes n, ∀ m ∈ readsOf c, ∃ y ∈ entries, y.node = m := by
  intro c hc
  cases h with
  | reduce harg | scan harg =>
    rw [List.mem_singleton.1 hc]
    exact harg.reads
  | update hlen hkeys hvalue =>
    rcases List.mem_append.1 hc with hc | hc
    · obtain ⟨x, -, hzip⟩ := Node.mem_zip_of_mem_left hlen hc
      exact (hkeys _ hzip).reads
    · rw [List.mem_singleton.1 hc]
      exact hvalue.reads

/-- What an aggregate needs is finished before its block. -/
theorem BlockOf.needs {limit slot : Nat} {n : Node} {block : List Stmt} (h : BlockOf s entries limit slot n block) {m : Node}
    (hm : Needs s n m) : ∃ y ∈ entries, y.node = m := by
  obtain ⟨start, steps, hstart, hsteps, -⟩ := h
  obtain ⟨c, hc, hm⟩ := List.mem_flatMap.1 hm
  obtain ⟨hstepNodes, _, action, haction, -⟩ := NestOf.reads hsteps
  rcases List.mem_append.1 hc with hc | hc
  · rcases hstart with ⟨hnone, -⟩ | ⟨hfirst, hstart⟩
    · -- an aggregate without a first state has no part that gives it one
      rw [hnone] at hc
      cases n with
      | update => cases hnone
      | _ => simp [firstNodes] at hc
    · obtain ⟨hstartNodes, _, x, copy, hx, -⟩ := hstart.reads
      rw [if_pos hfirst] at hc
      exact (List.mem_append.1 hc).elim (fun hc => hstartNodes c hc m hm) fun hc => hx.reads c hc m hm
  · exact (List.mem_append.1 hc).elim (fun hc => hstepNodes c hc m hm) fun hc => haction.reads c hc m hm

/-! ## No aggregate needs itself -/

/-- The aggregates of finished entries are reached by going back along their needs only finitely often. -/
theorem Built.acc {U : Node → Prop} {limit : Nat} (h : Built s U limit entries) :
    ∀ x ∈ entries, Acc (fun m n => Needs s n m) x.node := by
  induction h with
  | nil =>
    intro x hx
    cases hx
  | @snoc entries x _ _ _ hblock _ ih =>
    intro y hy
    rcases List.mem_append.1 hy with hy | hy
    · exact ih y hy
    · rw [List.mem_singleton.1 hy]
      refine Acc.intro _ fun m hm => ?_
      obtain ⟨z, hz, rfl⟩ := hblock.needs hm
      exact ih z hz

/-- What is reached only finitely often does not need itself. -/
theorem not_needs_self_of_acc {n : Node} (h : Acc (fun m n => Needs s n m) n) : ¬ Relation.TransGen (Needs s) n n := by
  induction h with
  | intro n _ ih =>
    intro hcycle
    obtain ⟨m, hm, hback⟩ := Relation.TransGen.head'_iff.1 hcycle
    -- the same cycle, seen from the next aggregate on it
    exact ih m hm (Relation.TransGen.tail' hback hm)

/-- No aggregate of finished entries needs itself, at any distance. -/
theorem Built.not_needs_self {U : Node → Prop} {limit : Nat} (h : Built s U limit entries) {x : Entry} (hx : x ∈ entries) :
    ¬ Relation.TransGen (Needs s) x.node x.node := not_needs_self_of_acc (h.acc x hx)

end Program

end StarQuery
