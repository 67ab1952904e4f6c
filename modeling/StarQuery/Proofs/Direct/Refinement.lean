import Mathlib.Data.List.Nodup
import Mathlib.Data.List.Perm.Subperm
import StarQuery.Proofs.Machine.Blocks
import StarQuery.Proofs.Naming.Range
import StarQuery.Proofs.Program.Warnings

/-!
# A program computes the direct value

The blocks of a program fill the slots of its aggregates one after the other; each refers to slots that are filled already.
After all of them, every slot holds the direct value of its aggregate for all bindings of its free variables, and the result
of the program is the direct value of the tree.
-/

namespace StarQuery

/-- A state tells its store. -/
theorem Store.under_inj {N : Nat} {k k' : Store} {b : Binding} (h : k.under N b = k'.under N b) : k = k' := by
  cases k
  cases k'
  cases h
  rfl

namespace Program

variable {s : Setting} {U : Node → Prop} {N limit : Nat} {given : Given}

/-- A store after the blocks of entries: the slots of the entries hold the direct values of their aggregates, with as many
aggregates under way as there are entries, or more; other slots are still empty. -/
structure Done (s : Setting) (given : Given) (limit size : Nat) (entries : List Entry) (k : Store) : Prop where
  slots : ∀ depth, entries.length ≤ depth → Ready entries limit (Direct.aggregate given s.generators depth) k
  empty : ∀ slot < size, (∀ x ∈ entries, x.slot ≠ slot) → k.slots[slot]? = some none

/-- The block of one more entry. -/
theorem Done.snoc (htable : given.table = s.table) (hvars : ∀ g ∈ s.generators, g.var < N) {size : Nat}
    {entries : List Entry} {x : Entry} (hblock : BlockOf s entries limit x.slot x.node x.block)
    (hslot : ∀ y ∈ entries, y.slot ≠ x.slot) (hsize : x.slot < size) (hreports : blockReports s x.slot x.node = [])
    {k : Store} (hk : Done s given limit size entries k) :
    ∃ k', Done s given limit size (entries ++ [x]) k' ∧
      Stmt.execAll given x.block (k.under N Binding.empty) = k'.under N Binding.empty := by
  obtain ⟨k', hslots, -, hrun⟩ := hblock.runs htable hvars hslot hreports (hk.slots _ (Nat.le_refl _))
  refine ⟨k', ⟨fun depth hdepth => ?_, fun slot hlt hfree => ?_⟩, hrun⟩
  · -- whatever the depth, the block is the same run, and ends in the same store
    rw [List.length_append, List.length_singleton] at hdepth
    obtain ⟨depth, rfl⟩ := Nat.exists_eq_add_of_le' (Nat.le_of_add_left_le hdepth)
    have hready := hk.slots depth (Nat.le_of_add_le_add_right hdepth)
    obtain ⟨k'', hslots'', hready'', hrun''⟩ := hblock.runs htable hvars hslot hreports hready
    cases Store.under_inj (hrun''.symm.trans hrun)
    have hold := hk.slots (depth + 1) (Nat.le_of_lt hdepth)
    refine ⟨fun y hy => ?_, hready''.projections⟩
    rw [hslots'']
    rcases List.mem_append.1 hy with hy | hy
    · exact (hold.slots y hy).modify (hslot y hy) _
    · rw [List.mem_singleton.1 hy]
      exact slotHolds_modify (hk.empty x.slot hsize hslot) _ x.node
  · rw [hslots, List.getElem?_modify_ne]
    · exact hk.empty slot hlt fun y hy => hfree y (List.mem_append_left _ hy)
    · exact hfree x (List.mem_append_right _ List.mem_cons_self)

/-- The blocks of all entries. -/
theorem Built.done (htable : given.table = s.table) (hvars : ∀ g ∈ s.generators, g.var < N) {size : Nat}
    {entries : List Entry} (h : Built s U limit entries) (hsize : ∀ x ∈ entries, x.slot < size)
    (hreports : ∀ x ∈ entries, x.reports s = []) {k : Store} (hk : Done s given limit size [] k) :
    ∃ k', Done s given limit size entries k' ∧
      Stmt.execAll given (entries.flatMap Entry.block) (k.under N Binding.empty) = k'.under N Binding.empty := by
  induction h with
  | nil => exact ⟨k, hk, rfl⟩
  | @snoc entries x _ _ _ hblock hslot ih =>
    rw [List.forall_mem_append, List.forall_mem_singleton] at hsize hreports
    obtain ⟨k1, hk1, hrun1⟩ := ih hsize.1 hreports.1
    obtain ⟨k2, hk2, hrun2⟩ := hk1.snoc htable hvars hblock hslot hsize.2 hreports.2
    refine ⟨k2, hk2, ?_⟩
    rw [List.flatMap_append, execAll_append, hrun1, List.flatMap_singleton, hrun2]

/-- Entries have slots of their own, so there are no more of them than slots. -/
theorem Built.length_le {size : Nat} {entries : List Entry} (h : Built s U limit entries)
    (hsize : ∀ x ∈ entries, x.slot < size) : entries.length ≤ size := by
  have hsubset : entries.map Entry.slot ⊆ List.range size := by
    intro slot hslot
    obtain ⟨x, hx, rfl⟩ := List.mem_map.1 hslot
    exact List.mem_range.2 (hsize x hx)
  have hlen := (h.nodup_slots.subperm hsubset).length_le
  rwa [List.length_map, List.length_range] at hlen

/-- The state in which a program starts. -/
theorem initial_eq (p : Program) :
    State.initial p = (Store.mk (List.replicate p.slots none) (List.replicate p.projections .nil)).under
      p.table.names.length Binding.empty := by
  unfold State.initial Store.under Binding.empty
  rw [List.map_const', List.length_range]

end Program

/-- The run of a program is the direct value of the annotated tree that it was generated from, if nothing was reported. -/
theorem Compiles.run_eq {q : Query} {options : Options} {c : Compiled} {D : Derivation q} (hD : Compiles q options c D)
    (hdiagnostics : c.diagnostics = []) (input : Json) (functions : Functions) {depth : Nat}
    (hdepth : c.program.slots ≤ depth) :
    c.program.run input functions =
      Direct.value ⟨input, functions, D.naming.table⟩ (D.setting options).generators depth Binding.empty
        (D.tree options.output) := by
  obtain ⟨entries, hbuilt, hsize, hbody, hresult, htable, hperm⟩ := hD.history
  rw [hdiagnostics] at hperm
  obtain ⟨hreports, hroot⟩ := List.append_eq_nil_iff.1 hperm.nil_eq.symm
  have hvars := D.var_lt_of_mem_generators options
  let given : Given := ⟨input, functions, D.naming.table⟩
  let start : Store := ⟨List.replicate c.program.slots none, List.replicate c.program.projections .nil⟩
  have hstart : Program.Done (D.setting options) given c.program.projections c.program.slots [] start := by
    refine ⟨fun _ _ => ⟨fun x hx => absurd hx List.not_mem_nil, ?_⟩, fun slot hslot _ => ?_⟩
    · exact List.length_replicate.ge
    · exact List.getElem?_replicate_of_lt hslot
  obtain ⟨k, hk, hrun⟩ := hbuilt.done rfl hvars hsize (List.flatMap_eq_nil_iff.1 hreports) hstart
  have hready := hk.slots depth ((hbuilt.length_le hsize).trans hdepth)
  have hinitial : State.initial c.program = start.under D.naming.table.names.length Binding.empty :=
    htable ▸ Program.initial_eq c.program
  calc c.program.run input functions
      = c.program.result.eval given (k.under D.naming.table.names.length Binding.empty) := by
        rw [Program.run, hinitial, hbody, htable, hrun]
    _ = Direct.value given (D.setting options).generators depth Binding.empty (D.tree options.output) :=
        hresult.eval_eq rfl (Binding.below_empty _) hready.slots hroot

/-- A program computes the direct value. A query that compiles with nothing to report gives, on every input and with any
functions, the value of its annotated tree that uses no slots and shares nothing, where an aggregate is computed afresh
wherever it is used; as many aggregates as the program has slots are enough to be under way at a time. -/
theorem run_eq_direct {q : Query} {options : Options} {c : Compiled} (hc : compile q options = .ok c)
    (hdiagnostics : c.diagnostics = []) (input : Json) (functions : Functions) {depth : Nat}
    (hdepth : c.program.slots ≤ depth) : c.program.run input functions = c.direct input functions depth := by
  obtain ⟨D, hD⟩ := compiles_of_ok hc
  rw [hD.run_eq hdiagnostics input functions hdepth, Compiled.direct, hD.table, hD.catalogue, hD.tree]
  rfl

/-- Records with keys and values. -/
def records : Json :=
  .arr [.obj [("key", .str "a"), ("value", Json.ofInt 1)], .obj [("key", .str "b"), ("value", Json.ofInt 2)],
    .obj [("key", .str "a"), ("value", Json.ofInt 3)]]

/-- The totals by key compile with nothing to report, and run to their direct value. -/
theorem run_eq_direct_totalsByKey : ∃ c, compile totalsByKey = .ok c ∧ c.diagnostics = [] ∧
    c.program.run records Functions.none = c.direct records Functions.none c.program.slots := by
  obtain ⟨c, hc, hdiagnostics⟩ := compile_totalsByKey
  exact ⟨c, hc, hdiagnostics, run_eq_direct hc hdiagnostics records Functions.none (Nat.le_refl _)⟩

end StarQuery
