import Mathlib.Data.List.Induction
import StarQuery.Proofs.Reducer.ClosedForm

/-!
# The first extremal input

A maximum replaces its state by an input that is greater, a minimum by one that is less, and both keep it otherwise. Where the
inputs compare as in a total preorder, the state is at any time the first of the inputs so far that no other exceeds
(`IsFirstLeader.snoc`), of several equal ones the earliest, however different they are as values.
-/

namespace StarQuery

namespace Json

variable {o : Ordering} {a b d u v w : Json} {ds : List Json} {i j : Nat}

/-- A value compares with another as `o` says, or equal: for `.gt` it is at least the other, for `.lt` at most. -/
def Leads (o : Ordering) (a b : Json) : Prop := order? a b = some o ∨ order? a b = some .eq

instance : Decidable (Leads o a b) := inferInstanceAs (Decidable (_ ∨ _))

/-- Values that compare as in a total preorder: any two of a list compare, the other way round as the reverse, and `≤` is
transitive. -/
structure Comparable (ds : List Json) : Prop where
  defined : ds.Pairwise fun a b => (order? a b).isSome = true
  reversed : ∀ a ∈ ds, ∀ b ∈ ds, order? b a = (order? a b).map Ordering.swap
  transitive : ∀ a ∈ ds, ∀ b ∈ ds, ∀ c ∈ ds, Leads .lt a b → Leads .lt b c → Leads .lt a c

/-- The value at a place of a list leads every other value of the list. -/
def IsLeader (o : Ordering) (ds : List Json) (i : Nat) : Prop := ∃ v, ds[i]? = some v ∧ ∀ w ∈ ds.eraseIdx i, Leads o v w

/-- A value stands at the first place of a list from where every other value is led. -/
def IsFirstLeader (o : Ordering) (ds : List Json) (v : Json) : Prop :=
  ∃ i, ds[i]? = some v ∧ IsLeader o ds i ∧ ∀ j < i, ¬ IsLeader o ds j

/-! ## Total preorders -/

namespace Comparable

/-- Values that compare do so without the last one. -/
theorem left (h : Comparable (ds ++ [d])) : Comparable ds where
  defined := (List.pairwise_append.1 h.defined).1
  reversed := fun a ha b hb => h.reversed a (List.mem_append_left _ ha) b (List.mem_append_left _ hb)
  transitive := fun a ha b hb c hc =>
    h.transitive a (List.mem_append_left _ ha) b (List.mem_append_left _ hb) c (List.mem_append_left _ hc)

/-- A value leads another just if the other leads it in the reverse order. -/
theorem leads_swap (h : Comparable ds) (ha : a ∈ ds) (hb : b ∈ ds) : Leads o a b ↔ Leads o.swap b a := by
  unfold Leads
  rw [h.reversed a ha b hb]
  cases order? a b with
  | none => simp
  | some p => cases o <;> cases p <;> decide

/-- Leading is transitive, upwards and downwards. -/
theorem trans (h : Comparable ds) (ho : o ≠ .eq) (hu : u ∈ ds) (hv : v ∈ ds) (hw : w ∈ ds) (huv : Leads o u v)
    (hvw : Leads o v w) : Leads o u w := by
  cases o with
  | lt => exact h.transitive u hu v hv w hw huv hvw
  | eq => exact absurd rfl ho
  | gt =>
    rw [h.leads_swap hu hv] at huv
    rw [h.leads_swap hv hw] at hvw
    rw [h.leads_swap hu hw]
    exact h.transitive w hw v hv u hu hvw huv

/-- What is strictly behind a value does not lead it. -/
theorem not_leads (h : Comparable ds) (ho : o ≠ .eq) (ha : a ∈ ds) (hb : b ∈ ds) (hab : order? a b = some o) : ¬ Leads o b a := by
  unfold Leads
  rw [h.reversed a ha b hb, hab]
  cases o with
  | eq => exact absurd rfl ho
  | lt | gt => decide

/-- Of a value and a later one, the first leads unless the later one is strictly ahead. -/
theorem leads_of_ne (h : Comparable (ds ++ [d])) (ho : o ≠ .eq) (hv : v ∈ ds) (hne : order? d v ≠ some o) : Leads o v d := by
  obtain ⟨p, hp⟩ := Option.isSome_iff_exists.1 ((List.pairwise_append.1 h.defined).2.2 v hv d List.mem_cons_self)
  rw [h.reversed v (List.mem_append_left _ hv) d List.mem_concat_self, hp] at hne
  unfold Leads
  rw [hp]
  revert ho hne
  cases o <;> cases p <;> decide

end Comparable

/-! ## Leaders of a longer list -/

/-- A member of a list stands at a place, or is among the others. -/
theorem eq_or_mem_eraseIdx (hv : ds[i]? = some v) (hw : w ∈ ds) : w = v ∨ w ∈ ds.eraseIdx i := by
  obtain ⟨j, hj⟩ := List.mem_iff_getElem?.1 hw
  by_cases hij : j = i
  · subst hij
    exact .inl (Option.some.inj (hj.symm.trans hv))
  · exact .inr (List.mem_eraseIdx_iff_getElem?.2 ⟨j, hij, hj⟩)

/-- A leader of a longer list leads what it led before, and the value that was added. -/
theorem isLeader_snoc_iff (hi : ds[i]? = some v) : IsLeader o (ds ++ [d]) i ↔ IsLeader o ds i ∧ Leads o v d := by
  have hlt : i < ds.length := (List.getElem?_eq_some_iff.1 hi).1
  simp only [IsLeader, List.getElem?_append_left hlt, List.eraseIdx_append_of_lt_length hlt, hi, Option.some.injEq,
    exists_eq_left', List.forall_mem_append, List.forall_mem_singleton]

/-- The value that was added is a leader if it leads all others. -/
theorem isLeader_length_iff : IsLeader o (ds ++ [d]) ds.length ↔ ∀ w ∈ ds, Leads o d w := by
  simp [IsLeader, List.eraseIdx_append_of_length_le]

/-- The only value of a list is its first leader. -/
theorem isFirstLeader_singleton : IsFirstLeader o [d] d :=
  ⟨0, rfl, ⟨d, rfl, fun _ hw => absurd hw List.not_mem_nil⟩, fun j hj => absurd hj (Nat.not_lt_zero j)⟩

/-- The first leader of a list stays it when a value is added, unless the value is strictly ahead of it; then the value is. -/
theorem IsFirstLeader.snoc (h : Comparable (ds ++ [d])) (ho : o ≠ .eq) (hfirst : IsFirstLeader o ds v) :
    IsFirstLeader o (ds ++ [d]) (if order? d v = some o then d else v) := by
  obtain ⟨i, hi, ⟨v', hv', hlead⟩, hearlier⟩ := hfirst
  cases hi.symm.trans hv'
  have hv : v ∈ ds := List.mem_of_getElem? hi
  have hd : d ∈ ds ++ [d] := List.mem_concat_self
  have hmem : ∀ {w}, w ∈ ds → w ∈ ds ++ [d] := fun hw => List.mem_append_left _ hw
  split
  · rename_i hahead
    have hnot : ¬ Leads o v d := h.not_leads ho hd (hmem hv) hahead
    refine ⟨ds.length, List.getElem?_concat_length, isLeader_length_iff.2 fun w hw => ?_, fun j hj hleader => ?_⟩
    · rcases eq_or_mem_eraseIdx hi hw with rfl | hother
      · exact .inl hahead
      · exact h.trans ho hd (hmem hv) (hmem hw) (.inl hahead) (hlead w hother)
    · -- whoever leads the new value is led by the old leader, which does not lead it
      obtain ⟨u, hu⟩ : ∃ u, ds[j]? = some u := ⟨_, List.getElem?_eq_getElem hj⟩
      have hud : Leads o u d := ((isLeader_snoc_iff hu).1 hleader).2
      rcases eq_or_mem_eraseIdx hi (List.mem_of_getElem? hu) with rfl | hother
      · exact hnot hud
      · exact hnot (h.trans ho (hmem hv) (hmem (List.mem_of_getElem? hu)) hd (hlead u hother) hud)
  · rename_i hne
    have hlt : i < ds.length := (List.getElem?_eq_some_iff.1 hi).1
    refine ⟨i, (List.getElem?_append_left hlt).trans hi, (isLeader_snoc_iff hi).2 ⟨⟨v, hi, hlead⟩, h.leads_of_ne ho hv hne⟩,
      fun j hj hleader => ?_⟩
    have hu : ds[j]? = some ds[j] := List.getElem?_eq_getElem (Nat.lt_trans hj hlt)
    exact hearlier j hj ((isLeader_snoc_iff hu).1 hleader).1

/-- There is one first leader at most. -/
theorem IsFirstLeader.unique (hv : IsFirstLeader o ds v) (hw : IsFirstLeader o ds w) : v = w := by
  obtain ⟨i, hi, hileads, hifirst⟩ := hv
  obtain ⟨j, hj, hjleads, hjfirst⟩ := hw
  have hij : i = j := Nat.le_antisymm (Nat.le_of_not_lt fun h => hifirst j h hjleads) (Nat.le_of_not_lt fun h => hjfirst i h hileads)
  subst hij
  exact Option.some.inj (hi.symm.trans hj)

end Json

namespace Reducer

open Json

variable {f : Folding} {o : Ordering} {nullable : Bool} {xs : List (Option Json)}

/-- The state of a reducer that keeps what is ahead: undefined before the first defined input, then their first leader. -/
theorem foldl_step_leads (ho : o ≠ .eq) (hfirst : ∀ d, firstState f d = d)
    (hnext : ∀ a b, nextState f a b = if order? b a = some o then b else a) (h : Comparable (inputs xs)) :
    (xs.foldl (step ⟨f, nullable⟩) none = none ∧ inputs xs = []) ∨
      ∃ v, xs.foldl (step ⟨f, nullable⟩) none = some v ∧ IsFirstLeader o (inputs xs) v := by
  -- on the list from its end, since the state is that of the inputs before the last
  induction xs using List.reverseRecOn with
  | nil => exact .inl ⟨rfl, rfl⟩
  | append_singleton xs x ih =>
    have hinputs : inputs (xs ++ [x]) = inputs xs ++ x.toList := by
      cases x <;> simp [inputs]
    rw [hinputs] at h ⊢
    rw [List.foldl_append, List.foldl_cons, List.foldl_nil]
    cases x with
    | none =>
      rw [Option.toList_none, List.append_nil] at h ⊢
      have hstay : ∀ s, step ⟨f, nullable⟩ s none = s := fun s => by cases s <;> rfl
      rw [hstay]
      exact ih h
    | some d =>
      rw [Option.toList_some] at h ⊢
      rcases ih h.left with ⟨hstate, hnil⟩ | ⟨v, hstate, hv⟩
      · rw [hstate, hnil]
        exact .inr ⟨d, congrArg some (hfirst d), isFirstLeader_singleton⟩
      · rw [hstate]
        exact .inr ⟨_, congrArg some (hnext v d), hv.snoc h ho⟩

/-- Such a reducer gives the first leader of its inputs, and nothing just if there is no leader. -/
theorem foldl_step_eq_iff (ho : o ≠ .eq) (hfirst : ∀ d, firstState f d = d)
    (hnext : ∀ a b, nextState f a b = if order? b a = some o then b else a) (h : Comparable (inputs xs)) :
    (∀ v, xs.foldl (step ⟨f, nullable⟩) none = some v ↔ IsFirstLeader o (inputs xs) v) ∧
      (xs.foldl (step ⟨f, nullable⟩) none = none ↔ ¬ ∃ i, IsLeader o (inputs xs) i) := by
  rcases foldl_step_leads ho hfirst hnext h with ⟨hstate, hnil⟩ | ⟨v, hstate, hv⟩
  · have hnone : ¬ ∃ i, IsLeader o (inputs xs) i := by
      rintro ⟨i, v, hv, -⟩
      rw [hnil] at hv
      cases hv
    rw [hstate]
    refine ⟨fun v => iff_of_false (by simp) ?_, iff_of_true rfl hnone⟩
    rintro ⟨i, -, hleader, -⟩
    exact hnone ⟨i, hleader⟩
  · rw [hstate]
    refine ⟨fun w => ⟨fun hw => Option.some.inj hw ▸ hv, fun hw => congrArg some (hv.unique hw)⟩, ?_⟩
    obtain ⟨i, -, hleader, -⟩ := hv
    exact iff_of_false (by simp) (not_not_intro ⟨i, hleader⟩)

end Reducer

open Reducer Json in
/-- The maximum of inputs that compare as in a total preorder is the earliest defined one that is at least every other, and undefined
if and only if there is none; the minimum is the earliest one that is at most every other. -/
theorem extrema_are_first_leaders (nullable : Bool) (xs : List (Option Json)) (h : Comparable (inputs xs)) :
    ((∀ v, xs.foldl (step ⟨.max, nullable⟩) none = some v ↔ IsFirstLeader .gt (inputs xs) v) ∧
      (xs.foldl (step ⟨.max, nullable⟩) none = none ↔ ¬ ∃ i, IsLeader .gt (inputs xs) i)) ∧
    (∀ v, xs.foldl (step ⟨.min, nullable⟩) none = some v ↔ IsFirstLeader .lt (inputs xs) v) ∧
      (xs.foldl (step ⟨.min, nullable⟩) none = none ↔ ¬ ∃ i, IsLeader .lt (inputs xs) i) :=
  ⟨foldl_step_eq_iff (by decide) (fun _ => rfl) (fun _ _ => rfl) h,
    foldl_step_eq_iff (by decide) (fun _ => rfl) (fun _ _ => rfl) h⟩

/-- Two values that compare equal, and one below them. -/
def tiedInputs : List (Option Json) := [none, some (.bool true), some (.ofInt 1), none, some (.ofInt 0)]

open Reducer Json in
/-- Of the two greatest, which are different values, the maximum is the earlier one. -/
theorem extrema_of_tiedInputs :
    Comparable (inputs tiedInputs) ∧
    (tiedInputs.foldl (step ⟨.max, false⟩) none = some (.bool true) ∧ IsFirstLeader .gt (inputs tiedInputs) (.bool true)) ∧
    (tiedInputs.foldl (step ⟨.min, true⟩) none = some (.ofInt 0) ∧ IsFirstLeader .lt (inputs tiedInputs) (.ofInt 0)) := by
  have h : Comparable (inputs tiedInputs) := ⟨by decide +kernel, by decide +kernel, by decide +kernel⟩
  have hmax : tiedInputs.foldl (step ⟨.max, false⟩) none = some (.bool true) := rfl
  have hmin : tiedInputs.foldl (step ⟨.min, true⟩) none = some (.ofInt 0) := rfl
  exact ⟨h, ⟨hmax, ((extrema_are_first_leaders false tiedInputs h).1.1 _).1 hmax⟩,
    hmin, ((extrema_are_first_leaders true tiedInputs h).2.1 _).1 hmin⟩

end StarQuery
