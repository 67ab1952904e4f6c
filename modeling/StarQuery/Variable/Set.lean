/-!
# Sets of variables

A variable is its number in the table of names. A set of variables is its ascending list, so that two sets with the same
members are equal (`VarSet.ext`), and everything else about a set is said through membership.
-/

namespace StarQuery

/-- A variable: its number in the table of names. -/
abbrev Var := Nat

/-- A finite set of variables, as its ascending list. -/
structure VarSet where
  toList : List Var
  ascending : toList.Pairwise (· < ·)
  deriving DecidableEq

namespace VarSet

instance : Membership Var VarSet := ⟨fun s v => v ∈ s.toList⟩

instance (v : Var) (s : VarSet) : Decidable (v ∈ s) := inferInstanceAs (Decidable (v ∈ s.toList))

instance : HasSubset VarSet := ⟨fun s t => ∀ v ∈ s.toList, v ∈ t⟩

instance (s t : VarSet) : Decidable (s ⊆ t) := inferInstanceAs (Decidable (∀ v ∈ s.toList, v ∈ t))

theorem mem_toList {v : Var} {s : VarSet} : v ∈ s.toList ↔ v ∈ s := Iff.rfl

theorem subset_iff {s t : VarSet} : s ⊆ t ↔ ∀ v, v ∈ s → v ∈ t := Iff.rfl

theorem nodup_toList (s : VarSet) : s.toList.Nodup := s.ascending.imp Nat.ne_of_lt

/-- Ascending lists with the same members are equal. -/
theorem list_ext : ∀ {xs ys : List Var}, xs.Pairwise (· < ·) → ys.Pairwise (· < ·) → (∀ v, v ∈ xs ↔ v ∈ ys) → xs = ys
  | [], [], _, _, _ => rfl
  | [], y :: _, _, _, h => absurd ((h y).2 List.mem_cons_self) List.not_mem_nil
  | x :: _, [], _, _, h => absurd ((h x).1 List.mem_cons_self) List.not_mem_nil
  | x :: xs, y :: ys, hx, hy, h => by
    rw [List.pairwise_cons] at hx hy
    have hxy : x = y := by
      rcases List.mem_cons.1 ((h x).1 List.mem_cons_self) with hxy | hxy
      · exact hxy
      · rcases List.mem_cons.1 ((h y).2 List.mem_cons_self) with hyx | hyx
        · exact hyx.symm
        · exact absurd (Nat.lt_trans (hx.1 y hyx) (hy.1 x hxy)) (Nat.lt_irrefl x)
    subst hxy
    refine congrArg (x :: ·) (list_ext hx.2 hy.2 fun v => ⟨fun hv => ?_, fun hv => ?_⟩)
    · rcases List.mem_cons.1 ((h v).1 (List.mem_cons_of_mem x hv)) with hvx | hvy
      · exact absurd (hx.1 v hv) (hvx ▸ Nat.lt_irrefl x)
      · exact hvy
    · rcases List.mem_cons.1 ((h v).2 (List.mem_cons_of_mem x hv)) with hvx | hvy
      · exact absurd (hy.1 v hv) (hvx ▸ Nat.lt_irrefl x)
      · exact hvy

/-- Sets with the same members are equal. -/
theorem ext {s t : VarSet} (h : ∀ v, v ∈ s ↔ v ∈ t) : s = t := by
  cases s with
  | mk xs hx =>
    cases t with
    | mk ys hy =>
      have : xs = ys := list_ext hx hy h
      subst this
      rfl

/-- The set without members. -/
def empty : VarSet := ⟨[], List.Pairwise.nil⟩

instance : EmptyCollection VarSet := ⟨empty⟩

instance : Inhabited VarSet := ⟨empty⟩

/-- Nothing is in the empty set. -/
@[simp] theorem not_mem_empty (v : Var) : ¬ v ∈ (∅ : VarSet) := List.not_mem_nil

/-- The set of one variable. -/
def single (v : Var) : VarSet := ⟨[v], List.pairwise_singleton _ v⟩

/-- The set of one variable has this one member. -/
@[simp] theorem mem_single {v w : Var} : v ∈ single w ↔ v = w := List.mem_singleton

/-- Puts a variable into its place in an ascending list. -/
def place (v : Var) : List Var → List Var
  | [] => [v]
  | x :: xs => if v < x then v :: x :: xs else if v = x then x :: xs else x :: place v xs

/-- Placing a variable adds it and nothing else. -/
theorem mem_place {v w : Var} : ∀ {xs : List Var}, w ∈ place v xs ↔ w = v ∨ w ∈ xs
  | [] => by simp [place]
  | x :: xs => by
    by_cases h1 : v < x
    · simp [place, h1]
    · by_cases h2 : v = x
      · subst h2; simp [place]
      · simp only [place, h1, h2, if_false, List.mem_cons, mem_place]
        exact or_left_comm

/-- A list stays ascending when a variable is put into its place. -/
theorem pairwise_place (v : Var) : ∀ {xs : List Var}, xs.Pairwise (· < ·) → (place v xs).Pairwise (· < ·)
  | [], _ => List.pairwise_singleton _ v
  | x :: xs, h => by
    have hx := List.pairwise_cons.1 h
    by_cases h1 : v < x
    · simp only [place, h1, if_true]
      refine List.pairwise_cons.2 ⟨fun w hw => ?_, h⟩
      rcases List.mem_cons.1 hw with rfl | hw
      · exact h1
      · exact Nat.lt_trans h1 (hx.1 w hw)
    · by_cases h2 : v = x
      · simpa only [place, h1, h2, if_true, if_false, Nat.lt_irrefl] using h
      · simp only [place, h1, h2, if_false]
        refine List.pairwise_cons.2 ⟨fun w hw => ?_, pairwise_place v hx.2⟩
        rcases mem_place.1 hw with rfl | hw
        · exact Nat.lt_of_le_of_ne (Nat.le_of_not_lt h1) (Ne.symm h2)
        · exact hx.1 w hw

/-- Adds a variable to a set. -/
def insert (s : VarSet) (v : Var) : VarSet := ⟨place v s.toList, pairwise_place v s.ascending⟩

/-- The members of a set after a variable is added. -/
@[simp] theorem mem_insert {s : VarSet} {v w : Var} : w ∈ s.insert v ↔ w = v ∨ w ∈ s := mem_place

/-- The set of the variables of a list. -/
def ofList (vs : List Var) : VarSet := vs.foldl insert ∅

/-- Adding variables one after the other adds each of them. -/
theorem mem_foldl_insert {w : Var} : ∀ {vs : List Var} {s : VarSet}, w ∈ vs.foldl insert s ↔ w ∈ s ∨ w ∈ vs
  | [], s => by simp
  | v :: vs, s => by
    rw [List.foldl_cons, mem_foldl_insert, mem_insert, List.mem_cons]
    constructor
    · rintro ((h | h) | h)
      · exact Or.inr (Or.inl h)
      · exact Or.inl h
      · exact Or.inr (Or.inr h)
    · rintro (h | h | h)
      · exact Or.inl (Or.inr h)
      · exact Or.inl (Or.inl h)
      · exact Or.inr h

/-- The set of a list has the members of the list. -/
@[simp] theorem mem_ofList {vs : List Var} {w : Var} : w ∈ ofList vs ↔ w ∈ vs := by
  simp [ofList, mem_foldl_insert]

instance : Union VarSet := ⟨fun s t => t.toList.foldl insert s⟩

/-- A union has the members of the one set and of the other. -/
@[simp] theorem mem_union {s t : VarSet} {v : Var} : v ∈ s ∪ t ↔ v ∈ s ∨ v ∈ t := mem_foldl_insert

/-- The members of a set that satisfy a test. -/
def filter (s : VarSet) (p : Var → Bool) : VarSet := ⟨s.toList.filter p, s.ascending.filter p⟩

theorem mem_filter {s : VarSet} {p : Var → Bool} {v : Var} : v ∈ s.filter p ↔ v ∈ s ∧ p v = true := List.mem_filter

instance : Inter VarSet := ⟨fun s t => s.filter fun v => decide (v ∈ t)⟩

/-- An intersection has the members that the two sets share. -/
@[simp] theorem mem_inter {s t : VarSet} {v : Var} : v ∈ s ∩ t ↔ v ∈ s ∧ v ∈ t :=
  mem_filter.trans (and_congr_right fun _ => decide_eq_true_iff)

instance : SDiff VarSet := ⟨fun s t => s.filter fun v => !decide (v ∈ t)⟩

/-- A difference has the members of the first set that are not in the second. -/
@[simp] theorem mem_sdiff {s t : VarSet} {v : Var} : v ∈ s \ t ↔ v ∈ s ∧ ¬ v ∈ t := by
  refine mem_filter.trans (and_congr_right fun _ => ?_)
  simp

/-- The union of a list of sets. -/
def unions (sets : List VarSet) : VarSet := sets.foldl (· ∪ ·) ∅

/-- Uniting sets one after the other collects the members of each of them. -/
theorem mem_foldl_union {v : Var} : ∀ {sets : List VarSet} {s : VarSet},
    v ∈ sets.foldl (· ∪ ·) s ↔ v ∈ s ∨ ∃ t ∈ sets, v ∈ t
  | [], s => by simp
  | t :: sets, s => by
    rw [List.foldl_cons, mem_foldl_union, mem_union]
    constructor
    · rintro ((h | h) | ⟨u, hu, h⟩)
      · exact Or.inl h
      · exact Or.inr ⟨t, List.mem_cons_self, h⟩
      · exact Or.inr ⟨u, List.mem_cons_of_mem t hu, h⟩
    · rintro (h | ⟨u, hu, h⟩)
      · exact Or.inl (Or.inl h)
      · rcases List.mem_cons.1 hu with rfl | hu
        · exact Or.inl (Or.inr h)
        · exact Or.inr ⟨u, hu, h⟩

/-- The union of a list of sets has what one of them has. -/
@[simp] theorem mem_unions {sets : List VarSet} {v : Var} : v ∈ unions sets ↔ ∃ t ∈ sets, v ∈ t := by
  simp [unions, mem_foldl_union]

/-- The number of members. -/
def size (s : VarSet) : Nat := s.toList.length

/-- Whether the set has no member. -/
def isEmpty (s : VarSet) : Bool := s.toList.isEmpty

/-- Only the empty set has no member. -/
@[simp] theorem isEmpty_iff {s : VarSet} : s.isEmpty = true ↔ s = ∅ := by
  constructor
  · intro h
    refine ext fun v => ⟨fun hv => ?_, fun hv => absurd hv (not_mem_empty v)⟩
    have : s.toList = [] := List.isEmpty_iff.1 h
    rw [← mem_toList, this] at hv
    exact absurd hv List.not_mem_nil
  · rintro rfl
    rfl

/-- Whether two sets have a member in common. -/
def overlaps (s t : VarSet) : Bool := s.toList.any fun v => decide (v ∈ t)

theorem overlaps_iff {s t : VarSet} : s.overlaps t = true ↔ ∃ v, v ∈ s ∧ v ∈ t := by
  simp [overlaps, mem_toList]

end VarSet

end StarQuery
