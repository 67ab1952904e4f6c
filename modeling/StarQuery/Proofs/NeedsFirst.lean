/-!
# Lists in which every member follows what it needs

A traversal of a tree puts its nodes in such an order: a path after the path of its parent, or a node after its parts. The order is
kept by concatenation, where a later list may need what is in an earlier one (`NeedsFirst.append`), so it is proved along the recursion
that makes the list.
-/

namespace StarQuery

/-- Every member of a list comes after all that it needs, where `seen` came before the list. -/
def NeedsFirst {α : Type} (needs : α → α → Prop) : List α → List α → Prop
  | _, [] => True
  | seen, x :: xs => (∀ y, needs x y → y ∈ seen) ∧ NeedsFirst needs (x :: seen) xs

namespace NeedsFirst

variable {α β : Type} {needs : α → α → Prop} {seen seen' xs ys : List α}

/-- The more came before a list, the more its members may need. -/
theorem mono (h : NeedsFirst needs seen xs) (hsub : seen ⊆ seen') : NeedsFirst needs seen' xs := by
  induction xs generalizing seen seen' with
  | nil => trivial
  | cons x xs ih => exact ⟨fun y hy => hsub (h.1 y hy), ih h.2 (List.cons_subset_cons x hsub)⟩

/-- Two lists one after the other, where the second may need what is in the first. -/
theorem append (hx : NeedsFirst needs seen xs) (hy : NeedsFirst needs (xs.reverse ++ seen) ys) : NeedsFirst needs seen (xs ++ ys) := by
  induction xs generalizing seen with
  | nil => exact hy
  | cons x xs ih =>
    rw [List.reverse_cons, List.append_assoc] at hy
    exact ⟨hx.1, ih hx.2 hy⟩

/-- Lists one after the other, none of which needs another. -/
theorem flatMap {f : β → List α} {zs : List β} (h : ∀ z ∈ zs, NeedsFirst needs seen (f z)) : NeedsFirst needs seen (zs.flatMap f) := by
  induction zs with
  | nil => trivial
  | cons z zs ih =>
    rw [List.forall_mem_cons] at h
    exact h.1.append ((ih h.2).mono (List.subset_append_right _ _))

/-- The images of members follow the images of what these need, and may need what came before besides. -/
theorem map {needs' : β → β → Prop} {f : α → β} {seen' : List β} (h : NeedsFirst needs seen xs) (hseen : ∀ x ∈ seen, f x ∈ seen')
    (hneeds : ∀ x y, needs' (f x) y → y ∈ seen' ∨ ∃ z, needs x z ∧ f z = y) : NeedsFirst needs' seen' (xs.map f) := by
  induction xs generalizing seen seen' with
  | nil => trivial
  | cons x xs ih =>
    refine ⟨fun y hy => ?_, ih h.2 (List.forall_mem_cons.2 ⟨List.mem_cons_self, fun z hz => ?_⟩) fun x y hy => ?_⟩
    · rcases hneeds x y hy with hy | ⟨z, hz, rfl⟩
      · exact hy
      · exact hseen z (h.1 z hz)
    · exact List.mem_cons_of_mem _ (hseen z hz)
    · exact (hneeds x y hy).imp (List.mem_cons_of_mem _) id

/-- Some members of a list follow those among them that they need. -/
theorem filter (keep : α → Bool) (h : NeedsFirst needs seen xs) (hseen : ∀ x ∈ seen, keep x = true → x ∈ seen') :
    NeedsFirst (fun x y => needs x y ∧ keep y = true) seen' (xs.filter keep) := by
  induction xs generalizing seen seen' with
  | nil => trivial
  | cons x xs ih =>
    cases hx : keep x with
    | true =>
      rw [List.filter_cons_of_pos hx]
      refine ⟨fun y hy => hseen y (h.1 y hy.1) hy.2, ih h.2 (List.forall_mem_cons.2 ⟨fun _ => List.mem_cons_self, ?_⟩)⟩
      exact fun y hy hkeep => List.mem_cons_of_mem _ (hseen y hy hkeep)
    | false =>
      rw [List.filter_cons_of_neg (by simp [hx])]
      exact ih h.2 (List.forall_mem_cons.2 ⟨fun hkeep => absurd hkeep (by simp [hx]), hseen⟩)

/-- What a member needs is before it in the list, or before the list. -/
theorem mem_before {before after : List α} {x y : α} (h : NeedsFirst needs seen (before ++ x :: after)) (hy : needs x y) :
    y ∈ before ∨ y ∈ seen := by
  induction before generalizing seen with
  | nil => exact .inr (h.1 y hy)
  | cons z before ih =>
    rcases ih h.2 with hy | hy
    · exact .inl (List.mem_cons_of_mem z hy)
    · rcases List.mem_cons.1 hy with rfl | hy
      · exact .inl List.mem_cons_self
      · exact .inr hy

end NeedsFirst

end StarQuery
