import StarQuery.Proofs.Naming.Canonical
import StarQuery.Proofs.Naming.Range
import StarQuery.Proofs.Path.Basic

/-!
# Star paths as nodes

The node of a star path has, for each star, the variable that is named after the path before the star (`StarPath.starVar`). Its
variable sets, before and after each pass, are those of its stars, so one definition gives the node at every stage
(`StarPath.node`): what a path reads as, what the bottom-up pass makes of it, and what the passes from the root down do, whatever
is provided around it.
-/

namespace StarQuery

namespace VarSet

/-- The empty set adds nothing. -/
@[simp] theorem union_empty (s : VarSet) : s ∪ ∅ = s := ext fun v => by simp

/-- The union of one set is the set. -/
@[simp] theorem unions_singleton (s : VarSet) : unions [s] = s := ext fun v => by simp

/-- The union of a list of two sets is their union. -/
@[simp] theorem unions_pair (s t : VarSet) : unions [s, t] = s ∪ t := ext fun v => by simp

theorem single_ne_empty (v : Var) : single v ≠ ∅ := fun h => not_mem_empty v (h ▸ mem_single.2 rfl)

end VarSet

namespace VarInfo

/-- The sets of a node that ranges over some variables, as the bottom-up pass leaves them. -/
def spanning (s : VarSet) : VarInfo := { vars := s, mind := s, dims := s }

/-- The sets of a node that takes from around it all variables that it ranges over. -/
def taking (s : VarSet) : VarInfo := { vars := s, mind := s, dims := s, free := s }

end VarInfo

/-- Naming after a collection again gives the variable that is named after it. -/
theorem Naming.NamedAfter.nameAfter_eq {N : Naming} {tag : Char} {key : String} {v : Var} (h : N.NamedAfter tag key v) :
    (N.nameAfter tag key).1 = v := by
  obtain ⟨i, hkey, hname⟩ := h
  have hnumber : N.number key = (i, N) := by rw [number, hkey]
  rw [nameAfter, hnumber]
  change (N.intern (tag.toString ++ toString i)).1 = v
  rw [intern, NameTable.intern, hname]

/-- A variable that is named after a collection has a place in the table. -/
theorem Naming.NamedAfter.lt_length {N : Naming} {tag : Char} {key : String} {v : Var} (h : N.NamedAfter tag key v) :
    v < N.table.names.length := by
  obtain ⟨i, -, hname⟩ := h
  exact (NameTable.name_of_lookup? hname).1

/-- Only a name that a query gives can be deep. -/
theorem Naming.NamedAfter.isDeep_eq_false {N : Naming} {tag : Char} {key : String} {v : Var} (h : N.NamedAfter tag key v)
    (htag : tag ≠ '*') : N.table.isDeep v = false := by
  obtain ⟨i, -, hname⟩ := h
  rw [NameTable.isDeep, (NameTable.name_of_lookup? hname).2, NameTable.isDeepName, toList_name]
  split
  · rename_i heq
    exact absurd (List.cons.inj heq).1 htag
  · rfl

namespace StarPath

section
variable (N : Naming)

/-- The variable of a star that stands after a path. -/
def starVar (p : StarPath) : Var := (N.nameAfter 'D' p.term.fingerprint).1

/-- The variables of the stars of a path. -/
def stars (p : StarPath) : VarSet := .ofList (p.stops.map (starVar N))

/-- The node of a path, if the sets of a node are some function of the variables that it ranges over. -/
def node (sets : VarSet → VarInfo) : StarPath → Node
  | .input => .input (sets ∅)
  | .get base (.name n) => .get (sets (base.stars N)) (node sets base) (.const (sets ∅) (.str n.text))
  | .get base .star =>
    .get (sets ((base.get .star).stars N)) (node sets base) (.var (sets (.single (base.starVar N))) (base.starVar N))

/-- The stars of a path are named after what they range over. -/
def Named (p : StarPath) : Prop := ∀ q ∈ p.stops, N.NamedAfter 'D' q.term.fingerprint (q.starVar N)

end

variable {N : Naming} {sets : VarSet → VarInfo}

theorem mem_stars {p : StarPath} {v : Var} : v ∈ p.stars N ↔ ∃ q ∈ p.stops, q.starVar N = v := by
  rw [stars, VarSet.mem_ofList, List.mem_map]

/-- The variables of the stars depend on what stands before the stars only. -/
theorem stars_eq_of_stops {p q : StarPath} (h : p.stops = q.stops) : p.stars N = q.stars N := by rw [stars, h, stars]

theorem stars_name (p : StarPath) (n : PlainName) : (p.get (.name n)).stars N = p.stars N := rfl

/-- A star at the end of a path adds its own variable. -/
theorem stars_star (p : StarPath) : (p.get .star).stars N = p.stars N ∪ .single (p.starVar N) := by
  refine VarSet.ext fun v => ?_
  simp only [mem_stars, stops, VarSet.mem_union, VarSet.mem_single, List.mem_append, List.mem_singleton]
  constructor
  · rintro ⟨q, hq | rfl, rfl⟩
    · exact .inl ⟨q, hq, rfl⟩
    · exact .inr rfl
  · rintro (⟨q, hq, rfl⟩ | rfl)
    · exact ⟨q, .inl hq, rfl⟩
    · exact ⟨p, .inr rfl, rfl⟩

/-- The sets of the node of a path are those of its stars. -/
theorem info_node (p : StarPath) : (p.node N sets).info = sets (p.stars N) := by
  cases p with
  | input => rfl
  | get base key => cases key <;> rfl

/-! ## What a path reads as -/

/-- What a longer path has named is named for the path. -/
theorem Named.base {p : StarPath} {key : Segment} (h : Named N (p.get key)) : Named N p := by
  intro q hq
  cases key with
  | name n => exact h q hq
  | star => exact h q (List.mem_append_left _ hq)

/-- A star at the end of a path is named after the path before it. -/
theorem Named.star {p : StarPath} (h : Named N (p.get .star)) : N.NamedAfter 'D' p.term.fingerprint (p.starVar N) :=
  h p (List.mem_append_right _ List.mem_cons_self)

/-- A path reads as its node without sets, with its stars named. -/
theorem of_reads {p : StarPath} {n : Node} (h : Node.Reads N p.term n) : n = p.node N (fun _ => {}) ∧ Named N p := by
  induction p generalizing n with
  | input =>
    cases h
    exact ⟨rfl, fun q hq => absurd hq List.not_mem_nil⟩
  | get base key ih =>
    cases key with
    | name name =>
      cases h with
      | get hbase hkey =>
        cases hkey
        obtain ⟨rfl, hnamed⟩ := ih hbase
        exact ⟨rfl, hnamed⟩
    | star =>
      obtain ⟨b, v, rfl, hbase, hv⟩ := h.of_star
      obtain ⟨rfl, hnamed⟩ := ih hbase
      have hvar : base.starVar N = v := hv.nameAfter_eq
      refine ⟨by rw [node, hvar], fun q hq => ?_⟩
      rcases List.mem_append.1 hq with hq | hq
      · exact hnamed q hq
      · rw [List.mem_singleton.1 hq, hvar]
        exact hv

/-- Different stars have different variables. -/
theorem starVar_inj {p q : StarPath} (hp : N.NamedAfter 'D' p.term.fingerprint (p.starVar N))
    (hq : N.NamedAfter 'D' q.term.fingerprint (q.starVar N)) (h : p.starVar N = q.starVar N) : p = q := by
  rw [h] at hp
  exact term_injective (Term.fingerprint_inj (hp.inj hq).2)

/-- The variable of a star does not occur before the star. -/
theorem Named.fresh {p : StarPath} (h : Named N (p.get .star)) : ¬ p.starVar N ∈ p.stars N := by
  intro hmem
  obtain ⟨q, hq, heq⟩ := mem_stars.1 hmem
  have hqp : q = p := starVar_inj (h.base q hq) h.star heq
  have := sizeOf_lt_of_mem_stops hq
  rw [hqp] at this
  omega

/-! ## The passes -/

/-- The bottom-up pass gives a path the variables that it ranges over. -/
theorem withExtents_node (p : StarPath) : (p.node N fun _ => {}).withExtents = p.node N .spanning := by
  induction p with
  | input => rfl
  | get base key ih =>
    have hinfo : (base.node N .spanning).info = .spanning (base.stars N) := info_node base
    cases key with
    | name n =>
      simp [node, Node.withExtents, ih, Node.settleExtent, Node.setInfo, Node.extent, Node.jointExtent, hinfo, VarInfo.spanning]
    | star =>
      simp [node, Node.withExtents, ih, Node.settleExtent, Node.setInfo, Node.extent, Node.jointExtent, hinfo, VarInfo.spanning,
        stars_star]

/-- The passes from the root down give a path the variables that it ranges over, whatever is provided. -/
theorem annotated_node (d : Dependencies) (p : StarPath) (outB outF : VarSet) (path : List Grouping) :
    Node.annotated d (p.node N .spanning) outB outF path = p.node N .taking := by
  unfold Node.annotated
  induction p with
  | input => rfl
  | get base key ih =>
    have hallBound : ((base.node N .spanning).withBound outB).info.allBound = ∅ := by
      rw [← Node.allBound_withFree d _ outF path, ih, info_node]
      rfl
    have hfree : (base.node N .taking).info.free = base.stars N := by
      rw [info_node]
      rfl
    cases key with
    | name n =>
      simp [node, Node.withBound, Node.withFree, Node.setBound, Node.setFree, Node.setJointFree, Node.setInfo, Node.children, ih,
        hallBound, hfree, VarInfo.spanning, VarInfo.taking]
    | star =>
      simp [node, Node.withBound, Node.withFree, Node.setBound, Node.setFree, Node.setJointFree, Node.setInfo, Node.children, ih,
        hallBound, hfree, VarInfo.spanning, VarInfo.taking, stars_star]

end StarPath

end StarQuery
