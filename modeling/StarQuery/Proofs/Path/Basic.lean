import StarQuery.Json.Key
import StarQuery.Proofs.Term.Acceptance

/-!
# Star paths

A star path looks up names and anonymous stars, one in the value of the other, beginning with the input. The values that it leads
to are said by nested iteration over the keys of what it goes through (`StarPath.values`). Different paths are different terms
(`StarPath.term_injective`), and a path names no variable.
-/

namespace StarQuery

/-- A name that stands for itself in a path: it does not begin with a star. -/
structure PlainName where
  text : String
  plain : text.toList.head? ≠ some '*'
  deriving DecidableEq

/-- One lookup of a star path: of a name, or of every key. -/
inductive Segment where
  | name (n : PlainName)
  | star
  deriving DecidableEq

namespace Segment

/-- The identifier that a segment is written as. -/
def ident : Segment → String
  | .name n => n.text
  | .star => "*"

/-- What a segment is as a term. -/
def term : Segment → Term
  | .name n => .const (.str n.text)
  | .star => .star

/-- The values that a segment leads to from a value: the part under a name, which may be undefined, or the part under every key.
An undefined value has no keys. -/
def step : Segment → Option Json → List (Option Json)
  | .name n, u => [u.bind fun c => c.get? (.str n.text)]
  | .star, none => []
  | .star, some c => c.keys.map fun k => c.get? k

/-- The identifier of a segment stands for the term of the segment. -/
theorem ofIdent_eq (s : Segment) : Term.ofIdent s.ident = .ok s.term := by
  cases s with
  | star => rfl
  | name n =>
    have hone : n.text ≠ "*" := fun h => n.plain (by rw [h]; rfl)
    have htwo : n.text ≠ "**" := fun h => n.plain (by rw [h]; rfl)
    rw [ident, Term.ofIdent_eq, if_neg hone, if_neg htwo, if_neg n.plain, term]

/-- Different segments are different terms. -/
theorem term_injective {s t : Segment} (h : s.term = t.term) : s = t := by
  cases s with
  | star =>
    cases t with
    | star => rfl
    | name n => cases h
  | name n =>
    cases t with
    | star => cases h
    | name m =>
      cases n
      cases m
      cases h
      rfl

end Segment

/-- The values that segments lead to from a value, by nested iteration. -/
def reach : List Segment → Option Json → List (Option Json)
  | [], u => [u]
  | s :: rest, u => (s.step u).flatMap (reach rest)

/-- The part that names lead to from a value. -/
def lookups (names : List PlainName) (u : Option Json) : Option Json :=
  names.foldl (fun u n => u.bind fun c => c.get? (.str n.text)) u

/-- Names lead to one value, which may be undefined. -/
theorem reach_names (names : List PlainName) (u : Option Json) : reach (names.map .name) u = [lookups names u] := by
  induction names generalizing u with
  | nil => rfl
  | cons n names ih =>
    rw [List.map_cons, reach, Segment.step, List.flatMap_singleton, ih]
    rfl

/-- A path of names and anonymous stars from the input. -/
inductive StarPath where
  | input
  | get (base : StarPath) (key : Segment)
  deriving DecidableEq

namespace StarPath

/-- A path as a query. A lookup in the input may be written without its base. -/
def query (implicit : Bool) : StarPath → Query
  | .input => .input
  | .get .input key => if implicit then .member (.ident key.ident) else .get .input (.ident key.ident)
  | .get base key => .get (query implicit base) (.ident key.ident)

/-- A path with more segments at its end. -/
def append (p : StarPath) (segments : List Segment) : StarPath := segments.foldl .get p

/-- The values that a path leads to on an input, by nested iteration. -/
def values (input : Json) : StarPath → List (Option Json)
  | .input => [some input]
  | .get base key => (values input base).flatMap key.step

/-- Whether the last segment of a path is a star. -/
def endsInStar : StarPath → Bool
  | .get _ .star => true
  | _ => false

/-- The paths that a path begins with, itself included. -/
def prefixes : StarPath → List StarPath
  | .input => [.input]
  | .get base key => prefixes base ++ [.get base key]

/-- A longer path leads to what its further segments reach from the values of the path. -/
theorem values_append (input : Json) (p : StarPath) (segments : List Segment) :
    (p.append segments).values input = (p.values input).flatMap (reach segments) := by
  induction segments generalizing p with
  | nil => exact (List.flatMap_singleton' _).symm
  | cons s segments ih =>
    rw [append, List.foldl_cons, ← append, ih, values, List.flatMap_assoc]
    rfl

/-! ## Terms -/

/-- What a path is as a term. -/
def term : StarPath → Term
  | .input => .input
  | .get base key => .get base.term key.term

/-- Different paths are different terms. -/
theorem term_injective {p q : StarPath} (h : p.term = q.term) : p = q := by
  induction p generalizing q with
  | input =>
    cases q with
    | input => rfl
    | get => cases h
  | get base key ih =>
    cases q with
    | input => cases h
    | get base' key' =>
      rw [term, term, Term.get.injEq] at h
      rw [ih h.1, Segment.term_injective h.2]

/-- A path resolves to its term, written with its base or without it. -/
theorem ofQuery_query (implicit : Bool) (p : StarPath) : Term.ofQuery (p.query implicit) = .ok p.term := by
  induction p with
  | input => rfl
  | get base key ih =>
    have hget : Term.ofQuery (.get (base.query implicit) (.ident key.ident)) = .ok (.get base.term key.term) := by
      rw [Term.ofQuery, ih, Term.ofQuery, key.ofIdent_eq]
      rfl
    cases base with
    | get => exact hget
    | input =>
      cases implicit with
      | false => exact hget
      | true =>
        rw [query, if_pos rfl, Term.ofQuery, Term.ofQuery, key.ofIdent_eq]
        rfl

/-- A path names no variable. -/
theorem names_term (p : StarPath) : p.term.names = [] := by
  induction p with
  | input => rfl
  | get base key ih =>
    rw [term, Term.names, ih]
    cases key <;> rfl

/-- Every star of a path stands as a key. -/
theorem starsKeyed_term (p : StarPath) (asKey : Bool) : p.term.starsKeyed asKey = true := by
  induction p generalizing asKey with
  | input => rfl
  | get base key ih =>
    rw [term, Term.starsKeyed, ih, Bool.true_and]
    cases key <;> rfl

/-! ## Stars -/

/-- The paths that the stars of a path stand after, in order. -/
def stops : StarPath → List StarPath
  | .input => []
  | .get base (.name _) => stops base
  | .get base .star => stops base ++ [base]

/-- The paths that stars stand after, among segments at the end of a path. -/
def stopsFrom (p : StarPath) : List Segment → List StarPath
  | [] => []
  | .name n :: rest => stopsFrom (p.get (.name n)) rest
  | .star :: rest => p :: stopsFrom (p.get .star) rest

/-- The stars of a longer path are those of the path and those of its further segments. -/
theorem stops_append (p : StarPath) (segments : List Segment) : (p.append segments).stops = p.stops ++ p.stopsFrom segments := by
  induction segments generalizing p with
  | nil => exact (List.append_nil _).symm
  | cons s segments ih =>
    have happend : p.append (s :: segments) = (p.get s).append segments := rfl
    cases s with
    | name n => rw [happend, ih, stops, stopsFrom]
    | star => rw [happend, ih, stops, stopsFrom, List.append_assoc, List.singleton_append]

/-- Every path is segments after the input. -/
theorem exists_append (p : StarPath) : ∃ segments, p = StarPath.input.append segments := by
  induction p with
  | input => exact ⟨[], rfl⟩
  | get base key ih =>
    obtain ⟨segments, rfl⟩ := ih
    refine ⟨segments ++ [key], ?_⟩
    rw [append, append, List.foldl_append]
    rfl

/-- A path stops at another if it begins with a star after that. -/
theorem mem_stops {p q : StarPath} : q ∈ p.stops ↔ q.get .star ∈ p.prefixes := by
  induction p with
  | input => simp [stops, prefixes]
  | get base key ih =>
    rw [prefixes, List.mem_append, List.mem_singleton, get.injEq]
    cases key with
    | name n => simp [stops, ih]
    | star => simp [stops, ih]

/-- What stands before a star is shorter than the path. -/
theorem sizeOf_lt_of_mem_stops {p q : StarPath} (h : q ∈ p.stops) : sizeOf q < sizeOf p := by
  induction p with
  | input => cases h
  | get base key ih =>
    rw [get.sizeOf_spec]
    cases key with
    | name n =>
      have := ih h
      omega
    | star =>
      rcases List.mem_append.1 h with h | h
      · have := ih h
        omega
      · rw [List.mem_singleton.1 h]
        omega

/-- A path after which a star stands goes on from the path that the segments are at the end of. -/
theorem stops_subset_of_mem_stopsFrom {p q : StarPath} {segments : List Segment} (h : q ∈ p.stopsFrom segments) :
    p.stops ⊆ q.stops := by
  induction segments generalizing p with
  | nil => cases h
  | cons s segments ih =>
    cases s with
    | name n =>
      have hstops : (p.get (.name n)).stops ⊆ q.stops := ih h
      exact hstops
    | star =>
      rcases List.mem_cons.1 h with rfl | h
      · exact List.Subset.refl _
      · exact fun r hr => ih h (List.mem_append_left _ hr)

/-- Where a path ends in a star, the path before it is its last stop. -/
theorem exists_base_of_endsInStar {p : StarPath} (h : p.endsInStar = true) : ∃ base : StarPath, p = base.get .star := by
  cases p with
  | input => cases h
  | get base key =>
    cases key with
    | name n => cases h
    | star => exact ⟨base, rfl⟩

end StarPath

end StarQuery
