import Mathlib.Data.List.Nodup
import StarQuery.Proofs.Direct.Root
import StarQuery.Proofs.Json.Paths
import StarQuery.Proofs.Path.Reduction

/-!
# Star paths as whole queries

The result of a star path that is a whole query is grouped by the stars of the path. These are numbered in the order in which they
stand in the path (`StarPath.Numbered.map_starVar`), so the keys of the grouping are the keys that the stars stand for, from the
first to the last. Each choice of keys, in the order of nested iteration, gives a row (`StarPath.rows`), and no two choices lead to
the same place (`StarPath.eq_of_texts_eq`).
-/

namespace StarQuery

/-! ## The keys that stars stand for -/

/-- The ways in which a segment goes on from a value: with the keys chosen so far, and the key that a star stands for. -/
def Segment.choices : Segment → List Json × Option Json → List (List Json × Option Json)
  | .name n, (keys, u) => [(keys, u.bind fun c => c.get? (.str n.text))]
  | .star, (_, none) => []
  | .star, (keys, some c) => c.keys.map fun k => (keys ++ [k], c.get? k)

namespace StarPath

/-- The choices of keys for the stars of a path, by nested iteration, each with the value that the path leads to. -/
def choices (input : Json) : StarPath → List (List Json × Option Json)
  | .input => [([], some input)]
  | .get base key => (choices input base).flatMap key.choices

/-- The choices under which a path leads to a value, as rows of key texts. -/
def rows (input : Json) (p : StarPath) : List Json.Row :=
  (p.choices input).filterMap fun choice => choice.2.map fun x => (choice.1.map Json.keyText, x)

variable {N : Naming}

/-- A choice has a key for each star. -/
theorem length_of_mem_choices {input : Json} {p : StarPath} {choice : List Json × Option Json} (h : choice ∈ p.choices input) :
    choice.1.length = p.stops.length := by
  induction p generalizing choice with
  | input =>
    rw [List.mem_singleton.1 h]
    rfl
  | get base key ih =>
    obtain ⟨⟨keys, u⟩, hbase, hstep⟩ := List.mem_flatMap.1 h
    cases key with
    | name n =>
      have hlen : keys.length = base.stops.length := ih hbase
      rw [List.mem_singleton.1 hstep, hlen, stops]
    | star =>
      cases u with
      | none => cases hstep
      | some c =>
        obtain ⟨k, -, rfl⟩ := List.mem_map.1 hstep
        rw [List.length_append, ih hbase, stops, List.length_append]
        rfl

/-- A choice of keys is determined by their texts. -/
theorem eq_of_texts_eq {input : Json} {p : StarPath} {choice choice' : List Json × Option Json} (h : choice ∈ p.choices input)
    (h' : choice' ∈ p.choices input) (htexts : choice.1.map Json.keyText = choice'.1.map Json.keyText) : choice = choice' := by
  induction p generalizing choice choice' with
  | input => rw [List.mem_singleton.1 h, List.mem_singleton.1 h']
  | get base key ih =>
    obtain ⟨⟨keys, u⟩, hbase, hstep⟩ := List.mem_flatMap.1 h
    obtain ⟨⟨keys', u'⟩, hbase', hstep'⟩ := List.mem_flatMap.1 h'
    cases key with
    | name n =>
      rw [List.mem_singleton.1 hstep, List.mem_singleton.1 hstep'] at htexts ⊢
      cases ih hbase hbase' htexts
      rfl
    | star =>
      cases u with
      | none => cases hstep
      | some c =>
        cases u' with
        | none => cases hstep'
        | some c' =>
          obtain ⟨k, hk, rfl⟩ := List.mem_map.1 hstep
          obtain ⟨k', hk', rfl⟩ := List.mem_map.1 hstep'
          rw [List.map_append, List.map_append] at htexts
          obtain ⟨hkeys, hlast⟩ := List.append_inj' htexts rfl
          cases ih hbase hbase' hkeys
          rw [Json.eq_of_keyText_eq hk hk' (List.cons.inj hlast).1]

/-- A row has a text for each star. -/
theorem length_of_mem_rows {input : Json} {p : StarPath} {row : Json.Row} (h : row ∈ p.rows input) :
    row.1.length = p.stops.length := by
  obtain ⟨choice, hmem, hrow⟩ := List.mem_filterMap.1 h
  obtain ⟨x, -, rfl⟩ := Option.map_eq_some_iff.1 hrow
  rw [List.length_map, length_of_mem_choices hmem]

/-- No two rows of a path bring different values to one place. -/
theorem rows_functional {input : Json} {p : StarPath} {path : List String} {x y : Json} (hx : (path, x) ∈ p.rows input)
    (hy : (path, y) ∈ p.rows input) : x = y := by
  obtain ⟨choice, hmem, hrow⟩ := List.mem_filterMap.1 hx
  obtain ⟨choice', hmem', hrow'⟩ := List.mem_filterMap.1 hy
  obtain ⟨z, hz, heq⟩ := Option.map_eq_some_iff.1 hrow
  obtain ⟨z', hz', heq'⟩ := Option.map_eq_some_iff.1 hrow'
  obtain ⟨htexts, rfl⟩ := Prod.mk.inj heq
  obtain ⟨htexts', rfl⟩ := Prod.mk.inj heq'
  rw [eq_of_texts_eq hmem hmem' (htexts.trans htexts'.symm), hz'] at hz
  exact (Option.some.inj hz).symm

/-- What the rows of a path with stars make up groups them. -/
theorem groups_rows (input : Json) {p : StarPath} (h : p.stops ≠ []) :
    Json.Groups p.stops.length (p.rows input) (Json.assemble (p.rows input)) := by
  obtain ⟨k, hk⟩ := Nat.exists_eq_succ_of_ne_zero (mt List.length_eq_zero_iff.1 h)
  rw [hk]
  exact Json.groups_assemble (fun row hrow => (length_of_mem_rows hrow).trans hk) fun path x y => rows_functional

/-! ## Choices as bindings -/

section
variable (N) (given : Given) (aggregate : Direct.Valuation)

/-- The keys that a binding gives to the stars of a path, and the value that the path leads to under it. -/
def chosen (p : StarPath) (b : Binding) : List (Option Json) × Option Json :=
  (p.stops.map fun q => b (q.starVar N), Direct.valueWith given aggregate b (p.node N .taking))

end

section
variable {given : Given} {aggregate : Direct.Valuation} (htable : given.table = N.table)

include htable

/-- A star after a path is bound to each key of what the path leads to. -/
theorem Named.map_chosen_star {p : StarPath} (h : Named N (p.get .star)) (b : Binding) :
    (Direct.draws given (Direct.valueWith given aggregate) [p.generator N] b).map ((p.get .star).chosen N given aggregate) =
      (((p.chosen N given aggregate b).2.map Json.keys).getD []).map fun k =>
        ((p.chosen N given aggregate b).1 ++ [some k], (p.chosen N given aggregate b).2.bind fun c => c.get? k) := by
  have hset : ∀ k, (p.get .star).chosen N given aggregate (b.set (p.starVar N) k) =
      ((p.chosen N given aggregate b).1 ++ [some k], (p.chosen N given aggregate b).2.bind fun c => c.get? k) := by
    intro k
    have hkeys : p.stops.map (fun q => b.set (p.starVar N) k (q.starVar N)) = p.stops.map fun q => b (q.starVar N) := by
      refine List.map_congr_left fun q hq => Binding.set_of_ne (fun heq => h.fresh ?_) k
      exact heq ▸ mem_stars.2 ⟨q, hq, rfl⟩
    rw [chosen, stops, List.map_append, hkeys, List.map_singleton, Binding.set_self, h.value_star htable,
      ignores_node h.fresh b k, Binding.set_self]
    rfl
  rw [Direct.draws, h.offers_eq htable, List.map_flatMap, List.map_eq_flatMap]
  exact List.flatMap_congr fun k _ => congrArg (fun e => [e]) (hset k)

/-- The bindings that are drawn from the stars of a path make its choices. -/
theorem Named.map_chosen_draws {p : StarPath} (h : Named N p) (b : Binding) :
    (Direct.draws given (Direct.valueWith given aggregate) (p.generators N) b).map (p.chosen N given aggregate) =
      (p.choices given.input).map fun choice => (choice.1.map some, choice.2) := by
  induction p with
  | input => rfl
  | get base key ih =>
    -- if one more segment extends what is chosen for the base as it extends the choices, the two stay the same
    have hsegment : ∀ extend : List (Option Json) × Option Json → List (List (Option Json) × Option Json),
        (∀ choice : List Json × Option Json, extend (choice.1.map some, choice.2) =
          (key.choices choice).map fun choice => (choice.1.map some, choice.2)) →
        ((Direct.draws given (Direct.valueWith given aggregate) (base.generators N) b).flatMap fun c =>
            extend (base.chosen N given aggregate c)) =
          ((base.get key).choices given.input).map fun choice => (choice.1.map some, choice.2) := by
      intro extend hextend
      have hbase := congrArg (List.flatMap extend) (ih h.base)
      rw [List.flatMap_map, List.flatMap_map] at hbase
      rw [choices, List.map_flatMap, hbase]
      exact List.flatMap_congr fun choice _ => hextend choice
    cases key with
    | name n =>
      rw [← hsegment (fun e => [(e.1, e.2.bind fun c => c.get? (.str n.text))]) fun choice => rfl]
      exact List.map_eq_flatMap
    | star =>
      have hchoices : ∀ choice : List Json × Option Json, ((choice.2.map Json.keys).getD []).map (fun k =>
          (choice.1.map some ++ [some k], choice.2.bind fun c => c.get? k)) =
          (Segment.star.choices choice).map fun choice => (choice.1.map some, choice.2) := by
        rintro ⟨keys, u⟩
        cases u with
        | none => rfl
        | some c => simp [Segment.choices]
      rw [← hsegment (fun e => ((e.2.map Json.keys).getD []).map fun k => (e.1 ++ [some k], e.2.bind fun c => c.get? k)) hchoices,
        generators, stops, List.map_append, List.map_singleton, Direct.draws_append, List.map_flatMap]
      exact List.flatMap_congr fun c _ => h.map_chosen_star htable c

end

/-- Lists that agree member by member have the same members after a filter that respects the agreement. -/
theorem filterMap_eq_of_map_eq {α β γ δ : Type} {f : α → γ} {g : β → γ} {r : α → Option δ} {s : β → Option δ}
    (hrespects : ∀ a b, f a = g b → r a = s b) {xs : List α} {ys : List β} (h : xs.map f = ys.map g) :
    xs.filterMap r = ys.filterMap s := by
  induction xs generalizing ys with
  | nil => rw [List.map_eq_nil_iff.1 h.symm, List.filterMap_nil, List.filterMap_nil]
  | cons a xs ih =>
    obtain ⟨b, ys, rfl, hab, hrest⟩ := List.map_eq_cons_iff.1 h.symm
    rw [List.filterMap_cons, List.filterMap_cons, hrespects a b hab.symm, ih hrest.symm]

/-- The rows of the bindings of the stars of a path are the rows of the path. -/
theorem Named.filterMap_row? {given : Given} {aggregate : Direct.Valuation} (htable : given.table = N.table) {p : StarPath}
    (h : Named N p) (b : Binding) :
    (Direct.draws given (Direct.valueWith given aggregate) (p.generators N) b).filterMap
        (Direct.row? given (Direct.valueWith given aggregate) ((p.stops.map (starVar N)).map Node.keyVar) (p.node N .taking)) =
      p.rows given.input := by
  refine filterMap_eq_of_map_eq (fun c choice hc => ?_) (h.map_chosen_draws htable b)
  obtain ⟨hkeys, hvalue⟩ := Prod.mk.inj hc
  have hdeep : ∀ v ∈ p.stops.map (starVar N), given.table.isDeep v = false := by
    intro v hv
    obtain ⟨q, hq, rfl⟩ := List.mem_map.1 hv
    exact htable ▸ (h q hq).isDeep_eq_false (by decide)
  have hbound : (p.stops.map (starVar N)).map c = choice.1.map some := by
    rw [List.map_map]
    exact hkeys
  rw [Direct.row?, Direct.target?_keyVars hdeep hbound, Option.bind_some, hvalue]

/-! ## The numbers of the stars -/

end StarPath

/-- Naming after a collection that is new, by a name that is new. -/
theorem Naming.nameAfter_new {N : Naming} {tag : Char} {key : String} (hkey : ¬ key ∈ N.collections)
    (hname : ¬ (tag.toString ++ toString N.collections.length) ∈ N.table.names) :
    (N.nameAfter tag key).2 =
      ⟨⟨N.table.names ++ [tag.toString ++ toString N.collections.length]⟩, N.collections ++ [key]⟩ := by
  have hnumber : N.number key = (N.collections.length, ⟨N.table, N.collections ++ [key]⟩) := by
    rw [number, List.idxOf?_eq_none_iff.2 hkey]
  have hlookup : N.table.lookup? (tag.toString ++ toString N.collections.length) = none := List.idxOf?_eq_none_iff.2 hname
  rw [nameAfter, hnumber]
  change (Naming.intern _ (tag.toString ++ toString N.collections.length)).2 = _
  rw [intern, NameTable.intern, hlookup]

/-- Names after collections with the same letter differ in their numbers. -/
theorem Naming.name_inj {tag : Char} {i j : Nat} (h : tag.toString ++ toString i = tag.toString ++ toString j) : i = j := by
  have hname := congrArg String.toList h
  rw [toList_name, toList_name, List.cons.injEq] at hname
  rw [← Nat.ofDigitChars_ten_toDigits (n := i), hname.2, Nat.ofDigitChars_ten_toDigits]

namespace StarPath

/-- The stars of a path, and nothing else, are named, by numbers in the order of the path. -/
structure Numbered (p : StarPath) (N : Naming) : Prop where
  collections : N.collections = p.stops.map fun q => q.term.fingerprint
  names : N.table.names = (List.range p.stops.length).map fun i => 'D'.toString ++ toString i

/-- A further star gets the next number. -/
theorem Numbered.star {p : StarPath} {M : Naming} (h : Numbered p M) :
    Numbered (p.get .star) (M.nameAfter 'D' p.term.fingerprint).2 := by
  have hlen : M.collections.length = p.stops.length := by rw [h.collections, List.length_map]
  have hkey : ¬ p.term.fingerprint ∈ M.collections := by
    rw [h.collections, List.mem_map]
    rintro ⟨q, hq, heq⟩
    have hlt := sizeOf_lt_of_mem_stops hq
    rw [term_injective (Term.fingerprint_inj heq)] at hlt
    exact Nat.lt_irrefl _ hlt
  have hname : ¬ ('D'.toString ++ toString M.collections.length) ∈ M.table.names := by
    rw [h.names, List.mem_map]
    rintro ⟨i, hi, heq⟩
    have hlt := List.mem_range.1 hi
    rw [Naming.name_inj heq, hlen] at hlt
    exact Nat.lt_irrefl _ hlt
  rw [Naming.nameAfter_new hkey hname]
  constructor
  · rw [h.collections, stops, List.map_append]
    rfl
  · rw [h.names, hlen, stops, List.length_append, List.length_singleton, List.range_succ, List.map_append]
    rfl

/-- To name the stars of a path is to number them in the order of the path. -/
theorem ofTerm_numbered (p : StarPath) : Meets (Node.ofTerm p.term) {} fun _ M => Numbered p M := by
  induction p with
  | input => exact Meets.pure ⟨rfl, rfl⟩
  | get base key ih =>
    cases key with
    | name n =>
      rw [term, Segment.term, Node.ofTerm]
      · exact Meets.bind ih fun b M hM => Meets.pure ⟨hM.collections, hM.names⟩
      · exact Term.noConfusion
    | star =>
      rw [term, Segment.term, Node.ofTerm]
      refine Meets.bind ih fun b M hM => ?_
      have hstar : Meets (modifyGet fun naming => naming.nameAfter 'D' base.term.fingerprint) M fun _ L =>
          Numbered (base.get .star) L := hM.star
      exact Meets.bind hstar fun v L hL => Meets.pure hL

/-- The variables of the stars of a path are their numbers. -/
theorem Numbered.map_starVar {p : StarPath} (h : Numbered p N) (hnamed : Named N p) :
    p.stops.map (starVar N) = List.range p.stops.length := by
  have hnodup : p.stops.Nodup := List.Nodup.of_map _ hnamed.nodup_vars
  refine List.ext_getElem (by simp) fun i hi hi' => ?_
  rw [List.getElem_map, List.getElem_range]
  rw [List.length_map] at hi
  obtain ⟨j, hkey, hname⟩ := hnamed p.stops[i] (List.getElem_mem hi)
  have hvar : starVar N p.stops[i] = j := by
    have hget := Naming.getElem?_of_idxOf? hname
    rw [h.names, List.getElem?_map, Option.map_eq_some_iff] at hget
    obtain ⟨k, hk, hkj⟩ := hget
    obtain ⟨hlt, hvalue⟩ := List.getElem?_eq_some_iff.1 hk
    rw [List.getElem_range] at hvalue
    exact hvalue.trans (Naming.name_inj hkj)
  have hstop : p.stops[j]? = some p.stops[i] := by
    have hget := Naming.getElem?_of_idxOf? hkey
    rw [h.collections, List.getElem?_map, Option.map_eq_some_iff] at hget
    obtain ⟨q, hq, hqi⟩ := hget
    rw [hq, term_injective (Term.fingerprint_inj hqi)]
  rw [hvar]
  exact ((List.getElem?_inj hi hnodup).1 ((List.getElem?_eq_getElem hi).trans hstop.symm)).symm

/-- The keys of the grouping by the stars of a path are in the order of the path. -/
theorem Numbered.toList_stars {p : StarPath} (h : Numbered p N) (hnamed : Named N p) :
    (p.stars N).toList = p.stops.map (starVar N) := by
  refine VarSet.list_ext (p.stars N).ascending ?_ fun v => ?_
  · rw [h.map_starVar hnamed]
    exact List.pairwise_lt_range
  · rw [VarSet.mem_toList, mem_stars, List.mem_map]

end StarPath

/-! ## The program of a path -/

namespace Derivation

variable {q : Query} {D : Derivation q} {p : StarPath} (hterm : D.term = p.term)

include hterm

/-- The root of a path is its node, with its stars named. -/
theorem root_path : D.root = p.node D.naming .spanning ∧ p.Named D.naming := by
  have hreads := D.reads
  rw [hterm] at hreads
  obtain ⟨hnode, hnamed⟩ := StarPath.of_reads hreads
  refine ⟨?_, hnamed⟩
  rw [root, hnode, StarPath.withExtents_node]

/-- In a path that is a whole query nothing but its stars is named, so they are numbered in order. -/
theorem numbered_path : p.Numbered D.naming := by
  have hmeets := p.ofTerm_numbered
  rwa [← hterm, Meets, D.named] at hmeets

/-- The stars of a path index its result, whatever output is wanted. -/
theorem indexOf_path (output : Output) : output.indexOf D.root = p.stars D.naming := by
  rw [(root_path hterm).1]
  cases output <;> rw [Output.indexOf, StarPath.info_node] <;> rfl

/-- The result of a path without stars is indexed by nothing. -/
theorem tree_path_of_stops_eq (h : p.stops = []) (output : Output) : D.tree output = p.node D.naming .taking := by
  have hindex : output.indexOf D.root = ∅ := by
    rw [indexOf_path hterm, StarPath.stars, h]
    rfl
  rw [D.tree_of_indexOf hindex, (root_path hterm).1, StarPath.annotated_node]

/-- The result of a path with stars is grouped by them. -/
theorem tree_path_of_stops_ne (h : p.stops ≠ []) (output : Output) :
    D.tree output = (p.node D.naming .taking).groupedBy (p.stars D.naming) := by
  have hne : p.stars D.naming ≠ ∅ := by
    obtain ⟨r, rest, hstops⟩ := List.exists_cons_of_ne_nil h
    have hmem : r.starVar D.naming ∈ p.stars D.naming := StarPath.mem_stars.2 ⟨r, hstops ▸ List.mem_cons_self, rfl⟩
    intro hempty
    rw [hempty] at hmem
    exact VarSet.not_mem_empty _ hmem
  rw [D.tree_of_indexOf_ne (indexOf_path hterm output) hne, (root_path hterm).1, StarPath.annotated_node]

/-- The generators of a path are its stars. -/
theorem generators_path (options : Options) : (D.setting options).generators = p.generators D.naming := by
  refine generators_of_filters (root_path hterm).2 ?_
  by_cases h : p.stops = []
  · rw [tree_path_of_stops_eq hterm h, StarPath.filters_node]
  · rw [tree_path_of_stops_ne hterm h, Node.filters_groupedBy, StarPath.filters_node]

/-- A path needs no aggregate in a source, so that it has a program. -/
theorem exists_compiles_path (options : Options) : ∃ c, compile q options = .ok c ∧ Compiles q options c D :=
  exists_compiles_of_generators (generators_path hterm options)

end Derivation

/-- A path without stars leads to one value, which its program gives. -/
theorem StarPath.values_of_stops_eq {given : Given} {aggregate : Direct.Valuation} {N : Naming} (htable : given.table = N.table)
    {p : StarPath} (hnamed : Named N p) (h : p.stops = []) (b : Binding) :
    p.values given.input = [Direct.valueWith given aggregate b (p.node N .taking)] := by
  have hdraws : Direct.draws given (Direct.valueWith given aggregate) (p.generators N) b = [b] := by
    rw [generators, h]
    rfl
  have hvalues : (Direct.draws given (Direct.valueWith given aggregate) (p.generators N) b).map
      (Direct.valueWith given aggregate · (p.node N .taking)) = p.values given.input := hnamed.map_value_draws htable b
  rw [← hvalues, hdraws, List.map_singleton]

/-- A star path as a whole query. Whatever the options, it compiles. Without stars its result on an input is the value that it
leads to. With stars it is an object, as deep as there are stars, in which the texts of the keys chosen for the stars lead to the
value of the path, for the choices of the nested iteration under which this is defined and for no others. No inner object is empty,
and the names of every object stand in the order in which they are first inserted. -/
theorem star_paths_group_by_their_stars (p : StarPath) (implicit : Bool) (options : Options) :
    ∃ c, compile (p.query implicit) options = .ok c ∧ ∀ input functions,
      (p.stops = [] → p.values input = [c.program.run input functions]) ∧
      (p.stops ≠ [] → ∃ r, c.program.run input functions = some r ∧ Json.Groups p.stops.length (p.rows input) r) := by
  obtain ⟨D, hterm⟩ := exists_derivation (p.ofQuery_query implicit) (p.starsKeyed_term false)
  obtain ⟨c, hc, hD⟩ := Derivation.exists_compiles_path hterm options
  obtain ⟨-, hnamed⟩ := Derivation.root_path hterm
  have hnames : D.term.names = [] := by rw [hterm, StarPath.names_term]
  refine ⟨c, hc, fun input functions => ?_⟩
  rw [hD.run_eq (hD.diagnostics_eq_nil hnames) input functions (Nat.le_succ c.program.slots),
    Derivation.generators_path hterm]
  refine ⟨fun h => ?_, fun h => ⟨_, ?_, p.groups_rows input h⟩⟩
  · rw [Derivation.tree_path_of_stops_eq hterm h]
    exact @StarPath.values_of_stops_eq ⟨input, functions, D.naming.table⟩ _ D.naming rfl p hnamed h Binding.empty
  · have hfilter := List.Perm.of_eq (StarPath.filter_generators (N := D.naming) p)
    rw [Derivation.tree_path_of_stops_ne hterm h, Direct.value_groupedBy,
      Direct.nestBindings_chain hfilter hnamed.chain (StarPath.bound_place_generators p),
      (Derivation.numbered_path hterm).toList_stars hnamed]
    exact congrArg (fun rows => some (Json.assemble rows)) (hnamed.filterMap_row? rfl Binding.empty)

/-- The prices of the goods of all shops. -/
def shopPrices : StarPath := .append .input [.name ⟨"shops", by decide⟩, .star, .name ⟨"prices", by decide⟩, .star]

/-- Two shops, of which one has no prices. -/
def twoShops : Json :=
  .obj [("shops", .obj [("north", .obj [("prices", .obj [("tea", Json.ofInt 3), ("jam", Json.ofInt 5)])]), ("south", .obj [])])]

/-- Prices by shop and goods: the shop without prices is left out. -/
theorem star_paths_group_by_their_stars_prices :
    shopPrices.stops ≠ [] ∧ ∃ c r, compile (shopPrices.query true) {} = .ok c ∧
      c.program.run twoShops Functions.none = some r ∧ (Json.fieldsOf (some r)).names = ["north"] ∧
      Json.at? ["north", "jam"] (some r) = some (Json.ofInt 5) := by
  have hstops : shopPrices.stops ≠ [] := by decide
  obtain ⟨c, hc, hrun⟩ := star_paths_group_by_their_stars shopPrices true {}
  obtain ⟨r, hr, hgroups⟩ := (hrun twoShops Functions.none).2 hstops
  have hrows : shopPrices.rows twoShops = [(["north", "tea"], Json.ofInt 3), (["north", "jam"], Json.ofInt 5)] := rfl
  rw [hrows] at hgroups
  refine ⟨hstops, c, r, hc, hr, hgroups.ordered [] (by decide), (hgroups.leads _ _ rfl).2 ?_⟩
  exact List.mem_cons_of_mem _ List.mem_cons_self

end StarQuery
