import StarQuery.Proofs.Path.Reduction
import StarQuery.Proofs.Term.Rename

/-!
# Paths through a named variable

A path may name the variable that ranges over the keys of what the path has come to. Here such a path reaches the variable through
names alone, so that the variable depends on no other, and goes on through names. As with star paths, one definition gives the
node at every stage (`VarPath.node`); the path has one generator, which needs nothing (`VarPath.generator`).
-/

namespace StarQuery

/-! ## Variables that depend on no others -/

namespace Node

/-- Variables are looked up only in what ranges over no variable. -/
def Independent (root : Node) : Prop := ∀ n ∈ root.filters, ∀ base ∈ n.filterSource?, base.info.dims = ∅

/-- Where variables are looked up only in what ranges over none, each depends on itself alone. -/
theorem Independent.of_subset {root : Node} (h : Independent root) (t : NameTable) (v : Var) :
    (root.dependencies t).of v ⊆ .single v := by
  refine Dependencies.of_ofDirect_subset (fun u _ w hw => ?_) (VarSet.mem_single.2 rfl)
  obtain ⟨i, base, j, hmem, hdims⟩ := mem_directDependences hw
  rw [h _ (List.mem_filter.2 ⟨hmem, rfl⟩) base rfl] at hdims
  exact absurd hdims (VarSet.not_mem_empty w)

/-- Where each variable depends on itself alone, whatever the variables of a part depend on occurs in the part. -/
theorem Independent.dependent {root : Node} (h : Independent root) (t : NameTable) : Dependent (root.dependencies t) root := by
  intro m _ _ v hv w hw
  rwa [VarSet.mem_single.1 (h.of_subset t v w hw)]

end Node

/-! ## Lookups of names -/

/-- Names looked up in the value of a term, one after the other. -/
def Term.lookups (names : List PlainName) (t : Term) : Term := names.foldl (fun t n => .get t (.const (.str n.text))) t

/-- Looking names up does not make an aggregate of a term. -/
theorem Term.gathers_lookups {t : Term} (h : t.gathers = false) (names : List PlainName) : (t.lookups names).gathers = false := by
  induction names generalizing t with
  | nil => exact h
  | cons n names ih => exact ih rfl

/-- Looking names up leaves the stars of a term where they are. -/
theorem Term.starsKeyed_lookups {t : Term} (names : List PlainName) (h : t.starsKeyed false = true) :
    (t.lookups names).starsKeyed false = true := by
  induction names generalizing t with
  | nil => exact h
  | cons n names ih =>
    refine ih ?_
    rw [starsKeyed, h]
    rfl

namespace Node

/-- Names looked up in a node, one after the other; `i` are the sets of the lookups, `j` those of the names. -/
def lookups (i j : VarInfo) (names : List PlainName) (n : Node) : Node :=
  names.foldl (fun n name => .get i n (.const j (.str name.text))) n

variable {i j : VarInfo} (names : List PlainName)

/-- The lookups of names have the sets of what they look into. -/
theorem info_lookups {n : Node} (h : n.info = i) : (n.lookups i j names).info = i := by
  induction names generalizing n with
  | nil => exact h
  | cons name names ih => exact ih rfl

/-- Lookups of names in a term read as lookups of names in its node. -/
theorem of_reads_lookups {N : Naming} {t : Term} {n : Node} (h : Reads N (t.lookups names) n) :
    ∃ m, Reads N t m ∧ n = m.lookups {} {} names := by
  induction names generalizing t with
  | nil => exact ⟨n, h, rfl⟩
  | cons name names ih =>
    obtain ⟨m, hm, rfl⟩ := ih h
    cases hm with
    | get hbase hkey =>
      cases hkey
      exact ⟨_, hbase, rfl⟩

/-- Lookups of names add no lookup of a variable. -/
theorem filters_lookups (n : Node) : (n.lookups i j names).filters = n.filters := by
  induction names generalizing n with
  | nil => rfl
  | cons name names ih =>
    refine (ih _).trans ?_
    rw [filters_eq]
    simp [children, filterVar?, asVar?, filters_eq (.const j _)]

/-- Lookups of names read no aggregate of their own. -/
theorem readsOf_lookups (n : Node) : Program.readsOf (n.lookups i j names) = Program.readsOf n := by
  induction names generalizing n with
  | nil => rfl
  | cons name names ih =>
    refine (ih _).trans ?_
    rw [Program.readsOf]
    exact List.append_nil _

/-- The bottom-up pass gives lookups of names the variables of what they look into. -/
theorem withExtents_lookups {n : Node} {s : VarSet} (h : n.withExtents.info = .spanning s) :
    (n.lookups {} {} names).withExtents = n.withExtents.lookups (.spanning s) (.spanning ∅) names := by
  induction names generalizing n with
  | nil => rfl
  | cons name names ih =>
    have hget : (Node.get {} n (.const {} (.str name.text))).withExtents =
        .get (.spanning s) n.withExtents (.const (.spanning ∅) (.str name.text)) := by
      simp [withExtents, settleExtent, setInfo, extent, jointExtent, h, VarInfo.spanning]
    refine (ih (by rw [hget]; rfl)).trans ?_
    rw [hget]
    rfl

/-- The passes from the root down do not change what names are looked up in, if that takes what it ranges over. -/
theorem annotated_lookups (d : Dependencies) {n m : Node} {s : VarSet} {outB outF : VarSet} {path : List Grouping}
    (hn : annotated d n outB outF path = m) (hm : m.info = .taking s) :
    annotated d (n.lookups (.spanning s) (.spanning ∅) names) outB outF path = m.lookups (.taking s) (.taking ∅) names := by
  induction names generalizing n m with
  | nil => exact hn
  | cons name names ih =>
    refine ih ?_ rfl
    have hallBound : (n.withBound outB).info.allBound = ∅ := by
      rw [← allBound_withFree d _ outF path]
      unfold annotated at hn
      rw [hn, hm]
      rfl
    unfold annotated at hn ⊢
    simp [withBound, withFree, setBound, setFree, setJointFree, setInfo, children, hn, hm, hallBound, VarInfo.spanning,
      VarInfo.taking]

/-- Looking names up leaves a tree drawn. -/
theorem Drawn.lookups {n : Node} {s : VarSet} (h : Drawn n) (hn : n.info = .spanning s) :
    Drawn (n.lookups (.spanning s) (.spanning ∅) names) := by
  induction names generalizing n with
  | nil => exact h
  | cons name names ih =>
    have hconst : Drawn (Node.const (.spanning ∅) (.str name.text)) :=
      .joint (n := .const {} (.str name.text)) rfl fun c hc => absurd hc List.not_mem_nil
    have hsettle : (Node.get {} n (.const (.spanning ∅) (.str name.text))).settleExtent =
        .get (.spanning s) n (.const (.spanning ∅) (.str name.text)) := by
      simp [settleExtent, setInfo, extent, jointExtent, hn, VarInfo.spanning]
    have hget : Drawn (.get (.spanning s) n (.const (.spanning ∅) (.str name.text))) := by
      rw [← hsettle]
      refine .joint rfl fun c hc => ?_
      rcases mem_children_get.1 hc with rfl | rfl
      · exact h
      · exact hconst
    exact ih hget rfl

/-- The value of lookups of names is the part that the names lead to. -/
theorem value_lookups {given : Given} {aggregate : Direct.Valuation} (b : Binding) (n : Node) :
    Direct.valueWith given aggregate b (n.lookups i j names) = StarQuery.lookups names (Direct.valueWith given aggregate b n) := by
  induction names generalizing n with
  | nil => rfl
  | cons name names ih => exact ih _

end Node

/-! ## Paths -/

/-- Identifiers looked up one after the other, beginning with the input. The first lookup may be written without its base. -/
def Query.along (implicit : Bool) : List String → Query
  | [] => .input
  | first :: rest =>
    rest.foldl (fun base ident => .get base (.ident ident))
      (if implicit then .member (.ident first) else .get .input (.ident first))

/-- A name that a query gives to a variable: it begins with a star, and is more than one star or two. -/
structure VarName where
  text : String
  named : Query.isNamed text = true
  deriving DecidableEq

namespace VarName

/-- The variable of a name. -/
def var (N : Naming) (x : VarName) : Var := (N.table.lookup? x.text).getD 0

/-- The name has a variable. -/
def Known (N : Naming) (x : VarName) : Prop := N.table.lookup? x.text = some (x.var N)

/-- A variable is deep if its name is. -/
theorem Known.isDeep {N : Naming} {x : VarName} (h : x.Known N) :
    N.table.isDeep (x.var N) = NameTable.isDeepName x.text := by
  rw [NameTable.isDeep, (NameTable.name_of_lookup? h).2]

/-- Variables with different names are different. -/
theorem Known.inj {N : Naming} {x y : VarName} (hx : x.Known N) (hy : y.Known N) (h : x.var N = y.var N) : x = y := by
  have hname := (NameTable.name_of_lookup? hx).2
  rw [h, (NameTable.name_of_lookup? hy).2] at hname
  cases x
  cases y
  cases hname
  rfl

end VarName

/-- A path from the input through names to a variable, and on through names. -/
structure VarPath where
  before : List PlainName
  name : VarName
  after : List PlainName
  deriving DecidableEq

namespace VarPath

/-- A path as a query. -/
def query (implicit : Bool) (p : VarPath) : Query :=
  .along implicit (p.before.map PlainName.text ++ p.name.text :: p.after.map PlainName.text)

/-- What a path is as a term. -/
def term (p : VarPath) : Term := (Term.get (Term.input.lookups p.before) (.var p.name.text)).lookups p.after

section
variable (N : Naming)

/-- The node of what the variable of a path ranges over, if the sets of a node are some function of the variables that it ranges
over. -/
def source (sets : VarSet → VarInfo) (p : VarPath) : Node := (Node.input (sets ∅)).lookups (sets ∅) (sets ∅) p.before

/-- The lookup of the variable of a path. -/
def filter (sets : VarSet → VarInfo) (p : VarPath) : Node :=
  .get (sets (.single (p.name.var N))) (p.source sets) (.var (sets (.single (p.name.var N))) (p.name.var N))

/-- The node of a path. -/
def node (sets : VarSet → VarInfo) (p : VarPath) : Node :=
  (p.filter N sets).lookups (sets (.single (p.name.var N))) (sets ∅) p.after

/-- The generator of the variable of a path. -/
def generator (p : VarPath) : Generator := ⟨p.name.var N, p.source .taking, (p.filter N .taking).text N.table⟩

end

variable {N : Naming} {sets : VarSet → VarInfo} (p : VarPath)

/-! ## What a path reads as -/

/-- A lookup of an identifier resolves to the lookup of what it stands for. -/
theorem ofQuery_get {q : Query} {t k : Term} {ident : String} (hbase : Term.ofQuery q = .ok t)
    (hkey : Term.ofIdent ident = .ok k) : Term.ofQuery (.get q (.ident ident)) = .ok (.get t k) := by
  rw [Term.ofQuery, hbase, Term.ofQuery, hkey]
  rfl

/-- The first lookup of a path resolves the same with its base and without it. -/
theorem ofQuery_first (implicit : Bool) {ident : String} {k : Term} (hkey : Term.ofIdent ident = .ok k) :
    Term.ofQuery (if implicit then .member (.ident ident) else .get .input (.ident ident)) = .ok (.get .input k) := by
  cases implicit with
  | false => exact ofQuery_get rfl hkey
  | true =>
    rw [if_pos rfl, Term.ofQuery, Term.ofQuery, hkey]
    rfl

/-- Lookups of names resolve to lookups of names. -/
theorem ofQuery_names {q : Query} {t : Term} (h : Term.ofQuery q = .ok t) (names : List PlainName) :
    Term.ofQuery ((names.map PlainName.text).foldl (fun base ident => .get base (.ident ident)) q) = .ok (t.lookups names) := by
  induction names generalizing q t with
  | nil => exact h
  | cons n names ih => exact ih (ofQuery_get h (Segment.name n).ofIdent_eq)

/-- A path resolves to its term, written with its base or without it. -/
theorem ofQuery_query (implicit : Bool) : Term.ofQuery (p.query implicit) = .ok p.term := by
  obtain ⟨before, x, after⟩ := p
  have hvar := Term.ofIdent_of_named x.named
  cases before with
  | nil => exact ofQuery_names (ofQuery_first implicit hvar) after
  | cons n before =>
    have hbefore := ofQuery_names (ofQuery_first implicit (Segment.name n).ofIdent_eq) before
    rw [query, List.map_cons, List.cons_append, Query.along, List.foldl_append, List.foldl_cons]
    exact ofQuery_names (ofQuery_get hbefore hvar) after

/-- There is no anonymous star in a path through a named variable. -/
theorem starsKeyed_term : p.term.starsKeyed false = true := by
  refine Term.starsKeyed_lookups p.after ?_
  rw [Term.starsKeyed, Term.starsKeyed_lookups p.before rfl]
  rfl

/-- A path reads as its node without sets, if its variable is known. -/
theorem of_reads {p : VarPath} {n : Node} (h : Node.Reads N p.term n) : n = p.node N (fun _ => {}) ∧ p.name.Known N := by
  obtain ⟨m, hm, rfl⟩ := Node.of_reads_lookups p.after h
  cases hm with
  | get hbase hkey =>
    cases hkey with
    | @var _ v hv =>
      obtain ⟨b, hb, rfl⟩ := Node.of_reads_lookups p.before hbase
      cases hb
      have hvar : p.name.var N = v := by rw [VarName.var, hv, Option.getD_some]
      refine ⟨?_, ?_⟩
      · rw [node, filter, source, hvar]
      · rw [VarName.Known, hvar, hv]

theorem info_source : (p.source sets).info = sets ∅ := Node.info_lookups _ rfl

theorem info_node : (p.node N sets).info = sets (.single (p.name.var N)) := Node.info_lookups _ rfl

/-- The generator of a path needs nothing. -/
theorem needs_generator : (p.generator N).needs = ∅ := by
  rw [Generator.needs, generator, info_source]
  rfl

/-! ## The passes -/

/-- The bottom-up pass gives a path its variable. -/
theorem withExtents_node : (p.node N fun _ => {}).withExtents = p.node N .spanning := by
  have hsource : (p.source fun _ => {}).withExtents = p.source .spanning := Node.withExtents_lookups p.before rfl
  have hfilter : (p.filter N fun _ => {}).withExtents = p.filter N .spanning := by
    simp [filter, Node.withExtents, hsource, Node.settleExtent, Node.setInfo, Node.extent, Node.jointExtent, info_source,
      VarInfo.spanning, VarSet.empty_union]
  rw [node, Node.withExtents_lookups p.after (by rw [hfilter]; rfl), hfilter]
  rfl

/-- The passes from the root down give a path the variable that it ranges over, whatever is provided. -/
theorem annotated_node (d : Dependencies) (outB outF : VarSet) (path : List Grouping) :
    Node.annotated d (p.node N .spanning) outB outF path = p.node N .taking := by
  have hsource : Node.annotated d (p.source .spanning) outB outF path = p.source .taking :=
    Node.annotated_lookups p.before d rfl rfl
  have hallBound : ((p.source .spanning).withBound outB).info.allBound = ∅ := by
    rw [← Node.allBound_withFree d _ outF path]
    unfold Node.annotated at hsource
    rw [hsource, info_source]
    rfl
  refine Node.annotated_lookups p.after d ?_ rfl
  unfold Node.annotated at hsource ⊢
  simp [filter, Node.withBound, Node.withFree, Node.setBound, Node.setFree, Node.setJointFree, Node.setInfo, Node.children,
    hsource, hallBound, info_source, VarInfo.spanning, VarInfo.taking, VarSet.empty_union]

/-- The node of a path is drawn after the bottom-up pass. -/
theorem drawn_node : Node.Drawn (p.node N .spanning) := by
  have hinput : Node.Drawn (.input (.spanning ∅)) :=
    .joint (n := .input {}) rfl fun c hc => absurd hc List.not_mem_nil
  have hsource : Node.Drawn (p.source .spanning) := hinput.lookups p.before rfl
  have hsettle : (Node.get {} (p.source .spanning) (Node.measuredVar (p.name.var N))).settleExtent = p.filter N .spanning := by
    simp [Node.settleExtent, Node.setInfo, Node.extent, Node.jointExtent, info_source, filter, Node.measuredVar,
      VarInfo.spanning, VarSet.empty_union]
  have hfilter : Node.Drawn (p.filter N .spanning) := hsettle ▸ hsource.draw
  exact hfilter.lookups p.after rfl

/-- The variable of a path is looked up once. -/
theorem filters_node : (p.node N sets).filters = [p.filter N sets] := by
  have hsource : (p.source sets).filters = [] := (Node.filters_lookups p.before _).trans rfl
  rw [node, Node.filters_lookups, Node.filters_eq]
  simp [filter, Node.children, Node.filterVar?, Node.asVar?, hsource, Node.filters_eq (.var _ _)]

/-- The variable of a path depends on no other. -/
theorem independent_node : Node.Independent (p.node N .spanning) := by
  intro n hn base hbase
  rw [filters_node, List.mem_singleton] at hn
  subst hn
  cases hbase
  rw [info_source]
  rfl

/-- What the variable ranges over reads no aggregate. -/
theorem readsOf_source : Program.readsOf (p.source sets) = [] := Node.readsOf_lookups p.before _

/-! ## Values -/

section
variable {given : Given} {aggregate : Direct.Valuation}

/-- The variable ranges over what the names before it lead to. -/
theorem value_source (b : Binding) :
    Direct.valueWith given aggregate b (p.source sets) = lookups p.before (some given.input) :=
  Node.value_lookups p.before b _

/-- The value of a path is what the names after the variable lead to, from the part under its key or its key path. -/
theorem value_node (b : Binding) :
    Direct.valueWith given aggregate b (p.node N sets) = lookups p.after ((lookups p.before (some given.input)).bind fun c =>
      (b (p.name.var N)).bind fun k => if given.table.isDeep (p.name.var N) then c.getPath? k else c.get? k) := by
  have hdeep : (Node.var (sets (.single (p.name.var N))) (p.name.var N)).asVar?.any given.table.isDeep =
      given.table.isDeep (p.name.var N) := rfl
  rw [node, Node.value_lookups, filter, Direct.valueWith, value_source, Direct.valueWith, hdeep]

end

end VarPath

end StarQuery
