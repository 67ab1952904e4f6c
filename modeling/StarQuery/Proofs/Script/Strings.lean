import StarQuery.Proofs.Naming.Table
import StarQuery.Proofs.Script.OneLine

/-!
# The strings of a query

A listing shows identifiers, strings and the names of hints as they are, all else in words and signs of its own. The strings of a
query reach its term and its tree: one is a single line just if the others are (`Term.oneLine_ofQuery`, `Node.Reads.oneLine_iff`),
and so is the text of the tree (`Node.oneLine_text_iff`).
-/

namespace StarQuery

/-- The string that a value is, if it is one. -/
def Json.bareStrings : Json → List String
  | .str s => [s]
  | _ => []

/-- A value is shown in one line just if it is no string, or one of one line. -/
theorem Json.oneLine_plain (v : Json) : OneLine v.plain ↔ ∀ s ∈ v.bareStrings, OneLine s := by
  cases v with
  | str s => exact List.forall_mem_singleton.symm
  | _ => exact iff_of_true (oneLine_text _) fun _ h => absurd h List.not_mem_nil

mutual
/-- The strings of a query: its identifiers, and its constants that are strings. -/
def Query.bareStrings : Query → List String
  | .input => []
  | .const value => value.bareStrings
  | .ident name => [name]
  | .member key => bareStrings key
  | .get base key => bareStrings base ++ bareStrings key
  | .apply head args | .hint head args => bareStrings head ++ listBareStrings args
  | .op _ args | .array args => listBareStrings args
  | .object entries => entryBareStrings entries
/-- The strings of a list of queries. -/
def Query.listBareStrings : List Query → List String
  | [] => []
  | q :: rest => Query.bareStrings q ++ Query.listBareStrings rest
/-- The strings of the entries of an object literal. -/
def Query.entryBareStrings : List (Query × Query) → List String
  | [] => []
  | (key, value) :: rest => Query.bareStrings key ++ Query.bareStrings value ++ Query.entryBareStrings rest
end

mutual
/-- The strings of a term: its names, its constants that are strings, and the names of its hints. -/
def Term.bareStrings : Term → List String
  | .input | .star => []
  | .const value => value.bareStrings
  | .var name => [name]
  | .get base key => bareStrings base ++ bareStrings key
  | .pointwise _ args => listBareStrings args
  | .hint op args => op :: listBareStrings args
  | .keySet arg | .reduce _ arg | .scan _ arg => bareStrings arg
  | .group key value => bareStrings key ++ bareStrings value
  | .update base key value => bareStrings base ++ bareStrings key ++ bareStrings value
/-- The strings of a list of terms. -/
def Term.listBareStrings : List Term → List String
  | [] => []
  | t :: rest => Term.bareStrings t ++ Term.listBareStrings rest
end

mutual
/-- The strings of a node, under the names of its variables. -/
def Node.bareStrings (t : NameTable) : Node → List String
  | .input _ => []
  | .const _ value => value.bareStrings
  | .var _ v => [t.name v]
  | .get _ base key => bareStrings t base ++ bareStrings t key
  | .pointwise _ _ args => listBareStrings t args
  | .hint _ op args => op :: listBareStrings t args
  | .keySet _ arg | .reduce _ _ _ arg | .scan _ _ _ arg => bareStrings t arg
  | .update _ base key value filter =>
    bareStrings t base ++ bareStrings t key ++ bareStrings t value ++ filterBareStrings t filter
/-- The strings of a list of nodes. -/
def Node.listBareStrings (t : NameTable) : List Node → List String
  | [] => []
  | n :: rest => Node.bareStrings t n ++ Node.listBareStrings t rest
/-- The strings of the filter of an update. -/
def Node.filterBareStrings (t : NameTable) : Option Node → List String
  | none => []
  | some n => Node.bareStrings t n
end

/-! ## The text of a node -/

namespace Node

mutual
/-- The text of a node is one line just if its strings are. -/
theorem oneLine_text_iff (t : NameTable) : ∀ n : Node, OneLine (n.text t) ↔ ∀ s ∈ n.bareStrings t, OneLine s
  | .input _ => iff_of_true (by decide : OneLine "inp") fun _ h => absurd h List.not_mem_nil
  | .const _ value => value.oneLine_plain
  | .var _ v => List.forall_mem_singleton.symm
  | .get _ base key => by
    have hbase := oneLine_text_iff t base
    have hkey := oneLine_text_iff t key
    cases base with
    | input => exact hkey
    | _ =>
      change OneLine (text t _ ++ "[" ++ text t key ++ "]") ↔ ∀ s ∈ bareStrings t _ ++ bareStrings t key, OneLine s
      simp +decide only [oneLine_append, hbase, hkey, and_true, List.forall_mem_append]
  | .pointwise _ op args => by
    change OneLine (op.name ++ "(" ++ listText t args ++ ")") ↔ ∀ s ∈ listBareStrings t args, OneLine s
    simp +decide only [oneLine_append, op.oneLine_name, oneLine_listText_iff t args, true_and, and_true]
  | .hint _ op args => by
    change OneLine ("hint:" ++ op ++ "(" ++ listText t args ++ ")") ↔ ∀ s ∈ op :: listBareStrings t args, OneLine s
    simp +decide only [oneLine_append, oneLine_listText_iff t args, true_and, and_true, List.forall_mem_cons]
  | .keySet _ arg => by
    change OneLine ("mkset(" ++ text t arg ++ ")") ↔ ∀ s ∈ arg.bareStrings t, OneLine s
    simp +decide only [oneLine_append, oneLine_text_iff t arg, true_and, and_true]
  | .reduce _ op _ arg => by
    change OneLine (op.name ++ "(" ++ text t arg ++ ")") ↔ ∀ s ∈ arg.bareStrings t, OneLine s
    simp +decide only [oneLine_append, op.oneLine_name, oneLine_text_iff t arg, true_and, and_true]
  | .scan _ op _ arg => by
    change OneLine ("prefix_" ++ op.name ++ "(" ++ text t arg ++ ")") ↔ ∀ s ∈ arg.bareStrings t, OneLine s
    simp +decide only [oneLine_append, op.oneLine_name, oneLine_text_iff t arg, true_and, and_true]
  | .update _ base key value filter => by
    change OneLine (text t base ++ "\x7b " ++ text t key ++ ": " ++ text t value ++ " \x7d" ++ filterText t filter) ↔
      ∀ s ∈ bareStrings t base ++ bareStrings t key ++ bareStrings t value ++ filterBareStrings t filter, OneLine s
    simp +decide only [oneLine_append, oneLine_text_iff t base, oneLine_text_iff t key, oneLine_text_iff t value,
      oneLine_filterText_iff t filter, and_true, List.forall_mem_append]
/-- The texts of a list of nodes are one line just if their strings are. -/
theorem oneLine_listText_iff (t : NameTable) : ∀ ns : List Node, OneLine (listText t ns) ↔ ∀ s ∈ listBareStrings t ns, OneLine s
  | [] => iff_of_true (by decide : OneLine "") fun _ h => absurd h List.not_mem_nil
  | [n] => by
    rw [listBareStrings, listBareStrings, List.append_nil]
    exact oneLine_text_iff t n
  | n :: n' :: rest => by
    change OneLine (text t n ++ ", " ++ listText t (n' :: rest)) ↔
      ∀ s ∈ bareStrings t n ++ listBareStrings t (n' :: rest), OneLine s
    simp +decide only [oneLine_append, oneLine_text_iff t n, oneLine_listText_iff t (n' :: rest), and_true,
      List.forall_mem_append]
/-- The text of a filter is one line just if its strings are. -/
theorem oneLine_filterText_iff (t : NameTable) : ∀ filter : Option Node,
    OneLine (filterText t filter) ↔ ∀ s ∈ filterBareStrings t filter, OneLine s
  | none => iff_of_true (by decide : OneLine "") fun _ h => absurd h List.not_mem_nil
  | some n => by
    change OneLine (" / " ++ text t n) ↔ ∀ s ∈ n.bareStrings t, OneLine s
    simp +decide only [oneLine_append, oneLine_text_iff t n, true_and]
end

/-- The strings of a list of nodes are those of each. -/
theorem listBareStrings_eq (t : NameTable) (ns : List Node) : listBareStrings t ns = ns.flatMap (bareStrings t) := by
  induction ns with
  | nil => rfl
  | cons n ns ih => rw [listBareStrings, ih, List.flatMap_cons]

/-- The strings of a part of a node are strings of the node. -/
theorem bareStrings_subset_of_mem_children {t : NameTable} {c n : Node} (h : c ∈ n.children) :
    c.bareStrings t ⊆ n.bareStrings t := by
  cases n with
  | input | const | var => cases h
  | get i base key =>
    simp only [children, List.mem_cons, List.not_mem_nil, or_false] at h
    rcases h with rfl | rfl <;> simp [bareStrings]
  | pointwise i op args =>
    rw [bareStrings, listBareStrings_eq]
    exact fun s hs => List.mem_flatMap.2 ⟨c, h, hs⟩
  | hint i op args =>
    rw [bareStrings, listBareStrings_eq]
    exact fun s hs => List.mem_cons_of_mem _ (List.mem_flatMap.2 ⟨c, h, hs⟩)
  | keySet i arg | reduce i op mode arg | scan i op mode arg =>
    rw [List.mem_singleton.1 h]
    exact List.Subset.refl _
  | update i base key value filter =>
    simp only [children, List.mem_append, List.mem_cons, List.not_mem_nil, or_false, Option.mem_toList] at h
    intro s hs
    rcases h with (rfl | rfl | rfl) | rfl <;> simp [bareStrings, filterBareStrings, hs]

/-- The strings of a node of a tree are strings of the tree. -/
theorem bareStrings_subset {t : NameTable} {m n : Node} (h : m ∈ n.postorder) : m.bareStrings t ⊆ n.bareStrings t := by
  induction n using inductParts with
  | step n ih =>
    rcases mem_postorder.1 h with rfl | ⟨c, hc, hm⟩
    · exact List.Subset.refl _
    · exact List.Subset.trans (ih c hc hm) (bareStrings_subset_of_mem_children hc)

/-- The variable sets of a node do not show in its strings. -/
theorem bareStrings_bare (t : NameTable) (n : Node) : n.bare.bareStrings t = n.bareStrings t := by
  induction n using Node.induct with
  | input | const | var => rfl
  | get i base key hbase hkey => rw [bare, bareStrings, bareStrings, hbase, hkey]
  | pointwise i op args ih | hint i op args ih =>
    rw [bare, bareStrings, bareStrings, listBare_eq, listBareStrings_eq, listBareStrings_eq, List.flatMap_map,
      List.flatMap_congr ih]
  | keySet i arg ih | reduce i op mode arg ih | scan i op mode arg ih => rw [bare, bareStrings, bareStrings, ih]
  | update i base key value filter hbase hkey hvalue hfilter =>
    rw [bare, bareStrings, bareStrings, hbase, hkey, hvalue]
    cases filter with
    | none => rfl
    | some f => rw [optionBare, filterBareStrings, filterBareStrings, hfilter f rfl]

end Node

/-! ## The node of a term -/

/-- A name after a collection is one line: a letter and digits. -/
theorem IsNumbered.oneLine {x : String} (h : IsNumbered x) : OneLine x := by
  obtain ⟨tag, i, htag, hlist⟩ := h
  rw [OneLine, hlist, List.mem_cons, not_or]
  refine ⟨?_, fun hmem => absurd (Decimal.isDigit_toDigits i _ hmem) (by decide)⟩
  rintro rfl
  exact absurd htag (by decide)

/-- A variable that is named after a collection has a name of one line. -/
theorem Naming.NamedAfter.oneLine {N : Naming} {tag : Char} (htag : tag ∈ ['D', 'K']) {key : String} {v : Var}
    (h : N.NamedAfter tag key v) : OneLine (N.table.name v) := by
  obtain ⟨i, -, hi⟩ := h
  rw [(NameTable.name_of_lookup? hi).2]
  exact IsNumbered.oneLine ⟨tag, i, htag, Naming.toList_name tag i⟩

/-- The strings of a list of terms are those of each. -/
theorem Term.listBareStrings_eq (ts : List Term) : listBareStrings ts = ts.flatMap bareStrings := by
  induction ts with
  | nil => rfl
  | cons t ts ih => rw [listBareStrings, ih, List.flatMap_cons]

namespace Node

/-- Gathering a value adds no string. -/
theorem bareStrings_gathered (t : NameTable) (term : Term) (n : Node) : (gathered term n).bareStrings t = n.bareStrings t := by
  unfold gathered
  split <;> rfl

/-- Strings of terms are single lines just if those of their nodes are, if this holds of each. -/
theorem oneLine_zip_iff {t : NameTable} {ts : List Term} {ns : List Node} (hlen : ts.length = ns.length)
    (h : ∀ p ∈ ts.zip ns, (∀ s ∈ p.2.bareStrings t, OneLine s) ↔ ∀ s ∈ p.1.bareStrings, OneLine s) :
    (∀ s ∈ listBareStrings t ns, OneLine s) ↔ ∀ s ∈ Term.listBareStrings ts, OneLine s := by
  induction ts generalizing ns with
  | nil =>
    rw [List.length_eq_zero_iff.1 hlen.symm]
    exact iff_of_true (fun _ h => absurd h List.not_mem_nil) fun _ h => absurd h List.not_mem_nil
  | cons t ts ih =>
    obtain ⟨n, ns, rfl⟩ := List.exists_cons_of_length_eq_add_one hlen.symm
    rw [List.zip_cons_cons, List.forall_mem_cons] at h
    rw [listBareStrings, Term.listBareStrings, List.forall_mem_append, List.forall_mem_append, h.1,
      ih (Nat.succ.inj hlen) h.2]

/-- The strings of a term are single lines just if those of its node are. -/
theorem Reads.oneLine_iff {N : Naming} {t : Term} {n : Node} (h : Reads N t n) :
    (∀ s ∈ n.bareStrings N.table, OneLine s) ↔ ∀ s ∈ t.bareStrings, OneLine s := by
  induction h with
  | input | const => rfl
  | var hv => rw [bareStrings, Term.bareStrings, (NameTable.name_of_lookup? hv).2]
  | draw _ hv ih =>
    rw [bareStrings, bareStrings, Term.bareStrings, Term.bareStrings, List.append_nil, List.forall_mem_append,
      List.forall_mem_singleton, ih, and_iff_left (hv.oneLine (by decide))]
  | get _ _ hbase hkey =>
    rw [bareStrings, Term.bareStrings, List.forall_mem_append, List.forall_mem_append, hbase, hkey]
  | pointwise hlen _ ih =>
    rw [bareStrings, Term.bareStrings]
    exact oneLine_zip_iff hlen ih
  | hint hlen _ ih =>
    rw [bareStrings, Term.bareStrings, List.forall_mem_cons, List.forall_mem_cons, oneLine_zip_iff hlen ih]
  | keySet _ ih | reduce _ ih | scan _ ih => exact ih
  | group _ ih =>
    rw [ih, Term.bareStrings, Term.bareStrings]
    rfl
  | named _ _ _ hbase hkey hvalue =>
    rw [bareStrings, Term.bareStrings, bareStrings_gathered]
    simp only [List.forall_mem_append, hbase, hkey, hvalue, filterBareStrings]
    simp
  | keyed _ _ _ hk hv hbase hkey hvalue =>
    rw [bareStrings, Term.bareStrings, bareStrings_gathered]
    simp only [List.forall_mem_append, hbase, hvalue, filterBareStrings, bareStrings, hkey, List.forall_mem_singleton,
      hv.oneLine (by decide), and_true]
    exact and_right_comm

end Node

/-! ## The term of a query -/

/-- What names a reducer is one line. -/
theorem Reducer.oneLine_of_ofName? {name : String} {op : Reducer} (h : ofName? name = some op) : OneLine name := by
  have hbase : ∀ {base : String} {nullable : Bool},
      (Folding.every.find? fun f => f.name == base).map (fun f => (⟨f, nullable⟩ : Reducer)) = some op → OneLine base := by
    intro base nullable h
    obtain ⟨f, hf, -⟩ := Option.map_eq_some_iff.1 h
    have hname := List.find?_some hf
    rw [← eq_of_beq hname]
    exact Reducer.oneLine_name ⟨f, false⟩
  unfold ofName? at h
  split at h
  rename_i base nullable hsplit
  split at hsplit
  · rename_i rest hrest
    cases hsplit
    have hname := oneLine_ofList.1 (hbase h)
    rw [List.mem_reverse] at hname
    rw [OneLine, ← List.mem_reverse, hrest, List.mem_cons, not_or]
    exact ⟨by decide, hname⟩
  · cases hsplit
    exact hbase h

/-- What is left after the start of a name, put after it again, is the name. -/
theorem Callee.eq_append_of_after? {start cs rest : List Char} (h : after? start cs = some rest) : cs = start ++ rest := by
  fun_induction after? start cs with
  | case1 cs => exact Option.some.inj h
  | case2 b bs cs ih => rw [ih h, List.cons_append]
  | case3 => cases h
  | case4 => cases h

/-- The name of an operator is one line. -/
theorem Callee.oneLine_of_ofName? {name : String} {callee : Callee} (h : ofName? name = some callee) : OneLine name := by
  unfold ofName? at h
  split at h
  case h_5 =>
    rw [Option.or_eq_some_iff, Option.or_eq_some_iff] at h
    rcases h with h | ⟨-, h | ⟨-, h⟩⟩
    · obtain ⟨op, hop, -⟩ := Option.map_eq_some_iff.1 h
      rw [Pointwise.ofName?] at hop
      have hname := List.find?_some hop
      rw [← eq_of_beq hname]
      exact op.oneLine_name
    · obtain ⟨op, hop, -⟩ := Option.map_eq_some_iff.1 h
      exact Reducer.oneLine_of_ofName? hop
    · obtain ⟨op, hop, -⟩ := Option.map_eq_some_iff.1 h
      obtain ⟨rest, hrest, hop⟩ := Option.bind_eq_some_iff.1 hop
      rw [OneLine, eq_append_of_after? hrest, List.mem_append, not_or]
      exact ⟨by decide, oneLine_ofList.1 (Reducer.oneLine_of_ofName? hop)⟩
  all_goals decide

namespace Term

/-- A call that is accepted has the strings of its arguments. -/
theorem forall_ofCallee? {callee : Callee} {args : List Term} {t : Term} (h : ofCallee? callee args = some t) {P : String → Prop} :
    (∀ s ∈ t.bareStrings, P s) ↔ ∀ s ∈ listBareStrings args, P s := by
  unfold ofCallee? at h
  split at h
  case h_8 =>
    split at h
    · cases h
      rfl
    · cases h
  case h_9 => cases h
  all_goals
    cases h
    simp [bareStrings, listBareStrings]

/-- A call that is accepted names an operator in one line, and its strings are single lines just if those of its
arguments are. -/
theorem oneLine_ofCall (name : String) (args : List Term) :
    Yields (ofCall name args) fun t =>
      OneLine name ∧ ((∀ s ∈ t.bareStrings, OneLine s) ↔ ∀ s ∈ listBareStrings args, OneLine s) := by
  unfold ofCall
  split
  · exact fun _ _ _ h => nomatch h
  · rename_i hname
    split
    · exact fun _ _ _ h => nomatch h
    · rename_i h
      exact ⟨Callee.oneLine_of_ofName? hname, forall_ofCallee? h⟩

/-- The strings of an application are single lines just if those of its head and of its arguments are. -/
theorem oneLine_ofApply (head : Term) (args : List Term) :
    Yields (ofApply head args) fun t => (∀ s ∈ t.bareStrings, OneLine s) ↔
      (∀ s ∈ head.bareStrings, OneLine s) ∧ ∀ s ∈ listBareStrings args, OneLine s := by
  unfold ofApply
  split
  · refine (oneLine_ofCall _ args).mono fun t h => h.2.trans (and_iff_right ?_).symm
    exact List.forall_mem_singleton.2 h.1
  · exact List.forall_mem_append

/-- The strings of a hint are single lines just if those of its head and of its arguments are. -/
theorem oneLine_ofHint (head : Term) (args : List Term) : (∀ s ∈ (ofHint head args).bareStrings, OneLine s) ↔
    (∀ s ∈ head.bareStrings, OneLine s) ∧ ∀ s ∈ listBareStrings args, OneLine s := by
  unfold ofHint
  split
  · exact List.forall_mem_cons.trans (and_congr_left' List.forall_mem_singleton.symm)
  · rw [bareStrings, List.forall_mem_cons, listBareStrings, List.forall_mem_append]
    exact and_iff_right (by decide)

/-- The strings of an array literal are single lines just if those of its items are. -/
theorem oneLine_ofItems (items : List Term) :
    (∀ s ∈ (ofItems items).bareStrings, OneLine s) ↔ ∀ s ∈ listBareStrings items, OneLine s := by
  unfold ofItems
  split
  · exact Iff.rfl
  · rw [listBareStrings, listBareStrings, List.append_nil]
    rfl
  · rw [bareStrings, listBareStrings_eq, listBareStrings_eq, List.flatMap_map]
    rfl

mutual
/-- The strings of a query are single lines just if those of its term are. -/
theorem oneLine_ofQuery : ∀ q : Query,
    Yields (ofQuery q) fun t => (∀ s ∈ t.bareStrings, OneLine s) ↔ ∀ s ∈ q.bareStrings, OneLine s
  | .input | .const _ => Iff.rfl
  | .ident name => by
    rw [ofQuery, ofIdent]
    split
    · rename_i hstar
      refine iff_of_true (fun _ h => absurd h List.not_mem_nil) (List.forall_mem_singleton.2 ?_)
      rw [OneLine, hstar]
      decide
    · exact fun _ _ _ h => nomatch h
    · exact Iff.rfl
    · exact Iff.rfl
  | .member key => by
    rw [ofQuery]
    exact Yields.bind (oneLine_ofQuery key) fun t h => h
  | .get base key => by
    rw [ofQuery]
    refine Yields.bind (oneLine_ofQuery base) fun b hb => Yields.bind (oneLine_ofQuery key) fun k hk => ?_
    change (∀ s ∈ b.bareStrings ++ k.bareStrings, OneLine s) ↔ _
    rw [Query.bareStrings, List.forall_mem_append, List.forall_mem_append, hb, hk]
  | .apply head args => by
    rw [ofQuery]
    refine Yields.bind (oneLine_ofQuery head) fun t ht => Yields.bind (oneLine_ofQueries args) fun ts hts => ?_
    refine (oneLine_ofApply t ts).mono fun u hu => ?_
    rw [hu, ht, hts, Query.bareStrings, List.forall_mem_append]
  | .op name args => by
    rw [ofQuery]
    refine Yields.bind (oneLine_ofQueries args) fun ts hts => (oneLine_ofCall name ts).mono fun u hu => ?_
    exact hu.2.trans hts
  | .hint head args => by
    rw [ofQuery]
    refine Yields.bind (oneLine_ofQuery head) fun t ht => Yields.bind (oneLine_ofQueries args) fun ts hts => ?_
    change (∀ s ∈ (ofHint t ts).bareStrings, OneLine s) ↔ _
    rw [oneLine_ofHint, ht, hts, Query.bareStrings, List.forall_mem_append]
  | .array items => by
    rw [ofQuery]
    exact Yields.bind (oneLine_ofQueries items) fun ts hts => (oneLine_ofItems ts).trans hts
  | .object entries => by
    rw [ofQuery]
    refine (oneLine_ofEntries (.const Json.empty) entries).mono fun t h => h.trans (and_iff_right ?_)
    exact fun _ h => absurd h List.not_mem_nil
/-- The strings of a list of queries are single lines just if those of their terms are. -/
theorem oneLine_ofQueries : ∀ qs : List Query, Yields (ofQueries qs) fun ts =>
    (∀ s ∈ listBareStrings ts, OneLine s) ↔ ∀ s ∈ Query.listBareStrings qs, OneLine s
  | [] => Iff.rfl
  | q :: rest => by
    rw [ofQueries]
    refine Yields.bind (oneLine_ofQuery q) fun t ht => Yields.bind (oneLine_ofQueries rest) fun ts hts => ?_
    change (∀ s ∈ t.bareStrings ++ listBareStrings ts, OneLine s) ↔ _
    rw [Query.listBareStrings, List.forall_mem_append, List.forall_mem_append, ht, hts]
/-- Entries add their strings to those of the term that they are put onto, as single lines or not. -/
theorem oneLine_ofEntries : ∀ (base : Term) (entries : List (Query × Query)), Yields (ofEntries base entries) fun t =>
    (∀ s ∈ t.bareStrings, OneLine s) ↔
      (∀ s ∈ base.bareStrings, OneLine s) ∧ ∀ s ∈ Query.entryBareStrings entries, OneLine s
  | base, [] => (and_iff_left fun _ h => absurd h List.not_mem_nil).symm
  | base, (key, value) :: rest => by
    rw [ofEntries]
    refine Yields.bind (oneLine_ofQuery key) fun k hk => Yields.bind (oneLine_ofQuery value) fun v hv => ?_
    refine (oneLine_ofEntries (.update base k v) rest).mono fun t h => h.trans ?_
    rw [bareStrings, Query.entryBareStrings]
    simp only [List.forall_mem_append, hk, hv, and_assoc]
end

end Term

end StarQuery
