import StarQuery.Proofs.Direct.Draws
import StarQuery.Proofs.Json.Rows
import StarQuery.Proofs.Node.Parts

/-!
# Groupings by one key

A nest for one variable that needs others runs over the different values of the variable, in the order in which they are first
seen (`Direct.bindings_tuples`). An update of the empty object by such a variable therefore has one field for each different key,
in this order, where its value is defined (`Direct.aggregateWith_keyed`).
-/

namespace StarQuery

/-! ## Tuples of one variable -/

namespace KeyTree

/-- The tree of tuples of one text each. -/
def ofTexts (texts : List String) : KeyTree := texts.foldr (fun t rest => .cons (.str t) .nil rest) .nil

/-- A text that is there already is not added again. -/
theorem insert_ofTexts (texts : List String) (t : String) :
    (ofTexts texts).insert [.str t] = ofTexts (if t ∈ texts then texts else texts ++ [t]) := by
  induction texts with
  | nil => rfl
  | cons a texts ih =>
    change insert (.cons (.str a) .nil (ofTexts texts)) [.str t] = _
    rw [insert]
    by_cases hat : a = t
    · subst hat
      simp [insert, chain, Json.keyText, ofTexts]
    · have hta : ¬ t = a := fun h => hat h.symm
      rw [if_neg (by simpa [Json.keyText] using hat), ih]
      by_cases ht : t ∈ texts <;> simp [ht, hta, ofTexts]

/-- The tree of texts binds its variable to one text after the other. -/
theorem bindings_ofTexts (v : Var) (texts : List String) (b : Binding) :
    (ofTexts texts).bindings [v] b = texts.map fun t => b.set v (.str t) := by
  have hentries : (ofTexts texts).entries = texts.map fun t => (.str t, .nil) := by
    induction texts with
    | nil => rfl
    | cons a texts ih =>
      change (Json.str a, KeyTree.nil) :: (ofTexts texts).entries = _
      rw [ih, List.map_cons]
  rw [bindings, hentries, List.flatMap_map, List.map_eq_flatMap]
  rfl

end KeyTree

namespace Direct

/-- A further binding adds its tuple, if it binds all variables. -/
theorem tuples_snoc (vars : List Var) (bs : List Binding) (b : Binding) :
    tuples vars (bs ++ [b]) = (vars.mapM b).elim (tuples vars bs) (tuples vars bs).insert := by
  rw [tuples, List.foldl_append]
  rfl

/-- The tuples of one variable are its different texts, in the order in which they are first seen. -/
theorem tuples_texts {v : Var} {bs : List Binding} {texts : List String}
    (h : bs.map (fun b => b v) = texts.map fun t => some (.str t)) : tuples [v] bs = .ofTexts texts.eraseDups := by
  induction texts using List.reverseRecOn generalizing bs with
  | nil =>
    rw [List.map_eq_nil_iff.1 h]
    rfl
  | append_singleton texts t ih =>
    rw [List.map_append] at h
    obtain ⟨before, last, rfl, hbefore, hlast⟩ := List.map_eq_append_iff.1 h
    obtain ⟨b, rest, rfl, hb, hrest⟩ := List.map_eq_cons_iff.1 hlast
    rw [List.map_eq_nil_iff.1 hrest, tuples_snoc, ih hbefore]
    have hmapM : [v].mapM b = some [.str t] := by simp [hb]
    rw [hmapM, Option.elim_some, KeyTree.insert_ofTexts, eraseDups_snoc]
    simp only [List.mem_eraseDups]

/-- A nest that projects to one variable runs over the different texts of the variable. -/
theorem bindings_tuples {v : Var} {bs : List Binding} {texts : List String}
    (h : bs.map (fun b => b v) = texts.map fun t => some (.str t)) (b : Binding) :
    (tuples [v] bs).bindings [v] b = texts.eraseDups.map fun t => b.set v (.str t) := by
  rw [tuples_texts h, KeyTree.bindings_ofTexts]

end Direct

/-! ## Updates by one key -/

/-- A value that is put under a new name becomes the last field. -/
theorem Json.setAt_new {fields : Fields} {name : String} (h : ¬ name ∈ fields.names) (x : Json) :
    setAt [name] x (.obj fields) = .obj (fields ++ [(name, x)]) := by
  rw [setAt, Fields.alter_new h]
  rfl

/-- Values that are put under different new names become the last fields of an object, where they are defined. -/
theorem Json.foldl_setAt (value : String → Option Json) {names : List String} (hnodup : names.Nodup) {fields : Fields}
    (hnew : ∀ name ∈ names, ¬ name ∈ fields.names) :
    names.foldl (fun state name => (value name).elim state fun x => some (setAt [name] x (state.getD empty))) (some (.obj fields)) =
      some (.obj (fields ++ names.filterMap fun name => (value name).map fun x => (name, x))) := by
  induction names generalizing fields with
  | nil => simp
  | cons name names ih =>
    rw [List.nodup_cons] at hnodup
    rw [List.forall_mem_cons] at hnew
    rw [List.foldl_cons, List.filterMap_cons]
    cases value name with
    | none => exact ih hnodup.2 hnew.2
    | some x =>
      have hlater : ∀ later ∈ names, ¬ later ∈ Fields.names (fields ++ [(name, x)]) := by
        intro later hmem hin
        rw [Fields.names, List.map_append, List.mem_append] at hin
        rcases hin with hin | hin
        · exact hnew.2 later hmem hin
        · have heq : later = name := List.mem_singleton.1 hin
          exact hnodup.1 (heq ▸ hmem)
      rw [Option.elim_some, Option.getD_some, setAt_new hnew.1, ih hnodup.2 hlater, List.append_assoc]
      rfl

namespace Direct

/-- An update of the empty object by one key has a field for each key, where its value is defined. -/
theorem aggregateWith_keyed {given : Given} {aggregate : Valuation} {generators : List Generator} {v : Var} {texts : List String}
    (hdeep : given.table.isDeep v = false) (hnodup : texts.Nodup)
    (hnest : nestBindings given (valueWith given aggregate) generators (.single v) =
      texts.map fun t => Binding.empty.set v (.str t))
    {i : VarInfo} (hfree : i.free = ∅) (hbound : i.bound = .single v) (j : VarInfo) (n : Node) (filter : Option Node)
    (b : Binding) :
    aggregateWith given (valueWith given aggregate) generators b (.update i (.const j Json.empty) (Node.keyVar v) n filter) =
      some (.obj (texts.filterMap fun t =>
        (valueWith given aggregate (Binding.empty.set v (.str t)) n).map fun x => (t, x))) := by
  have hall : ∀ bs : List Binding, bs.filter (·.agrees b ∅) = bs := fun bs => List.filter_eq_self.2 fun c _ => agrees_empty c b
  have hstep : ∀ state t, (change? given (valueWith given aggregate) (Binding.empty.set v (.str t))
      (.update i (.const j Json.empty) (Node.keyVar v) n filter)).elim state (· state) =
      (valueWith given aggregate (Binding.empty.set v (.str t)) n).elim state fun x =>
        some (Json.setAt [t] x (state.getD Json.empty)) := by
    intro state t
    have htarget : target? given (valueWith given aggregate) (Binding.empty.set v (.str t)) [Node.keyVar v] = some [t] := by
      simp [target?, Node.keyVar, valueWith, Binding.set_self, keyParts, Node.asVar?, hdeep, Json.keyText]
    change ((target? given (valueWith given aggregate) (Binding.empty.set v (.str t)) [Node.keyVar v]).bind _).elim _ _ = _
    rw [htarget]
    cases valueWith given aggregate (Binding.empty.set v (.str t)) n <;> rfl
  have hnew : ∀ t ∈ texts, ¬ t ∈ Fields.names [] := fun _ _ => List.not_mem_nil
  rw [aggregateWith, Node.info, hfree, hbound, VarSet.empty_union, nestBindings_empty, hnest, hall, hall, List.foldl_map]
  simp only [hstep]
  exact Json.foldl_setAt _ hnodup hnew

end Direct

end StarQuery
