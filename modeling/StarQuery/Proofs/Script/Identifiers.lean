import Mathlib.Data.List.Forall2
import StarQuery.Proofs.Naming.Table
import StarQuery.Proofs.Program.Renaming
import StarQuery.Proofs.Program.Scoped

/-!
# The identifiers of a script

A variable is spelled in a script with an `x` for every star of its name. Two names that differ only in that one has a star where
the other has an `x` are spelled alike, and no others are. So the variables of a program are told apart in its script just if no
two named variables of the query are such names: a name after a collection has no star, and begins like no named variable.
-/

namespace StarQuery

/-- Names of one length that differ only where one has a star and the other an `x`. -/
def Twins (x y : String) : Prop :=
  x.toList.length = y.toList.length ∧ ∀ p ∈ x.toList.zip y.toList, p.1 = p.2 ∨ p = ('*', 'x') ∨ p = ('x', '*')

instance (x y : String) : Decidable (Twins x y) := inferInstanceAs (Decidable (_ ∧ _))

/-- No two named variables of a query are spelled alike. -/
def Query.SpelledApart (q : Query) : Prop :=
  ∀ x ∈ q.namedVariables, ∀ y ∈ q.namedVariables, x ≠ y → ¬ Twins x y

instance (q : Query) : Decidable q.SpelledApart := inferInstanceAs (Decidable (∀ x ∈ q.namedVariables, _))

namespace Program

/-! ## Spelling -/

variable {t : NameTable} {u v : Var}

/-- Variables are spelled alike just if their names are twins. -/
theorem identifier_eq_iff : identifier t u = identifier t v ↔ Twins (t.name u) (t.name v) := by
  have hchar : ∀ c d : Char, (if c = '*' then 'x' else c) = (if d = '*' then 'x' else d) ↔
      c = d ∨ (c, d) = ('*', 'x') ∨ (c, d) = ('x', '*') := by
    intro c d
    by_cases hc : c = '*' <;> by_cases hd : d = '*' <;> simp [hc, hd, eq_comm]
  unfold identifier Twins
  rw [String.ofList_inj, ← List.forall₂_eq_eq_eq, List.forall₂_map_left_iff, List.forall₂_map_right_iff, List.forall₂_iff_zip]
  simp only [hchar, Prod.forall]

/-- A name after a collection has neither a star nor an `x`, and so no twin but itself. -/
theorem eq_of_twins {x y : String} (hx : IsNumbered x) (h : Twins x y) : x = y := by
  obtain ⟨tag, i, htag, hlist⟩ := hx
  have htags : ∀ c ∈ ['D', 'K'], c ≠ '*' ∧ c ≠ 'x' := by
    rw [List.forall_mem_cons, List.forall_mem_singleton]
    decide
  have hchars : ∀ c ∈ x.toList, c ≠ '*' ∧ c ≠ 'x' := by
    rw [hlist, List.forall_mem_cons]
    refine ⟨htags tag htag, fun c hc => ?_⟩
    have hdigit := Decimal.isDigit_toDigits i c hc
    constructor <;> rintro rfl <;> cases hdigit
  rw [← String.toList_inj, ← List.forall₂_eq_eq_eq, List.forall₂_iff_zip]
  refine ⟨h.1, fun {c d} hp => ?_⟩
  obtain ⟨hstar, hletter⟩ := hchars c (List.of_mem_zip hp).1
  rcases h.2 _ hp with heq | heq | heq
  · exact heq
  · exact absurd (congrArg Prod.fst heq) hstar
  · exact absurd (congrArg Prod.fst heq) hletter

end Program

namespace Stmt

mutual
/-- If all that is bound in a statement and around it has a place below `N`, so has all that is bound where a statement in it
stands. -/
theorem lt_of_mem_placed {N : Nat} : ∀ (s : Stmt) {scope : VarSet}, (∀ v ∈ scope, v < N) →
    (∀ x ∈ placed scope s, ∀ v ∈ x.2.binders, v < N) → ∀ x ∈ placed scope s, ∀ v ∈ x.1, v < N
  | .loop deep v source body, scope, hscope, hbinders => by
    rw [placed, List.forall_mem_cons] at hbinders ⊢
    refine ⟨hscope, lt_of_mem_listPlaced body (fun w hw => ?_) hbinders.2⟩
    rcases VarSet.mem_insert.1 hw with rfl | hw
    · exact hbinders.1 w List.mem_cons_self
    · exact hscope w hw
  | .test deep v source body, scope, hscope, hbinders => by
    rw [placed, List.forall_mem_cons] at hbinders ⊢
    exact ⟨hscope, lt_of_mem_listPlaced body hscope hbinders.2⟩
  | .project id keys fill body, scope, hscope, hbinders => by
    rw [placed, List.forall_mem_cons, List.forall_mem_append] at hbinders ⊢
    refine ⟨hscope, lt_of_mem_listPlaced fill hscope hbinders.2.1, lt_of_mem_listPlaced body (fun w hw => ?_) hbinders.2.2⟩
    rcases VarSet.mem_union.1 hw with hw | hw
    · exact hscope w hw
    · exact hbinders.1 w (VarSet.mem_ofList.1 hw)
  | .comment _, scope, hscope, _ | .error _, scope, hscope, _ | .mark _ _, scope, hscope, _
  | .start _ _ _ _, scope, hscope, _ | .step _ _ _, scope, hscope, _ => by
    intro x hx
    rw [List.mem_singleton.1 hx]
    exact hscope
/-- If all that is bound in a list of statements and around it has a place below `N`, so has all that is bound where one of
them stands. -/
theorem lt_of_mem_listPlaced {N : Nat} : ∀ (stmts : List Stmt) {scope : VarSet}, (∀ v ∈ scope, v < N) →
    (∀ x ∈ listPlaced scope stmts, ∀ v ∈ x.2.binders, v < N) → ∀ x ∈ listPlaced scope stmts, ∀ v ∈ x.1, v < N
  | [], _, _, _ => fun _ hx => absurd hx List.not_mem_nil
  | s :: rest, scope, hscope, hbinders => by
    rw [listPlaced, List.forall_mem_append] at hbinders ⊢
    exact ⟨lt_of_mem_placed s hscope hbinders.1, lt_of_mem_listPlaced rest hscope hbinders.2⟩
end

end Stmt

namespace NameTable

variable {t : NameTable} {u v : Var}

/-- A variable that has a place has a name of the table. -/
theorem name_mem (hv : v < t.names.length) : t.name v ∈ t.names := by
  rw [NameTable.name, List.getElem?_eq_getElem hv, Option.getD_some]
  exact List.getElem_mem hv

/-- Variables that have places have different names, where no name is there twice. -/
theorem name_inj (hnodup : t.names.Nodup) (hu : u < t.names.length) (hv : v < t.names.length) (h : t.name u = t.name v) :
    u = v := by
  rw [NameTable.name, NameTable.name, List.getElem?_eq_getElem hu, List.getElem?_eq_getElem hv] at h
  exact hnodup.getElem_inj_iff.1 h

end NameTable

namespace Derivation

variable {q : Query} (D : Derivation q)

/-- The variables of a query are spelled in as many ways as there are variables, just if its named variables are. -/
theorem identifier_ne_iff : (∀ u < D.naming.table.names.length, ∀ v < D.naming.table.names.length, u ≠ v →
      Program.identifier D.naming.table u ≠ Program.identifier D.naming.table v) ↔ q.SpelledApart := by
  constructor
  · intro hdistinct x hx y hy hne htwins
    obtain ⟨u, hu⟩ := D.namedVariables_subset hx
    obtain ⟨v, hv⟩ := D.namedVariables_subset hy
    obtain ⟨hlt, rfl⟩ := NameTable.name_of_lookup? hu
    obtain ⟨hlt', rfl⟩ := NameTable.name_of_lookup? hv
    refine hdistinct u hlt v hlt' ?_ (Program.identifier_eq_iff.2 htwins)
    rintro rfl
    exact hne rfl
  · intro hapart u hu v hv hne heq
    have hnames : D.naming.table.name u ≠ D.naming.table.name v := fun h => hne (NameTable.name_inj D.nodup_names hu hv h)
    rcases D.mem_names (NameTable.name_mem hu) with hx | hx
    · rcases D.mem_names (NameTable.name_mem hv) with hy | hy
      · exact hapart _ hx _ hy hnames (Program.identifier_eq_iff.1 heq)
      · exact hnames (Program.eq_of_twins hy (Program.identifier_eq_iff.1 heq.symm)).symm
    · exact hnames (Program.eq_of_twins hx (Program.identifier_eq_iff.1 heq))

end Derivation

/-- The identifiers of a compiled query.

* Any two variables of the program are spelled differently in the script, if and only if no two different named variables of the
  query differ only in stars and the letter `x`.
* If so, no two variables that are bound where a statement stands share an identifier, and no loop introduces an identifier of a
  variable that is bound around it. -/
theorem identifiers_differ_iff {q : Query} {options : Options} {c : Compiled} (hc : compile q options = .ok c) :
    ((∀ u < c.program.table.names.length, ∀ v < c.program.table.names.length, u ≠ v →
      Program.identifier c.program.table u ≠ Program.identifier c.program.table v) ↔ q.SpelledApart) ∧
    (q.SpelledApart → Stmt.EveryIn (fun scope st =>
      (∀ u ∈ scope, ∀ v ∈ scope, u ≠ v → Program.identifier c.program.table u ≠ Program.identifier c.program.table v) ∧
      ∀ deep v source body, st = .loop deep v source body → ∀ u ∈ scope,
        Program.identifier c.program.table u ≠ Program.identifier c.program.table v) ∅ c.program.body) := by
  obtain ⟨D, hD⟩ := compiles_of_ok hc
  have htable := hD.program_table
  have hiff := D.identifier_ne_iff
  rw [← htable] at hiff
  refine ⟨hiff, fun hapart x hx => ?_⟩
  have hdistinct := hiff.2 hapart
  have hscoped := (Program.scoped_of_generate hD.generated).body x hx
  have hbinders := Program.binders_of_generate (D.covers options) hD.generated
  have hbelow := Stmt.lt_of_mem_listPlaced c.program.body (fun v hv => absurd hv (VarSet.not_mem_empty v)) hbinders x hx
  refine ⟨fun u hu v hv => hdistinct u (hbelow u hu) v (hbelow v hv), ?_⟩
  rintro deep v source body hloop u hu
  have hv := hbinders x hx v (hloop ▸ List.mem_cons_self)
  refine hdistinct u (hbelow u hu) v hv ?_
  rintro rfl
  exact hscoped.loop deep u source body hloop hu

/-- The sum of all values below the keys of a record, with a loop over `*xA` around one over `**A`. -/
def alikeLoops : Query := .sum (.path "*xA.**A")

/-- The identifiers of one query differ; in the other, the two loops have the same. -/
theorem identifiers_differ_iff_alikeLoops :
    (∃ c, compile totalsBelow = .ok c ∧ totalsBelow.SpelledApart ∧
      ∀ u < c.program.table.names.length, ∀ v < c.program.table.names.length, u ≠ v →
        Program.identifier c.program.table u ≠ Program.identifier c.program.table v) ∧
    ∃ c, compile alikeLoops = .ok c ∧ Twins "*xA" "**A" ∧
      ¬ ∀ u < c.program.table.names.length, ∀ v < c.program.table.names.length, u ≠ v →
        Program.identifier c.program.table u ≠ Program.identifier c.program.table v := by
  obtain ⟨c, hc, -⟩ := compile_totalsBelow
  obtain ⟨c', hc', -⟩ := exists_compile_of_any (by decide +kernel : (compile alikeLoops).toOption.any (fun _ => true) = true)
  have hapart : totalsBelow.SpelledApart := by decide +kernel
  refine ⟨⟨c, hc, hapart, (identifiers_differ_iff hc).1.2 hapart⟩, c', hc', by decide, fun hdistinct => ?_⟩
  exact absurd ((identifiers_differ_iff hc').1.1 hdistinct) (by decide +kernel)

end StarQuery
