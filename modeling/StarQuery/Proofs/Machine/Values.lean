import StarQuery.Proofs.Json.Place
import StarQuery.Proofs.Machine.Loops
import StarQuery.Proofs.Program.Shape

/-!
# The values of generated expressions

A slot is read by the key texts of the variables that are free in its aggregate. Where the slots of the entries so far hold
what a valuation gives their aggregates, and nothing is reported, an expression has the value of the node that it stands for
(`ExprOf.eval_eq`), and the same holds of first states and actions.
-/

namespace StarQuery

/-! ## Key texts -/

namespace Binding

theorem keyTexts?_nil (b : Binding) : b.keyTexts? [] = some [] := rfl

/-- Key texts are found one by one, and none may be missing. -/
theorem keyTexts?_cons (b : Binding) (v : Var) (vs : List Var) :
    b.keyTexts? (v :: vs) = (b v).bind fun x => (b.keyTexts? vs).map (x.keyText :: ·) := by
  rw [keyTexts?, keyTexts?, List.mapM_cons]
  cases b v with
  | none => rfl
  | some x => cases vs.mapM b <;> rfl

/-- There are as many key texts as there are variables. -/
theorem length_of_keyTexts? {b : Binding} {vs : List Var} {path : List String} (h : b.keyTexts? vs = some path) :
    path.length = vs.length := by
  induction vs generalizing path with
  | nil =>
    cases h
    rfl
  | cons v vs ih =>
    rw [keyTexts?_cons, Option.bind_eq_some_iff] at h
    obtain ⟨x, -, h⟩ := h
    obtain ⟨rest, hrest, rfl⟩ := Option.map_eq_some_iff.1 h
    rw [List.length_cons, List.length_cons, ih hrest]

/-- Bindings agree on variables if both bind them, with the same key texts. -/
theorem agrees_iff {b c : Binding} {vars : VarSet} :
    b.agrees c vars = true ↔ ∃ path, c.keyTexts? vars.toList = some path ∧ b.keyTexts? vars.toList = some path := by
  rw [agrees]
  induction vars.toList with
  | nil => simp [keyTexts?_nil]
  | cons v vs ih =>
    rw [List.all_cons, Bool.and_eq_true, ih, keyTexts?_cons, keyTexts?_cons]
    cases b v with
    | none => simp
    | some x =>
      cases c v with
      | none => simp
      | some y =>
        simp only [beq_iff_eq, Option.bind_some, Option.map_eq_some_iff]
        constructor
        · rintro ⟨hxy, path, hc, hb⟩
          exact ⟨x.keyText :: path, ⟨path, hc, hxy ▸ rfl⟩, path, hb, rfl⟩
        · rintro ⟨_, ⟨p, hc, rfl⟩, q, hb, hpq⟩
          obtain ⟨hxy, rfl⟩ := List.cons.inj hpq
          exact ⟨hxy, q, hc, hb⟩

end Binding

/-- Objects in objects are followed by the key texts of the values of expressions. -/
theorem Expr.follow_eq {given : Given} {st : State} {keys : List Expr} {held : Json} (hheld : Json.Nested keys.length held) :
    follow given st held keys =
      (keys.mapM (eval given st)).bind fun values => Json.at? (values.map Json.keyText) (some held) := by
  induction keys generalizing held with
  | nil => rfl
  | cons key keys ih =>
    cases held with
    | obj fields =>
      rw [follow, List.mapM_cons]
      cases key.eval given st with
      | none => rfl
      | some x =>
        rw [Option.bind_some, Json.get?]
        cases hfield : Fields.get? fields x.keyText with
        | none => cases keys.mapM (eval given st) <;> simp [Json.at?, hfield, Json.at?_none]
        | some part =>
          rw [Option.bind_some, ih (hheld _ (Fields.mem_of_get? hfield))]
          cases keys.mapM (eval given st) <;> simp [Json.at?, hfield]
    | _ => exact hheld.elim

/-- A slot is read by the key texts of variables. -/
theorem follow_vars {N : Nat} {given : Given} {k : Store} {b : Binding} (hb : b.Below N) (vs : List Var) {held : Json}
    (hheld : Json.Nested vs.length held) :
    Expr.follow given (k.under N b) held (vs.map .var) = (b.keyTexts? vs).bind fun path => Json.at? path (some held) := by
  have hvalues : (vs.map Expr.var).mapM (Expr.eval given (k.under N b)) = vs.mapM b := by
    rw [List.mapM_map]
    exact congrArg (fun f => List.mapM f vs) (funext (Store.value?_under hb))
  rw [Expr.follow_eq (by rwa [List.length_map]), hvalues, Binding.keyTexts?, Option.bind_map]
  rfl

namespace Program

variable {s : Setting} {entries : List Entry}

/-! ## Reports on expressions -/

/-- A variable is reported on just if it is not bound. -/
theorem varReports_eq_nil {env : VarSet} {v : Var} : varReports s env v = [] ↔ v ∈ env := by
  unfold varReports
  split <;> simp_all

/-- A variable that is not reported on is read as itself. -/
theorem varOf_eq {env : VarSet} {v : Var} (h : varReports s env v = []) : varOf s env v = .var v :=
  if_pos (varReports_eq_nil.1 h)

/-- Nothing is reported on a list of nodes just if nothing is on each. -/
theorem listReports_eq_nil {env : VarSet} {ns : List Node} :
    listReports s env ns = [] ↔ ∀ n ∈ ns, exprReports s env n = [] := by
  rw [listReports_eq, List.flatMap_eq_nil_iff]

/-- What is reported on an aggregate is what is on the variables that it is read by. -/
theorem exprReports_gathers {env : VarSet} {n : Node} (h : n.gathers = true) :
    exprReports s env n = n.info.free.toList.flatMap (varReports s env) := by
  cases n with
  | reduce | scan | update => rfl
  | _ => cases h

/-! ## Expressions -/

/-- A slot holds what a valuation gives an aggregate, for every binding of its free variables. -/
structure SlotHolds (slots : List (Option Json)) (slot : Nat) (n : Node) (aggregate : Direct.Valuation) : Prop where
  nested : ∀ v ∈ slots[slot]?.join, Json.Nested n.info.free.toList.length v
  reads : ∀ b : Binding, (b.keyTexts? n.info.free.toList).bind (Json.at? · slots[slot]?.join) = aggregate b n

/-- The value of an aggregate is the one that it is given. -/
theorem valueWith_gathers {given : Given} {aggregate : Direct.Valuation} {b : Binding} {n : Node} (h : n.gathers = true) :
    Direct.valueWith given aggregate b n = aggregate b n := by
  cases n with
  | reduce | scan | update => rfl
  | _ => cases h

section
variable {N : Nat} {given : Given} {k : Store} {b : Binding} {aggregate : Direct.Valuation} (htable : given.table = s.table)
  (hb : b.Below N) (hslots : ∀ x ∈ entries, SlotHolds k.slots x.slot x.node aggregate)

include hb in
/-- A slot is read as what its aggregate is worth at the present binding. -/
theorem eval_slot {slot : Nat} {n : Node} (h : SlotHolds k.slots slot n aggregate) :
    Expr.eval given (k.under N b) (.slot slot (n.info.free.toList.map .var)) = aggregate b n := by
  rw [Expr.eval, ← h.reads]
  change (k.slots[slot]?.join).bind _ = _
  cases hheld : k.slots[slot]?.join with
  | none => cases b.keyTexts? n.info.free.toList <;> simp [Json.at?_none]
  | some held => exact follow_vars hb _ (h.nested held hheld)

/-- The values of a list of expressions are the values of their nodes, if this holds of each. -/
theorem evalAll_eq {args : List Node} {xs : List Expr} (hlen : args.length = xs.length)
    (h : ∀ p ∈ args.zip xs, p.2.eval given (k.under N b) = Direct.valueWith given aggregate b p.1) :
    Expr.evalAll given (k.under N b) xs = Direct.valuesWith given aggregate b args := by
  induction args generalizing xs with
  | nil =>
    rw [List.length_eq_zero_iff.1 hlen.symm]
    rfl
  | cons n args ih =>
    cases xs with
    | nil => cases hlen
    | cons x xs =>
      rw [List.zip_cons_cons, List.forall_mem_cons] at h
      rw [Expr.evalAll, Direct.valuesWith, h.1, ih (Nat.succ.inj hlen) h.2]

/-- An expression stands for the same key texts as its node. -/
theorem ExprOf.keyParts_eq {env : VarSet} {n : Node} {x : Expr} (h : ExprOf s entries env n x)
    (hreports : exprReports s env n = []) (value : Json) :
    Action.keyParts given x value = Direct.keyParts given n value := by
  cases h with
  | var i v =>
    rw [varOf_eq hreports]
    rfl
  | get => split <;> rfl
  | slot hn =>
    cases n with
    | reduce | scan | update => rfl
    | _ => cases hn
  | _ => rfl

include htable hb hslots

/-- An expression has the value of the node that it stands for. -/
theorem ExprOf.eval_eq {env : VarSet} {n : Node} {x : Expr} (h : ExprOf s entries env n x)
    (hreports : exprReports s env n = []) :
    x.eval given (k.under N b) = Direct.valueWith given aggregate b n := by
  induction h with
  | input | const | hint => rfl
  | var i v =>
    rw [varOf_eq hreports]
    exact Store.value?_under hb v
  | @get i base key x y _ _ hbase hkey =>
    obtain ⟨hrbase, hrkey⟩ := List.append_eq_nil_iff.1 hreports
    rw [Direct.valueWith, ← hbase hrbase, ← hkey hrkey, htable]
    split <;> rfl
  | @pointwise i op args xs hlen _ ih =>
    rw [Expr.eval, Direct.valueWith, evalAll_eq hlen]
    exact fun p hp => ih p hp (listReports_eq_nil.1 hreports p.1 (List.of_mem_zip hp).1)
  | keySet _ ih => rw [Expr.eval, Direct.valueWith, ih hreports]
  | slot hn hentry hnode =>
    subst hnode
    rw [exprReports_gathers hn, List.flatMap_eq_nil_iff] at hreports
    rw [List.map_congr_left fun v hv => varOf_eq (hreports v hv), valueWith_gathers hn]
    exact eval_slot hb (hslots _ hentry)

/-! ## First states and actions -/

/-- The first state of an aggregate has the value that it has directly. -/
theorem FirstOf.eval_eq {env : VarSet} {n : Node} {x : Expr} {copy : Bool} (h : FirstOf s entries env n x copy)
    (hreports : firstReports s env n = []) :
    x.eval given (k.under N b) = Direct.firstState (Direct.valueWith given aggregate) b n := by
  cases h with
  | reduce hop => rw [Direct.firstState, hop, Expr.eval]
  | scan => rfl
  | update hbase => exact hbase.eval_eq htable hb hslots hreports

/-- Keys lead to the place that they lead to directly. -/
theorem target?_eq {env : VarSet} {keys : List Node} {xs : List Expr} (hlen : keys.length = xs.length)
    (h : ∀ p ∈ keys.zip xs, ExprOf s entries env p.1 p.2) (hreports : ∀ n ∈ keys, exprReports s env n = []) :
    Action.target? given (k.under N b) xs = Direct.target? given (Direct.valueWith given aggregate) b keys := by
  induction keys generalizing xs with
  | nil =>
    rw [List.length_eq_zero_iff.1 hlen.symm]
    rfl
  | cons n keys ih =>
    cases xs with
    | nil => cases hlen
    | cons x xs =>
      rw [List.zip_cons_cons, List.forall_mem_cons] at h
      rw [List.forall_mem_cons] at hreports
      rw [Action.target?, Direct.target?, h.1.eval_eq htable hb hslots hreports.1,
        ih (Nat.succ.inj hlen) h.2 hreports.2]
      simp only [h.1.keyParts_eq hreports.1]

/-- An action changes a state as the aggregate does directly. -/
theorem ActionOf.change?_eq {env : VarSet} {n : Node} {a : Action} (h : ActionOf s entries env n a)
    (hreports : actionReports s env n = []) :
    a.change? given (k.under N b) = Direct.change? given (Direct.valueWith given aggregate) b n := by
  cases h with
  | reduce harg | scan harg => rw [Action.change?, Direct.change?, harg.eval_eq htable hb hslots hreports]
  | update hlen hkeys hvalue =>
    obtain ⟨hrkeys, hrvalue⟩ := List.append_eq_nil_iff.1 hreports
    rw [Action.change?, Direct.change?, hvalue.eval_eq htable hb hslots hrvalue,
      target?_eq htable hb hslots hlen hkeys (listReports_eq_nil.1 hrkeys)]

end

end Program

/-- No change of the state of an aggregate makes nothing of something. -/
theorem Direct.isSome_of_change? {given : Given} {value : Valuation} {b : Binding} {n : Node}
    {f : Option Json → Option Json} (h : change? given value b n = some f) (x : Json) : (f (some x)).isSome = true := by
  cases n with
  | reduce i op mode arg =>
    cases h
    cases value b arg <;> rfl
  | scan i op mode arg =>
    obtain ⟨y, -, rfl⟩ := Option.map_eq_some_iff.1 h
    rfl
  | update i base key arg filter =>
    obtain ⟨path, -, h⟩ := Option.bind_eq_some_iff.1 h
    obtain ⟨y, -, rfl⟩ := Option.map_eq_some_iff.1 h
    rfl
  | _ => cases h

end StarQuery
