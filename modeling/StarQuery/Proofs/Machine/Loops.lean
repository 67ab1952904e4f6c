import StarQuery.Proofs.Direct.Value

/-!
# Loops of a run

Inside loops the variables have the values of a binding. A loop runs its body under one binding after the other and puts back
what the variables had, so levels around a body run it under the bindings that they enumerate (`acts_wrap`), and a projection
runs its body under the bindings of its tuples (`acts_project`).
-/

namespace StarQuery

/-- A binding binds variables below `N` only. -/
def Binding.Below (b : Binding) (N : Nat) : Prop := ∀ v, N ≤ v → b v = none

theorem Binding.below_empty (N : Nat) : Binding.empty.Below N := fun _ _ => rfl

/-- A binding stays below a number if a variable below it is bound. -/
theorem Binding.Below.set {b : Binding} {N : Nat} (h : b.Below N) {v : Var} (hv : v < N) (x : Json) : (b.set v x).Below N := by
  intro w hw
  rw [Binding.set, Function.update_of_ne (Nat.ne_of_gt (Nat.lt_of_lt_of_le hv hw))]
  exact h w hw

/-- The key texts of the values of variables, if all are bound. -/
def Binding.keyTexts? (b : Binding) (vs : List Var) : Option (List String) := (vs.mapM b).map (·.map Json.keyText)

/-- What a run keeps apart from the values of the variables. -/
structure Store where
  slots : List (Option Json)
  projections : List KeyTree

namespace Store

/-- The state in which `N` variables have the values of a binding. -/
def under (N : Nat) (k : Store) (b : Binding) : State := ⟨(List.range N).map b, k.slots, k.projections⟩

/-- A store with other tuples in a projection. -/
def setProjection (k : Store) (id : Nat) (tree : KeyTree) : Store := { k with projections := k.projections.set id tree }

variable {N : Nat} {k : Store} {b : Binding}

/-- Under a binding the variables have its values. -/
theorem value?_under (hb : b.Below N) (v : Var) : (k.under N b).value? v = b v := by
  unfold under State.value?
  by_cases hv : v < N
  · simp [List.getElem?_range hv]
  · rw [hb v (Nat.le_of_not_lt hv), List.getElem?_eq_none (by simpa using Nat.le_of_not_lt hv)]
    rfl

/-- Under a binding variables have their values together if it binds them all. -/
theorem values?_under (hb : b.Below N) (vs : List Var) : (k.under N b).values? vs = vs.mapM b := by
  unfold State.values?
  exact congrArg (fun f => List.mapM f vs) (funext (value?_under hb))

/-- Under a binding variables have the key texts of its values. -/
theorem keyTexts?_under (hb : b.Below N) (vs : List Var) : (k.under N b).keyTexts? vs = b.keyTexts? vs := by
  rw [State.keyTexts?, values?_under hb, Binding.keyTexts?]

/-- Giving a variable a value changes the binding. -/
theorem setVar_under (v : Var) (x : Option Json) : (k.under N b).setVar v x = k.under N (Function.update b v x) := by
  unfold under State.setVar
  refine congrArg (fun env => State.mk env k.slots k.projections) (List.ext_getElem? fun i => ?_)
  rw [List.getElem?_set]
  by_cases hi : v = i
  · subst hi
    by_cases hv : v < N <;> simp [hv]
  · by_cases hv : i < N
    · simp [List.getElem?_range hv, hi, Function.update_of_ne (Ne.symm hi)]
    · simp [hi, hv]

end Store

/-! ## Running under a binding -/

/-- A run from a store where `inv` holds and with the variables bound by `b`: it changes the store by `f` and the variables not
at all, and `inv` holds again. -/
def Acts (N : Nat) (inv : Store → Prop) (run : State → State) (b : Binding) (f : Store → Store) : Prop :=
  ∀ k, inv k → run (k.under N b) = (f k).under N b ∧ inv (f k)

section
variable {N : Nat} {inv : Store → Prop} {b : Binding}

/-- One variable is given one value after the other. -/
theorem acts_each {α : Type} {run : α → State → State} {key : α → Json} {f : α → Store → Store} (v : Var)
    (hb : b.Below N) (items : List α) (h : ∀ a ∈ items, Acts N inv (run a) (b.set v (key a)) (f a)) :
    Acts N inv (fun st => (items.foldl (fun st a => run a (st.setVar v (some (key a)))) st).setVar v (st.value? v)) b
      fun k => items.foldl (fun k a => f a k) k := by
  -- in between, the variable still has the value of the last round
  have hrounds : ∀ x k, inv k → ∃ y,
      items.foldl (fun st a => run a (st.setVar v (some (key a)))) (k.under N (Function.update b v x)) =
        (items.foldl (fun k a => f a k) k).under N (Function.update b v y) ∧
      inv (items.foldl (fun k a => f a k) k) := by
    induction items with
    | nil => exact fun x k hk => ⟨x, rfl, hk⟩
    | cons a items ih =>
      intro x k hk
      rw [List.forall_mem_cons] at h
      obtain ⟨hrun, hinv⟩ := h.1 k hk
      obtain ⟨y, hy, hinv'⟩ := ih h.2 (some (key a)) (f a k) hinv
      refine ⟨y, ?_, hinv'⟩
      rw [List.foldl_cons, List.foldl_cons, Store.setVar_under, Function.update_idem, ← hy]
      exact congrArg (fun st => items.foldl _ st) hrun
  intro k hk
  obtain ⟨y, hy, hinv⟩ := hrounds (b v) k hk
  refine ⟨?_, hinv⟩
  rw [Function.update_eq_self] at hy
  change (items.foldl _ (k.under N b)).setVar v ((k.under N b).value? v) = _
  rw [hy, Store.setVar_under, Function.update_idem, Store.value?_under hb, Function.update_eq_self]

/-- A body runs under the bindings of the tuples of a tree. -/
theorem acts_forTuples {run : State → State} {G : Binding → Store → Store}
    (hrun : ∀ b : Binding, b.Below N → Acts N inv run b (G b)) (keys : List Var) (tree : KeyTree)
    (hkeys : tree.entries ≠ [] → ∀ v ∈ keys, v < N) (hb : b.Below N) :
    Acts N inv (State.forTuples run keys tree) b fun k => (tree.bindings keys b).foldl (fun k b => G b k) k := by
  induction keys generalizing tree b with
  | nil => exact hrun b hb
  | cons v vs ih =>
    have hitem : ∀ item ∈ tree.entries, Acts N inv (State.forTuples run vs item.2) (b.set v item.1) fun k =>
        (item.2.bindings vs (b.set v item.1)).foldl (fun k b => G b k) k := by
      intro item hitem
      have hlt := hkeys (List.ne_nil_of_mem hitem)
      rw [List.forall_mem_cons] at hlt
      exact ih item.2 (fun _ => hlt.2) (hb.set hlt.1 item.1)
    intro k hk
    have heach := acts_each v hb tree.entries hitem k hk
    rw [KeyTree.bindings]
    simp only [List.foldl_flatMap]
    exact heach

end

/-! ## Levels -/

/-- The bindings that a level makes of a binding if `collection?` is what its source is worth: one for each choice, or the binding
itself if it passes the test. -/
def Level.bindings (table : NameTable) (l : Level) (collection? : Option Json) (b : Binding) : List Binding :=
  let v := l.generator.var
  if l.fresh then
    match collection? with
    | some collection => (Stmt.choices (table.isDeep v) collection).map (b.set v)
    | none => []
  else
    match collection?, b v with
    | some collection, some x => if Stmt.admits (table.isDeep v) collection x then [b] else []
    | _, _ => []

/-- The bindings that levels make of a binding, one level after the other, if `source` tells what their sources are worth. -/
def Level.enumerate (table : NameTable) (source : Level × Expr → Binding → Option Json) :
    List (Level × Expr) → Binding → List Binding
  | [], b => [b]
  | x :: rest, b => (x.1.bindings table (source x b) b).flatMap (enumerate table source rest)

/-- If the sources are worth what a valuation makes of them, the bindings are those of the tree. -/
theorem Level.enumerate_eq (given : Given) (value : Direct.Valuation) (xs : List (Level × Expr)) (b : Binding) :
    enumerate given.table (fun x b => value b x.1.generator.source) xs b = Direct.enumerate given value (xs.map Prod.fst) b := by
  induction xs generalizing b with
  | nil => rfl
  | cons x xs ih =>
    rw [enumerate, List.map_cons, Direct.enumerate, funext ih]
    rfl

section
variable {N : Nat} {inv : Store → Prop} {given : Given}

/-- A body inside levels runs under the bindings that the levels enumerate. -/
theorem acts_wrap (s : Program.Setting) (source : Level × Expr → Binding → Option Json) {G : Binding → Store → Store}
    {body : List Stmt}
    (hbody : ∀ b : Binding, b.Below N → Acts N inv (Stmt.execAll given body) b (G b)) (xs : List (Level × Expr))
    (hsource : ∀ x ∈ xs, ∀ (b : Binding) (k : Store), b.Below N → inv k → x.2.eval given (k.under N b) = source x b)
    (hvar : ∀ x ∈ xs, x.1.generator.var < N) {b : Binding} (hb : b.Below N) :
    Acts N inv (Stmt.execAll given (Program.wrap s xs body)) b fun k =>
      (Level.enumerate s.table source xs b).foldl (fun k b => G b k) k := by
  induction xs generalizing b with
  | nil => exact hbody b hb
  | cons x xs ih =>
    rw [List.forall_mem_cons] at hsource hvar
    have hrest := fun {b : Binding} (hb : b.Below N) => ih hsource.2 hvar.2 hb
    intro k hk
    have heval := hsource.1 b k hb hk
    rw [Program.wrap, Level.enumerate]
    unfold Level.bindings
    cases hfresh : x.1.fresh with
    | true =>
      simp only [if_true, Stmt.execAll, Stmt.exec, heval]
      cases source x b with
      | none => exact ⟨rfl, hk⟩
      | some collection =>
        simp only [List.flatMap_map, List.foldl_flatMap]
        exact acts_each x.1.generator.var hb (Stmt.choices (s.table.isDeep x.1.generator.var) collection)
          (fun y _ => hrest (hb.set hvar.1 y)) k hk
    | false =>
      simp only [Bool.false_eq_true, if_false, Stmt.execAll, Stmt.exec, heval, Store.value?_under hb]
      cases source x b with
      | none => exact ⟨rfl, hk⟩
      | some collection =>
        cases hy : b x.1.generator.var with
        | none => exact ⟨rfl, hk⟩
        | some y =>
          cases hadmits : Stmt.admits (s.table.isDeep x.1.generator.var) collection y with
          | true =>
            simp only [hadmits, if_true, List.flatMap_cons, List.flatMap_nil, List.append_nil]
            exact hrest hb k hk
          | false =>
            simp only [hadmits, Bool.false_eq_true, if_false]
            exact ⟨rfl, hk⟩

/-- The bindings that levels enumerate bind variables below `N` only. -/
theorem below_enumerate (value : Direct.Valuation) (given : Given) (levels : List Level)
    (hvar : ∀ l ∈ levels, l.generator.var < N) {b : Binding} (hb : b.Below N) :
    ∀ c ∈ Direct.enumerate given value levels b, c.Below N := by
  induction levels generalizing b with
  | nil => exact fun c hc => List.mem_singleton.1 hc ▸ hb
  | cons l levels ih =>
    rw [List.forall_mem_cons] at hvar
    intro c hc
    obtain ⟨b', hb', hc⟩ := List.mem_flatMap.1 hc
    refine ih hvar.2 ?_ c hc
    unfold Direct.levelBindings at hb'
    simp only at hb'
    split at hb'
    · split at hb'
      · obtain ⟨x, -, rfl⟩ := List.mem_map.1 hb'
        exact hb.set hvar.1 x
      · cases hb'
    · split at hb'
      · split at hb'
        · exact List.mem_singleton.1 hb' ▸ hb
        · cases hb'
      · cases hb'

end

/-! ## Projections -/

/-- Where values are read together, each variable is bound. -/
theorem isSome_of_mapM {b : Binding} {vs : List Var} (h : (vs.mapM b).isSome = true) : ∀ v ∈ vs, (b v).isSome = true := by
  induction vs with
  | nil => exact fun _ hv => absurd hv List.not_mem_nil
  | cons w vs ih =>
    rw [List.mapM_cons] at h
    cases hw : b w with
    | none => simp [hw] at h
    | some x =>
      cases hvs : vs.mapM b with
      | none => simp [hw, hvs] at h
      | some xs => exact List.forall_mem_cons.2 ⟨by rw [hw]; rfl, ih (by rw [hvs]; rfl)⟩

/-- Bindings that miss one of the variables give no tuple. -/
theorem Direct.tuples_eq_nil {vs : List Var} {bs : List Binding} (h : ∀ b ∈ bs, vs.mapM b = none) :
    tuples vs bs = .nil := by
  unfold tuples
  induction bs with
  | nil => rfl
  | cons b bs ih =>
    rw [List.forall_mem_cons] at h
    rw [List.foldl_cons, h.1]
    exact ih h.2

/-- Where there are tuples, some binding bound all variables. -/
theorem Direct.exists_of_tuples {vs : List Var} {bs : List Binding} (h : (tuples vs bs).entries ≠ []) :
    ∃ b ∈ bs, (vs.mapM b).isSome = true := by
  refine Classical.byContradiction fun hnone => h ?_
  rw [tuples_eq_nil fun b hb => Option.not_isSome_iff_eq_none.1 fun hsome => hnone ⟨b, hb, hsome⟩]
  rfl

section
variable {N : Nat} {inv : Store → Prop} {given : Given}

/-- What a mark makes of a store. -/
def markStore (id : Nat) (keys : List Var) (b : Binding) (k : Store) : Store :=
  (keys.mapM b).elim k fun tuple => k.setProjection id ((k.projections[id]?.getD .nil).insert tuple)

/-- A mark adds the tuple of the present binding to its projection. -/
theorem acts_mark (hset : ∀ k id tree, inv k → inv (Store.setProjection k id tree)) (id : Nat) (keys : List Var)
    {b : Binding} (hb : b.Below N) : Acts N inv (Stmt.execAll given [.mark id keys]) b (markStore id keys b) := by
  intro k hk
  simp only [Stmt.execAll, Stmt.exec, Store.values?_under hb, markStore]
  cases keys.mapM b with
  | none => exact ⟨rfl, hk⟩
  | some tuple => exact ⟨rfl, hset k id _ hk⟩

/-- Marks under bindings collect their tuples. -/
theorem foldl_markStore {id : Nat} (keys : List Var) (bs : List Binding) {k : Store} (hid : id < k.projections.length)
    (tree : KeyTree) :
    bs.foldl (fun k b => markStore id keys b k) (k.setProjection id tree) =
      k.setProjection id (bs.foldl (fun tree b => (keys.mapM b).elim tree tree.insert) tree) := by
  induction bs generalizing tree with
  | nil => rfl
  | cons b bs ih =>
    rw [List.foldl_cons, List.foldl_cons, markStore]
    cases keys.mapM b with
    | none => exact ih tree
    | some tuple =>
      rw [Option.elim_some, Option.elim_some, ← ih (tree.insert tuple)]
      simp [Store.setProjection, hid]

/-- A projection runs its body for the tuples that its filling marks. -/
theorem exec_project {id : Nat} {keys : List Var} {fill body : List Stmt} {bs : List Binding} {b : Binding} {k : Store}
    (hid : id < k.projections.length)
    (hfill : Stmt.execAll given fill ((k.setProjection id .nil).under N b) =
      (bs.foldl (fun k c => markStore id keys c k) (k.setProjection id .nil)).under N b) :
    Stmt.execAll given [.project id keys fill body] (k.under N b) =
      State.forTuples (Stmt.execAll given body) keys (Direct.tuples keys bs) ((k.setProjection id .nil).under N b) := by
  rw [foldl_markStore keys bs hid .nil] at hfill
  change State.forTuples _ keys ((Stmt.execAll given fill ((k.setProjection id .nil).under N b)).projection id)
    ((Stmt.execAll given fill ((k.setProjection id .nil).under N b)).setProjection id .nil) = _
  rw [hfill]
  congr 1
  · simp [State.projection, Store.under, Store.setProjection, hid, Direct.tuples]
  · simp [State.setProjection, Store.under, Store.setProjection]

/-- Where there are tuples, their variables are below `N`. -/
theorem lt_of_tuples {keys : List Var} {bs : List Binding} (hbs : ∀ c ∈ bs, c.Below N)
    (hne : (Direct.tuples keys bs).entries ≠ []) : ∀ v ∈ keys, v < N := by
  intro v hv
  obtain ⟨c, hc, hsome⟩ := Direct.exists_of_tuples hne
  refine Nat.lt_of_not_le fun hle => ?_
  have := isSome_of_mapM hsome v hv
  rw [hbs c hc v hle] at this
  cases this

/-- A projection runs its body under the bindings of the tuples that its filling marks. -/
theorem acts_project (hset : ∀ k id tree, inv k → inv (Store.setProjection k id tree)) {id : Nat}
    (hid : ∀ k, inv k → id < k.projections.length) {keys : List Var} {fill body : List Stmt} {bs : List Binding}
    {G : Binding → Store → Store} {b : Binding} (hb : b.Below N) (hbs : ∀ c ∈ bs, c.Below N)
    (hfill : Acts N inv (Stmt.execAll given fill) b fun k => bs.foldl (fun k c => markStore id keys c k) k)
    (hbody : ∀ b : Binding, b.Below N → Acts N inv (Stmt.execAll given body) b (G b)) :
    Acts N inv (Stmt.execAll given [.project id keys fill body]) b fun k =>
      ((Direct.tuples keys bs).bindings keys b).foldl (fun k c => G c k) (k.setProjection id .nil) := by
  intro k hk
  have htuples := acts_forTuples hbody keys (Direct.tuples keys bs) (lt_of_tuples hbs) hb _ (hset k id .nil hk)
  refine ⟨?_, htuples.2⟩
  rw [exec_project (hid k hk) (hfill _ (hset k id .nil hk)).1]
  exact htuples.1

end

end StarQuery
