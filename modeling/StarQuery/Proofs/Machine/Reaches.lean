import StarQuery.Machine.Exec
import StarQuery.Proofs.Program.Standing

/-!
# The states that a run passes through

`Stmt.Reaches` tells which statements are run in which states while a list of statements runs, at any depth. A statement leaves
the variables as they are (`env_exec`), a loop gives its variable a value in its body only. So a statement is run in states that
bind all variables that are bound where it stands (`Reaches.stands`).
-/

namespace StarQuery

namespace State

/-! ## What a statement leaves as it is -/

/-- Giving a variable the value that it has changes nothing. -/
theorem set_value? (st : State) (v : Var) : st.env.set v (st.value? v) = st.env := by
  unfold value?
  by_cases hv : v < st.env.length
  · simp [hv]
  · exact List.set_eq_of_length_le (Nat.le_of_not_lt hv)

/-- Rounds that each leave the variables as they are, but for the one that they give a value, leave the others as they are. -/
theorem env_rounds {α : Type} (run : α → State → State) (key : α → Json) (hrun : ∀ a st, (run a st).env = st.env) (v : Var)
    (x : Option Json) (items : List α) (st : State) :
    (items.foldl (fun st a => run a (st.setVar v (some (key a)))) st).env.set v x = st.env.set v x := by
  induction items generalizing st with
  | nil => rfl
  | cons a items ih =>
    rw [List.foldl_cons, ih, hrun]
    simp only [setVar, List.set_set]

/-- A loop through values leaves the variables as they are, if its body does. -/
theorem env_forEach {run : State → State} (hrun : ∀ st, (run st).env = st.env) (v : Var) (values : List Json) (st : State) :
    (forEach run v values st).env = st.env := by
  have hrounds := env_rounds (fun _ => run) (fun value => value) (fun _ => hrun) v (st.value? v) values st
  rw [set_value?] at hrounds
  exact hrounds

/-- A loop through tuples leaves the variables as they are, if its body does. -/
theorem env_forTuples {run : State → State} (hrun : ∀ st, (run st).env = st.env) (keys : List Var) (tree : KeyTree)
    (st : State) : (forTuples run keys tree st).env = st.env := by
  induction keys generalizing tree st with
  | nil => exact hrun st
  | cons v vs ih =>
    have hrounds := env_rounds (fun item => forTuples run vs item.2) Prod.fst (fun item => ih item.2) v (st.value? v)
      tree.entries st
    rw [set_value?] at hrounds
    exact hrounds

end State

mutual
/-- A statement leaves the variables as they are. -/
theorem Stmt.env_exec (given : Given) : ∀ (s : Stmt) (st : State), (s.exec given st).env = st.env
  | .comment _, st | .error _, st => rfl
  | .loop deep v source body, st => by
    rw [exec]
    split
    · rfl
    · exact State.env_forEach (env_execAll given body) v _ st
  | .test deep v source body, st => by
    rw [exec]
    split
    · split
      · exact env_execAll given body st
      · rfl
    · rfl
  | .project id keys fill body, st => by
    have hfilled := env_execAll given fill (st.setProjection id .nil)
    exact (State.env_forTuples (env_execAll given body) keys _ _).trans hfilled
  | .mark id keys, st => by
    rw [exec]
    split <;> rfl
  | .start slot keys value copy, st => by
    rw [exec]
    split <;> rfl
  | .step slot keys action, st => by
    rw [exec]
    split <;> rfl
/-- Statements leave the variables as they are. -/
theorem Stmt.env_execAll (given : Given) : ∀ (stmts : List Stmt) (st : State), (execAll given stmts st).env = st.env
  | [], _ => rfl
  | s :: rest, st => (env_execAll given rest (exec given s st)).trans (env_exec given s st)
end

namespace State

/-! ## Bound variables -/

/-- All variables of a set have values. -/
def Binds (st : State) (scope : VarSet) : Prop := ∀ v ∈ scope, (st.value? v).isSome = true

/-- What is bound depends on the values of the variables only. -/
theorem Binds.of_env {st st' : State} {scope : VarSet} (h : st.Binds scope) (henv : st'.env = st.env) : st'.Binds scope := by
  intro v hv
  rw [value?, henv]
  exact h v hv

/-- One more variable is bound after it is given a value. -/
theorem Binds.setVar {st st' : State} {scope : VarSet} (h : st.Binds scope) {v : Var} (hv : v < st.env.length) {x : Json}
    (henv : st'.env = st.env.set v (some x)) : st'.Binds (scope.insert v) := by
  intro w hw
  rw [value?, henv, List.getElem?_set]
  by_cases hvw : v = w
  · rw [if_pos hvw, if_pos hv]
    rfl
  · rw [if_neg hvw]
    exact h w ((VarSet.mem_insert.1 hw).resolve_left (Ne.symm hvw))

/-- The states in which something is run for the tuples of a tree. -/
inductive Visits (run : State → State) : List Var → KeyTree → State → State → Prop where
  | here (tree : KeyTree) (st : State) : Visits run [] tree st st
  /-- The keys before the present one have been gone through. -/
  | next {v : Var} {vs : List Var} {tree below : KeyTree} {key : Json} {before after : List (Json × KeyTree)}
      {st st' : State} : tree.entries = before ++ (key, below) :: after →
      Visits run vs below
        ((before.foldl (fun st item => forTuples run vs item.2 (st.setVar v (some item.1))) st).setVar v (some key)) st' →
      Visits run (v :: vs) tree st st'

/-- In those states the variables of the tuples are bound. -/
theorem Visits.binds {run : State → State} {keys : List Var} {tree : KeyTree} {st st' : State}
    (h : Visits run keys tree st st') (hrun : ∀ st, (run st).env = st.env) (hkeys : ∀ v ∈ keys, v < st.env.length)
    {scope : VarSet} (hscope : st.Binds scope) :
    st'.Binds (scope ∪ .ofList keys) ∧ st'.env.length = st.env.length := by
  induction h generalizing scope with
  | here tree st =>
    refine ⟨fun v hv => hscope v ?_, rfl⟩
    simpa using hv
  | @next v vs tree below key before after st st' hentries _ ih =>
    obtain ⟨hv, hvs⟩ := List.forall_mem_cons.1 hkeys
    have henv := env_rounds (fun item => forTuples run vs item.2) Prod.fst (fun item => env_forTuples hrun vs item.2) v
      (some key) before st
    have hlength := (congrArg List.length henv).trans List.length_set
    obtain ⟨hbinds, hlen⟩ := ih (fun w hw => Nat.lt_of_lt_of_eq (hvs w hw) hlength.symm) (hscope.setVar hv henv)
    refine ⟨fun w hw => hbinds w ?_, hlen.trans hlength⟩
    simp only [VarSet.mem_union, VarSet.mem_ofList, List.mem_cons, VarSet.mem_insert] at hw ⊢
    rcases hw with hw | hw | hw
    · exact .inl (.inr hw)
    · exact .inl (.inl hw)
    · exact .inr hw

end State

namespace Stmt

/-! ## Reached statements -/

/-- While statements run from a state, a statement of theirs, nested ones included, is run in a state. -/
inductive Reaches (given : Given) : List Stmt → State → Stmt → State → Prop where
  | here (s : Stmt) (rest : List Stmt) (st : State) : Reaches given (s :: rest) st s st
  | later {s t : Stmt} {rest : List Stmt} {st st' : State} : Reaches given rest (exec given s st) t st' →
      Reaches given (s :: rest) st t st'
  /-- In the body of a loop, for one of the values that the loop runs through. -/
  | loop {deep : Bool} {v : Var} {source : Expr} {body rest : List Stmt} {st st' : State} {t : Stmt} {collection value : Json}
      {before after : List Json} : source.eval given st = some collection →
      choices deep collection = before ++ value :: after →
      Reaches given body
        ((before.foldl (fun st value => execAll given body (st.setVar v (some value))) st).setVar v (some value)) t st' →
      Reaches given (.loop deep v source body :: rest) st t st'
  | test {deep : Bool} {v : Var} {source : Expr} {body rest : List Stmt} {st st' : State} {t : Stmt}
      {collection value : Json} : source.eval given st = some collection → st.value? v = some value →
      admits deep collection value = true → Reaches given body st t st' →
      Reaches given (.test deep v source body :: rest) st t st'
  /-- While the tuples of a projection are collected. -/
  | fill {id : Nat} {keys : List Var} {fill body rest : List Stmt} {st st' : State} {t : Stmt} :
      Reaches given fill (st.setProjection id .nil) t st' → Reaches given (.project id keys fill body :: rest) st t st'
  /-- In the body of a projection, for one of its tuples. -/
  | project {id : Nat} {keys : List Var} {fill body rest : List Stmt} {st filled st' st'' : State} {t : Stmt} :
      execAll given fill (st.setProjection id .nil) = filled →
      State.Visits (execAll given body) keys (filled.projection id) (filled.setProjection id .nil) st' →
      Reaches given body st' t st'' → Reaches given (.project id keys fill body :: rest) st t st''

/-- The variables that a statement binds in its body. -/
def binders : Stmt → List Var
  | .loop _ v _ _ => [v]
  | .project _ keys _ _ => keys
  | _ => []

/-- A statement is run in states that bind all variables that are bound where it stands. -/
theorem Reaches.stands {given : Given} {stmts : List Stmt} {t : Stmt} {st st' : State} (h : Reaches given stmts st t st')
    {scope : VarSet} {N : Nat} (hN : st.env.length = N) (hscope : st.Binds scope)
    (hbelow : EveryIn (fun _ s => ∀ v ∈ s.binders, v < N) scope stmts) :
    ∃ x ∈ listPlaced scope stmts, x.2 = t ∧ st'.Binds x.1 := by
  -- the statements of a part of a statement are among those of the list that begins with it
  have hpart : ∀ {s : Stmt} {rest : List Stmt} {inner : List (VarSet × Stmt)} {t : Stmt} {st' : State} {scope : VarSet},
      inner ⊆ placed scope s → (∃ x ∈ inner, x.2 = t ∧ st'.Binds x.1) →
      ∃ x ∈ listPlaced scope (s :: rest), x.2 = t ∧ st'.Binds x.1 := by
    rintro s rest inner t st' scope hsub ⟨x, hx, ht⟩
    exact ⟨x, List.mem_append_left _ (hsub hx), ht⟩
  induction h generalizing scope with
  | here s rest st =>
    refine ⟨(scope, s), List.mem_append_left _ ?_, rfl, hscope⟩
    cases s <;> simp [placed]
  | @later s t rest st st' _ ih =>
    have henv := env_exec given s st
    obtain ⟨x, hx, ht⟩ := ih (henv ▸ hN) (hscope.of_env henv) (everyIn_cons.1 hbelow).2
    exact ⟨x, List.mem_append_right _ hx, ht⟩
  | @loop deep v source body rest st st' t collection value before after _ _ _ ih =>
    obtain ⟨hv, hbody⟩ := everyIn_loop.1 (everyIn_cons.1 hbelow).1
    have henv := State.env_rounds (fun _ => execAll given body) (fun value => value) (fun _ => env_execAll given body) v
      (some value) before st
    refine hpart (List.subset_cons_self _ _) (ih ?_ (hscope.setVar ?_ henv) hbody)
    · exact (congrArg List.length henv).trans (List.length_set.trans hN)
    · rw [hN]
      exact hv v List.mem_cons_self
  | test _ _ _ _ ih =>
    exact hpart (List.subset_cons_self _ _) (ih hN hscope (everyIn_test.1 (everyIn_cons.1 hbelow).1).2)
  | fill _ ih =>
    obtain ⟨-, hfill, -⟩ := everyIn_project.1 (everyIn_cons.1 hbelow).1
    refine hpart (fun x hx => ?_) (ih hN (hscope.of_env rfl) hfill)
    exact List.mem_cons_of_mem _ (List.mem_append_left _ hx)
  | @project id keys fill body rest st filled st' st'' t hfilled hvisits _ ih =>
    obtain ⟨hkeys, -, hbody⟩ := everyIn_project.1 (everyIn_cons.1 hbelow).1
    have henv : (filled.setProjection id .nil).env = st.env := by
      rw [← hfilled]
      exact env_execAll given fill (st.setProjection id .nil)
    have hlt : ∀ v ∈ keys, v < (filled.setProjection id .nil).env.length := by
      rw [henv, hN]
      exact hkeys
    obtain ⟨hbinds, hlen⟩ := hvisits.binds (env_execAll given body) hlt (hscope.of_env henv)
    refine hpart (fun x hx => ?_) (ih (hlen.trans ((congrArg List.length henv).trans hN)) hbinds hbody)
    exact List.mem_cons_of_mem _ (List.mem_append_right _ hx)

end Stmt

end StarQuery
