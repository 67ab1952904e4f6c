import StarQuery.Proofs.Number.Neutral
import StarQuery.Proofs.Reducer.ClosedForm

/-!
# Nullable reducers and their plain forms

Both forms of a reducer step alike; they differ in how they begin. The plain form takes the first defined input into its start,
the nullable form makes a state of it. For most reducers this is the same state. A sum and a product, however, take the input
itself as their first state, while the plain forms only ever hold settled numbers (`isSettled_fold`). So the two forms agree
whatever follows a first input just if this is settled, and on no inputs at all if it is not even numeric.
-/

namespace StarQuery

namespace Json

/-- A number in the form in which arithmetic leaves its results: an integer of 64 bits, or a finite double that is not a whole
number below `9 · 10 ^ 15`. -/
def isSettled : Json → Bool
  | .num (.int n) => fitsInt64 n
  | .num (.float x) => isFinite x && !(wholeOf? x).any fun n => decide (n.natAbs < 9000000000000000)
  | _ => false

/-- Whether arithmetic takes a value for a number: it is an integer of 64 bits, or stands for a finite double. -/
def isNumeric (v : Json) : Bool := v.toInt64?.isSome || v.toFloat?.any isFinite

/-- A double that is a whole number is finite. -/
theorem isFinite_of_wholeOf? {x : Float} {n : Int} (h : wholeOf? x = some n) : isFinite x = true := by
  obtain ⟨s, hs, -⟩ := Option.bind_eq_some_iff.1 h
  rw [isFinite, hs]
  rfl

/-! ## Arithmetic gives settled numbers -/

/-- The value of a double is settled. -/
theorem isSettled_ofFloat? {x : Float} {v : Json} (h : ofFloat? x = some v) : v.isSettled = true := by
  unfold ofFloat? at h
  split at h
  · rename_i n hwhole
    split at h
    · rename_i hsmall
      cases h
      simp only [ofInt, isSettled, fitsInt64, Bool.and_eq_true, decide_eq_true_eq]
      omega
    · rename_i hlarge
      cases h
      simp [isSettled, isFinite_of_wholeOf? hwhole, hwhole, hlarge]
  · rename_i hwhole
    split at h
    · rename_i hfinite
      cases h
      simp [isSettled, hfinite, hwhole]
    · cases h

/-- The result of arithmetic is settled. -/
theorem isSettled_combine {onInt : Int → Int → Int} {onFloat : Float → Float → Float} {a b v : Json}
    (h : combine onInt onFloat a b = some v) : v.isSettled = true := by
  have hfloat : (do ofFloat? (onFloat (← a.toFloat?) (← b.toFloat?))) = some v → v.isSettled = true := by
    intro h
    obtain ⟨x, -, h⟩ := Option.bind_eq_some_iff.1 h
    obtain ⟨y, -, h⟩ := Option.bind_eq_some_iff.1 h
    exact isSettled_ofFloat? h
  unfold combine at h
  split at h
  · split at h
    · rename_i hfits
      cases h
      exact hfits
    · exact hfloat h
  · exact hfloat h

/-- Settled numbers are numeric. -/
theorem isNumeric_of_isSettled {v : Json} (h : v.isSettled = true) : v.isNumeric = true := by
  cases v with
  | num n =>
    cases n with
    | int n =>
      have hn : (Json.num (.int n)).toInt64? = some n := if_pos h
      rw [isNumeric, hn]
      rfl
    | float x =>
      rw [isSettled, Bool.and_eq_true] at h
      exact h.1
  | _ => cases h

/-- A settled double is the value of itself. -/
theorem ofFloat?_of_isSettled {x : Float} (h : isSettled (.num (.float x)) = true) : ofFloat? x = some (.num (.float x)) := by
  simp only [isSettled, Bool.and_eq_true, Bool.not_eq_true'] at h
  unfold ofFloat?
  split
  · rename_i n hwhole
    have hlarge : ¬ n.natAbs < 9000000000000000 := by simpa [hwhole] using h.2
    rw [if_neg hlarge]
  · rw [if_pos h.1]

/-- An operation on doubles with a neutral number on its left gives settled numbers back. -/
theorem combine_of_isSettled {onInt : Int → Int → Int} {onFloat : Float → Float → Float} {e : Int} (he : fitsInt64 e = true)
    (hint : ∀ n, onInt e n = n) (hfloat : ∀ x, isSettled (.num (.float x)) = true → onFloat (Float.ofInt e) x = x) {v : Json}
    (hv : v.isSettled = true) : combine onInt onFloat (ofInt e) v = some v := by
  have hneutral : (ofInt e).toInt64? = some e := if_pos he
  cases v with
  | num n =>
    cases n with
    | int n =>
      have hn : (Json.num (.int n)).toInt64? = some n := if_pos hv
      rw [combine, hneutral, hn]
      simp only [hint]
      exact if_pos hv
    | float x =>
      have hsame := ofFloat?_of_isSettled hv
      rw [← hfloat x hv] at hsame
      rw [combine, hneutral]
      exact hsame.trans (congrArg (fun y => some (Json.num (.float y))) (hfloat x hv))
  | _ => cases hv

/-- Adding to zero leaves a settled number. -/
theorem zero_add_of_isSettled {v : Json} (h : v.isSettled = true) : add (ofInt 0) v = some v := by
  refine combine_of_isSettled (by decide) Int.zero_add (fun x hx => ?_) h
  -- negative zero is whole, and not settled
  refine (zero_add_or x).resolve_left ?_
  rintro rfl
  exact absurd hx (by decide +kernel)

/-- Multiplying with one leaves a settled number. -/
theorem one_mul_of_isSettled {v : Json} (h : v.isSettled = true) : mul (ofInt 1) v = some v :=
  combine_of_isSettled (by decide) Int.one_mul (fun x _ => one_mul_eq x) h

/-- What is not numeric cannot be combined with anything, if the operation on doubles keeps what is not finite. -/
theorem combine_of_not_isNumeric {onInt : Int → Int → Int} {onFloat : Float → Float → Float}
    (hfloat : ∀ x, Scaled.ofFloat? x = none → ∀ y, Scaled.ofFloat? (onFloat x y) = none) {v : Json} (hv : v.isNumeric = false)
    (w : Json) : combine onInt onFloat v w = none := by
  simp only [isNumeric, Bool.or_eq_false_iff, Option.isSome_eq_false_iff, Option.isNone_iff_eq_none] at hv
  rw [combine, hv.1]
  cases hx : v.toFloat? with
  | none => rfl
  | some x =>
    have hinfinite : Scaled.ofFloat? x = none := by simpa [hx, isFinite] using hv.2
    cases hy : w.toFloat? with
    | none => rfl
    | some y =>
      have hresult := hfloat x hinfinite y
      change ofFloat? (onFloat x y) = none
      rw [ofFloat?, wholeOf?, isFinite, hresult]
      rfl

end Json

/-- A sum or a product: what a folding takes from its inputs is the result of arithmetic. -/
def Folding.isArithmetic : Folding → Bool
  | .sum | .product => true
  | _ => false

namespace Reducer

variable {f : Folding} {x : Json} {xs : List (Option Json)}

/-- The first defined input. -/
def firstInput? (xs : List (Option Json)) : Option Json := xs.findSome? id

/-! ## How a reduction begins -/

/-- Both forms step alike. -/
theorem step_eq (f : Folding) : step ⟨f, true⟩ = step ⟨f, false⟩ := by
  funext state x
  cases state <;> cases x <;> rfl

/-- Without a defined input the state stays what it is. -/
theorem foldl_of_firstInput?_eq_none (r : Reducer) (state : Option Json) (h : firstInput? xs = none) :
    xs.foldl r.step state = state := by
  have hhead : (inputs xs).head? = none := List.head?_filterMap.trans h
  exact foldl_step_of_inputs_eq_nil r state (List.head?_eq_none_iff.1 hhead)

/-- Inputs that are undefined are passed over, and the first that is defined is taken into the start. -/
theorem foldl_of_firstInput? (h : firstInput? xs = some x) :
    ∃ later : List (Option Json), ∀ (r : Reducer) (state : Option Json),
      xs.foldl r.step state = later.foldl r.step (r.step state (some x)) := by
  induction xs with
  | nil => cases h
  | cons y xs ih =>
    cases y with
    | none => exact ih h
    | some y =>
      cases h
      exact ⟨xs, fun _ _ => rfl⟩

/-- Two forms that hold the same after the first defined input hold the same in the end. -/
theorem fold_eq_of_first (h : firstInput? xs = some x)
    (hfirst : step ⟨f, true⟩ none (some x) = step ⟨f, false⟩ (start ⟨f, false⟩) (some x)) :
    fold ⟨f, true⟩ xs = fold ⟨f, false⟩ xs := by
  obtain ⟨later, hlater⟩ := foldl_of_firstInput? h
  have hnone : start ⟨f, true⟩ = none := rfl
  rw [fold, fold, hlater, hlater, hnone, hfirst, step_eq]

/-- Apart from sums and products, the nullable form makes of the first input what the plain form makes of it. -/
theorem step_none_eq (hf : f.isArithmetic = false) (x : Json) :
    step ⟨f, true⟩ none (some x) = step ⟨f, false⟩ (start ⟨f, false⟩) (some x) := by
  cases f with
  | sum | product => cases hf
  | count | max | min | array | first | last | single => rfl
  | all | any => simp [step, start, firstState, nextState, Json.truthy]

/-- A sum and a product make of a settled first input what the plain forms make of it: the input itself. -/
theorem step_none_eq_of_isSettled (hf : f.isArithmetic = true) (hx : x.isSettled = true) :
    step ⟨f, true⟩ none (some x) = step ⟨f, false⟩ (start ⟨f, false⟩) (some x) := by
  cases f with
  | sum =>
    change some x = some ((Json.add (Json.ofInt 0) x).getD (Json.ofInt 0))
    rw [Json.zero_add_of_isSettled hx, Option.getD_some]
  | product =>
    change some x = some ((Json.mul (Json.ofInt 1) x).getD (Json.ofInt 1))
    rw [Json.one_mul_of_isSettled hx, Option.getD_some]
  | _ => cases hf

/-! ## What the states are -/

/-- A sum or a product that holds a settled number holds one after every input. -/
theorem isSettled_nextState (hf : f.isArithmetic = true) {state : Json} (hstate : state.isSettled = true) (x : Json) :
    (nextState f state x).isSettled = true := by
  have hgetD : ∀ {v? : Option Json}, (∀ v, v? = some v → v.isSettled = true) → (v?.getD state).isSettled = true := by
    intro v? hv
    cases v? with
    | none => exact hstate
    | some v => exact hv v rfl
  cases f with
  | sum | product => exact hgetD fun v => Json.isSettled_combine
  | _ => cases hf

/-- A sum or a product that holds a settled number holds one after all inputs. -/
theorem isSettled_foldl (hf : f.isArithmetic = true) {state : Json} (hstate : state.isSettled = true) (ds : List Json) :
    (ds.foldl (nextState f) state).isSettled = true := by
  induction ds generalizing state with
  | nil => exact hstate
  | cons d ds ih => exact ih (isSettled_nextState hf hstate d)

/-- A plain sum or product is a settled number, whatever its inputs. -/
theorem isSettled_fold (hf : f.isArithmetic = true) (xs : List (Option Json)) :
    ∃ v, fold ⟨f, false⟩ xs = some v ∧ v.isSettled = true := by
  cases f with
  | sum => exact ⟨_, foldl_step_some ⟨.sum, false⟩ xs (.ofInt 0), isSettled_foldl hf (by decide) _⟩
  | product => exact ⟨_, foldl_step_some ⟨.product, false⟩ xs (.ofInt 1), isSettled_foldl hf (by decide) _⟩
  | _ => cases hf

/-- A nullable sum or product takes its first input for its state. -/
theorem firstState_eq (hf : f.isArithmetic = true) (x : Json) : firstState f x = x := by
  cases f with
  | sum | product => rfl
  | _ => cases hf

/-- A nullable sum or product holds a first input that is not numeric for good. -/
theorem fold_of_not_isNumeric (hf : f.isArithmetic = true) (h : firstInput? xs = some x) (hx : x.isNumeric = false) :
    fold ⟨f, true⟩ xs = some x := by
  have hkeeps : ∀ y, nextState f x y = x := by
    intro y
    cases f with
    | sum => exact congrArg (Option.getD · x) (Json.combine_of_not_isNumeric (fun _ => ofFloat?_add_eq_none) hx y)
    | product => exact congrArg (Option.getD · x) (Json.combine_of_not_isNumeric (fun _ => ofFloat?_mul_eq_none) hx y)
    | _ => cases hf
  have hfold : ∀ ds : List Json, ds.foldl (nextState f) x = x := by
    intro ds
    induction ds with
    | nil => rfl
    | cons d ds ih => rw [List.foldl_cons, hkeeps, ih]
  obtain ⟨later, hlater⟩ := foldl_of_firstInput? h
  have hfirst : step ⟨f, true⟩ (start ⟨f, true⟩) (some x) = some x := congrArg some (firstState_eq hf x)
  rw [fold, hlater, hfirst, foldl_step_some, hfold]

end Reducer

open Reducer in
/-- A nullable reducer against its plain form.

* The two agree on all inputs of which `x` is the first defined one if and only if `x` is settled, or the reducer is neither a
  sum nor a product. So of every other reducer the two agree on all inputs with a defined one.
* A sum or a product whose first defined input is not numeric has that input as its nullable form, and another value as its
  plain form, whatever the later inputs are.
* On inputs none of which is defined, the nullable form is undefined, and the plain form is its start. -/
theorem nullable_reducers_agree_iff (f : Folding) :
    (∀ x, (∀ xs, firstInput? xs = some x → fold ⟨f, true⟩ xs = fold ⟨f, false⟩ xs) ↔
      (f.isArithmetic = true → x.isSettled = true)) ∧
    (∀ xs x, firstInput? xs = some x → f.isArithmetic = true → x.isNumeric = false →
      fold ⟨f, true⟩ xs = some x ∧ fold ⟨f, false⟩ xs ≠ some x) ∧
    ∀ xs, firstInput? xs = none → fold ⟨f, true⟩ xs = none ∧ fold ⟨f, false⟩ xs = start ⟨f, false⟩ := by
  refine ⟨fun x => ⟨fun hagree hf => ?_, fun hsettled xs hxs => ?_⟩, fun xs x hxs hf hx => ⟨?_, ?_⟩, fun xs hxs => ⟨?_, ?_⟩⟩
  · -- the nullable form of `x` alone is `x`
    obtain ⟨v, hv, hsettled⟩ := isSettled_fold hf [some x]
    have halone : some (firstState f x) = some v := (hagree [some x] rfl).trans hv
    rw [firstState_eq hf, Option.some.injEq] at halone
    exact halone ▸ hsettled
  · refine fold_eq_of_first hxs ?_
    cases hf : f.isArithmetic with
    | false => exact step_none_eq hf x
    | true => exact step_none_eq_of_isSettled hf (hsettled hf)
  · exact fold_of_not_isNumeric hf hxs hx
  · intro hplain
    obtain ⟨v, hv, hsettled⟩ := isSettled_fold hf xs
    cases hplain.symm.trans hv
    rw [Json.isNumeric_of_isSettled hsettled] at hx
    cases hx
  · exact foldl_of_firstInput?_eq_none ⟨f, true⟩ none hxs
  · exact foldl_of_firstInput?_eq_none ⟨f, false⟩ _ hxs

open Reducer in
/-- The two sums agree if an integer comes first and a text later, not if the text comes first; without a defined input one
product is undefined, the other one. -/
theorem nullable_reducers_with_text :
    fold ⟨.sum, true⟩ [none, some (.ofInt 1), some (.str "n/a"), some (.ofInt 2)] =
      fold ⟨.sum, false⟩ [none, some (.ofInt 1), some (.str "n/a"), some (.ofInt 2)] ∧
    (fold ⟨.sum, true⟩ [none, some (.str "n/a"), some (.ofInt 1), some (.ofInt 2)] = some (.str "n/a") ∧
      fold ⟨.sum, false⟩ [none, some (.str "n/a"), some (.ofInt 1), some (.ofInt 2)] ≠ some (.str "n/a")) ∧
    (fold ⟨.product, true⟩ [none] = none ∧ fold ⟨.product, false⟩ [none] = start ⟨.product, false⟩) :=
  ⟨((nullable_reducers_agree_iff .sum).1 (.ofInt 1)).2 (fun _ => by decide) _ rfl,
    (nullable_reducers_agree_iff .sum).2.1 _ (.str "n/a") rfl rfl (by decide),
    (nullable_reducers_agree_iff .product).2.2 [none] rfl⟩

end StarQuery
