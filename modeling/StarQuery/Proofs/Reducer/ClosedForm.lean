import Mathlib.Algebra.Ring.Int.Defs
import StarQuery.Operator.Reducer

/-!
# Reductions in closed form

A reduction passes over inputs that are undefined. Once it has a state it takes the defined inputs into it one by one
(`foldl_step_some`); before that it makes its first state of the first defined input (`foldl_step_none`). Where this first state is
what the start of the plain form becomes with the same input, both forms are one fold over the defined inputs (`fold_eq_some`), and
for each folding this fold has a closed form.
-/

namespace StarQuery

/-! ## Arithmetic on integers of 64 bits -/

namespace Json

/-- The values that are integers of 64 bits. -/
theorem toInt64?_eq_some {v : Json} {n : Int} : v.toInt64? = some n ↔ v = ofInt n ∧ fitsInt64 n = true := by
  constructor
  · intro h
    unfold toInt64? at h
    split at h
    · split at h
      · rename_i hfits
        cases h
        exact ⟨rfl, hfits⟩
      · cases h
    · cases h
  · rintro ⟨rfl, hfits⟩
    exact if_pos hfits

/-- Values that are integers of 64 bits are the values of these integers. -/
theorem eq_map_ofInt {ds : List Json} {ns : List Int} (h : ds.map toInt64? = ns.map some) :
    ds = ns.map ofInt ∧ ∀ n ∈ ns, fitsInt64 n = true := by
  induction ds generalizing ns with
  | nil =>
    cases ns with
    | nil => exact ⟨rfl, fun n hn => absurd hn List.not_mem_nil⟩
    | cons n ns => cases h
  | cons d ds ih =>
    cases ns with
    | nil => cases h
    | cons n ns =>
      rw [List.map_cons, List.map_cons, List.cons.injEq] at h
      obtain ⟨rfl, hfits⟩ := toInt64?_eq_some.1 h.1
      obtain ⟨rfl, hall⟩ := ih h.2
      exact ⟨rfl, List.forall_mem_cons.2 ⟨hfits, hall⟩⟩

/-- Integers are combined exactly if the result has 64 bits too. -/
theorem combine_ofInt {onInt : Int → Int → Int} {onFloat : Float → Float → Float} {m n : Int} (hm : fitsInt64 m = true)
    (hn : fitsInt64 n = true) (h : fitsInt64 (onInt m n) = true) :
    combine onInt onFloat (ofInt m) (ofInt n) = some (ofInt (onInt m n)) := by
  rw [combine, toInt64?_eq_some.2 ⟨rfl, hm⟩, toInt64?_eq_some.2 ⟨rfl, hn⟩]
  exact if_pos h

end Json

namespace Reducer

variable {f : Folding} {nullable : Bool} {state : Json} {xs : List (Option Json)}

/-! ## Folding the defined inputs -/

/-- The inputs that are defined, in order. -/
def inputs (xs : List (Option Json)) : List Json := xs.filterMap id

/-- A reduction that has a state takes the defined inputs into it. -/
theorem foldl_step_some (r : Reducer) (xs : List (Option Json)) (state : Json) :
    xs.foldl r.step (some state) = some ((inputs xs).foldl (nextState r.folding) state) := by
  induction xs generalizing state with
  | nil => rfl
  | cons x xs ih =>
    cases x with
    | none => exact ih state
    | some x => exact ih _

/-- A reduction that starts undefined begins with the first defined input, and stays undefined without one. -/
theorem foldl_step_none (r : Reducer) (xs : List (Option Json)) :
    xs.foldl r.step none =
      (inputs xs).head?.map fun d => (inputs xs).tail.foldl (nextState r.folding) (firstState r.folding d) := by
  induction xs with
  | nil => rfl
  | cons x xs ih =>
    cases x with
    | none => exact ih
    | some x => exact foldl_step_some r xs _

/-- Both forms of a reducer fold the defined inputs from the start of the plain form, if each of them would make the start into the
first state that the nullable form makes of it. -/
theorem fold_eq_some (hstart : start ⟨f, false⟩ = some state) (hfirst : ∀ d ∈ inputs xs, nextState f state d = firstState f d)
    (h : nullable = false ∨ inputs xs ≠ []) : fold ⟨f, nullable⟩ xs = some ((inputs xs).foldl (nextState f) state) := by
  cases nullable with
  | false => rw [fold, hstart, foldl_step_some]
  | true =>
    have hnone : start ⟨f, true⟩ = none := rfl
    rw [fold, hnone, foldl_step_none]
    cases hinputs : inputs xs with
    | nil => exact absurd hinputs (h.resolve_left Bool.noConfusion)
    | cons d ds =>
      -- one form makes its first state of `d`, the other takes `d` into its start
      have hd : nextState f state d = firstState f d := hfirst d (hinputs ▸ List.mem_cons_self)
      rw [List.head?_cons, Option.map_some, List.tail_cons, List.foldl_cons, hd]

/-- Without a defined input the state stays what it is. -/
theorem foldl_step_of_inputs_eq_nil (r : Reducer) (state : Option Json) (h : inputs xs = []) :
    xs.foldl r.step state = state := by
  cases state with
  | none => rw [foldl_step_none, h, List.head?_nil, Option.map_none]
  | some state => rw [foldl_step_some, h, List.foldl_nil]

/-- There are no more defined inputs than inputs. -/
theorem length_inputs_le (xs : List (Option Json)) : (inputs xs).length ≤ xs.length := List.length_filterMap_le id xs

/-! ## The folds -/

/-- A count goes up by one with each input, as long as it has 64 bits. -/
theorem foldl_count {n : Int} {ds : List Json} (hn : 0 ≤ n) (h : n + ds.length < 0x8000000000000000) :
    ds.foldl (nextState .count) (.ofInt n) = .ofInt (n + ds.length) := by
  induction ds generalizing n with
  | nil => simp
  | cons d ds ih =>
    rw [List.length_cons] at h ⊢
    have hsum : Json.add (.ofInt n) (.ofInt 1) = some (.ofInt (n + 1)) := by
      apply Json.combine_ofInt <;> simp only [fitsInt64, Bool.and_eq_true, decide_eq_true_eq] <;> omega
    have hnext : nextState .count (.ofInt n) d = .ofInt (n + 1) := by rw [nextState, hsum, Option.getD_some]
    rw [List.foldl_cons, hnext, ih (by omega) (by omega)]
    congr 1
    omega

/-- A sum or a product of integers is exact if all partial results have 64 bits. -/
theorem foldl_ints {onInt : Int → Int → Int} {onFloat : Float → Float → Float}
    (hnext : ∀ a b, nextState f a b = (Json.combine onInt onFloat a b).getD a) {ns : List Int} {m : Int}
    (hns : ∀ n ∈ ns, fitsInt64 n = true) (hpartial : ∀ s ∈ ns.scanl onInt m, fitsInt64 s = true) :
    (ns.map .ofInt).foldl (nextState f) (.ofInt m) = .ofInt (ns.foldl onInt m) := by
  induction ns generalizing m with
  | nil => rfl
  | cons n ns ih =>
    rw [List.scanl_cons, List.forall_mem_cons] at hpartial
    rw [List.forall_mem_cons] at hns
    have hresult : fitsInt64 (onInt m n) = true := hpartial.2 _ (by cases ns <;> simp)
    have hstep : nextState f (.ofInt m) (.ofInt n) = .ofInt (onInt m n) := by
      rw [hnext, Json.combine_ofInt hpartial.1 hns.1 hresult, Option.getD_some]
    rw [List.map_cons, List.foldl_cons, List.foldl_cons, hstep, ih hns.2 hpartial.2]

/-- An array takes each input as an item at its end. -/
theorem foldl_array (items ds : List Json) : ds.foldl (nextState .array) (.arr items) = .arr (items ++ ds) := by
  induction ds generalizing items with
  | nil => rw [List.append_nil, List.foldl_nil]
  | cons d ds ih =>
    rw [List.append_cons, ← ih]
    rfl

/-- The first input is kept, whatever follows. -/
theorem foldl_first (state : Json) (ds : List Json) : ds.foldl (nextState .first) state = state := by
  induction ds with
  | nil => rfl
  | cons d ds ih => exact ih

/-- Where an input replaces the state, the last one is left. -/
theorem foldl_last (hnext : ∀ a b, nextState f a b = b) (state : Json) (ds : List Json) :
    ds.foldl (nextState f) state = ds.getLast?.getD state := by
  induction ds generalizing state with
  | nil => rfl
  | cons d ds ih => rw [List.foldl_cons, hnext, ih, List.getLast?_cons, Option.getD_some]

theorem truthy_bool (b : Bool) : Json.truthy (some (.bool b)) = b := by cases b <;> rfl

/-- A state of `all` is whether all inputs so far are satisfied. -/
theorem foldl_all (b : Bool) (ds : List Json) :
    ds.foldl (nextState .all) (.bool b) = .bool (b && ds.all fun d => Json.truthy (some d)) := by
  induction ds generalizing b with
  | nil => simp
  | cons d ds ih => simp [nextState, truthy_bool, ih, Bool.and_assoc]

/-- A state of `any` is whether one of the inputs so far is satisfied. -/
theorem foldl_any (b : Bool) (ds : List Json) :
    ds.foldl (nextState .any) (.bool b) = .bool (b || ds.any fun d => Json.truthy (some d)) := by
  induction ds generalizing b with
  | nil => simp
  | cons d ds ih => simp [nextState, truthy_bool, ih, Bool.or_assoc]

/-! ## The reducers -/

/-- A count is the number of defined inputs. -/
theorem fold_count_of_inputs (hlength : xs.length < 0x8000000000000000) (h : nullable = false ∨ inputs xs ≠ []) :
    fold ⟨.count, nullable⟩ xs = some (.ofInt (inputs xs).length) := by
  have hle := length_inputs_le xs
  rw [fold_eq_some rfl (fun _ _ => rfl) h, foldl_count (Int.le_refl 0) (by omega), Int.zero_add]

/-- An array has the defined inputs as its items. -/
theorem fold_array_of_inputs (h : nullable = false ∨ inputs xs ≠ []) : fold ⟨.array, nullable⟩ xs = some (.arr (inputs xs)) := by
  rw [fold_eq_some rfl (fun _ _ => rfl) h, foldl_array, List.nil_append]

/-- All holds if every defined input is satisfied. -/
theorem fold_all_of_inputs (h : nullable = false ∨ inputs xs ≠ []) :
    fold ⟨.all, nullable⟩ xs = some (.bool ((inputs xs).all fun d => Json.truthy (some d))) := by
  rw [fold_eq_some rfl (fun d _ => by simp [nextState, firstState, truthy_bool]) h, foldl_all, Bool.true_and]

/-- Any holds if some defined input is satisfied. -/
theorem fold_any_of_inputs (h : nullable = false ∨ inputs xs ≠ []) :
    fold ⟨.any, nullable⟩ xs = some (.bool ((inputs xs).any fun d => Json.truthy (some d))) := by
  rw [fold_eq_some rfl (fun d _ => by simp [nextState, firstState, truthy_bool]) h, foldl_any, Bool.false_or]

/-- A reduction of integers by an operation that has the start as its neutral element. -/
theorem fold_ints_of_inputs {onInt : Int → Int → Int} {onFloat : Float → Float → Float} {e : Int}
    (hnext : ∀ a b, nextState f a b = (Json.combine onInt onFloat a b).getD a) (hstart : start ⟨f, false⟩ = some (.ofInt e))
    (hfirst : ∀ d, firstState f d = d) (he : ∀ n, onInt e n = n) {ns : List Int}
    (hints : (inputs xs).map Json.toInt64? = ns.map some) (hpartial : ∀ s ∈ ns.scanl onInt e, fitsInt64 s = true)
    (h : nullable = false ∨ inputs xs ≠ []) : fold ⟨f, nullable⟩ xs = some (.ofInt (ns.foldl onInt e)) := by
  obtain ⟨hinputs, hns⟩ := Json.eq_map_ofInt hints
  have hneutral : fitsInt64 e = true := hpartial e (by cases ns <;> simp)
  have hsame : ∀ d ∈ inputs xs, nextState f (.ofInt e) d = firstState f d := by
    intro d hd
    rw [hinputs, List.mem_map] at hd
    obtain ⟨n, hn, rfl⟩ := hd
    have hresult : fitsInt64 (onInt e n) = true := (he n).symm ▸ hns n hn
    rw [hnext, Json.combine_ofInt hneutral (hns n hn) hresult, Option.getD_some, he, hfirst]
  rw [fold_eq_some hstart hsame h, hinputs, foldl_ints hnext hns hpartial]

/-- The first defined input is taken, if there is one. -/
theorem fold_first (xs : List (Option Json)) : fold ⟨.first, nullable⟩ xs = (inputs xs).head? := by
  have hnone : start ⟨.first, nullable⟩ = none := by cases nullable <;> rfl
  rw [fold, hnone, foldl_step_none]
  cases inputs xs with
  | nil => rfl
  | cons d ds =>
    rw [List.head?_cons, Option.map_some, foldl_first]
    rfl

/-- A reducer that takes every input for its state, and starts undefined, gives the last defined input. -/
theorem fold_last (hnext : ∀ a b, nextState f a b = b) (hfirst : ∀ d, firstState f d = d) (hnone : start ⟨f, nullable⟩ = none)
    (xs : List (Option Json)) : fold ⟨f, nullable⟩ xs = (inputs xs).getLast? := by
  rw [fold, hnone, foldl_step_none]
  cases inputs xs with
  | nil => rfl
  | cons d ds => rw [List.head?_cons, Option.map_some, List.tail_cons, foldl_last hnext, hfirst, List.getLast?_cons]

/-- The reducers that start undefined are the nullable ones, and those that have no neutral value. -/
theorem start_eq_none_iff (r : Reducer) :
    r.start = none ↔ r.nullable = true ∨ r.folding ∈ [Folding.max, .min, .first, .last, .single] := by
  obtain ⟨f, nullable⟩ := r
  cases nullable <;> cases f <;> decide

/-- A state that is defined stays defined. -/
theorem isSome_step (r : Reducer) (state : Json) (x : Option Json) : (r.step (some state) x).isSome = true := by
  cases x <;> rfl

end Reducer

open Reducer in
/-- What the reducers make of a list of inputs, nullable or not, by its defined inputs.

* If there is one, or the reducer is not nullable: their number, their array, whether all or any of them count as satisfied, and
  the exact sum and product of integers of 64 bits all partial results of which have 64 bits.
* In any case the first one, and twice the last one.
* If there is none, the start of the reducer, which is undefined for the nullable ones and those without a neutral value.
* A state that is defined stays defined. -/
theorem reducers_compute_closed_forms (nullable : Bool) (xs : List (Option Json)) (hlength : xs.length < 0x8000000000000000) :
    (nullable = false ∨ inputs xs ≠ [] →
      fold ⟨.count, nullable⟩ xs = some (.ofInt (inputs xs).length) ∧
      fold ⟨.array, nullable⟩ xs = some (.arr (inputs xs)) ∧
      fold ⟨.all, nullable⟩ xs = some (.bool ((inputs xs).all fun d => Json.truthy (some d))) ∧
      fold ⟨.any, nullable⟩ xs = some (.bool ((inputs xs).any fun d => Json.truthy (some d))) ∧
      ∀ ns : List Int, (inputs xs).map Json.toInt64? = ns.map some →
        ((∀ s ∈ ns.scanl (· + ·) 0, fitsInt64 s = true) → fold ⟨.sum, nullable⟩ xs = some (.ofInt ns.sum)) ∧
        ((∀ s ∈ ns.scanl (· * ·) 1, fitsInt64 s = true) → fold ⟨.product, nullable⟩ xs = some (.ofInt ns.prod))) ∧
    (fold ⟨.first, nullable⟩ xs = (inputs xs).head? ∧
      fold ⟨.last, nullable⟩ xs = (inputs xs).getLast? ∧
      fold ⟨.single, nullable⟩ xs = (inputs xs).getLast?) ∧
    (inputs xs = [] → ∀ f, fold ⟨f, nullable⟩ xs = start ⟨f, nullable⟩ ∧
      (start ⟨f, nullable⟩ = none ↔ nullable = true ∨ f ∈ [Folding.max, .min, .first, .last, .single])) ∧
    ∀ f state x, (step ⟨f, nullable⟩ (some state) x).isSome = true := by
  refine ⟨fun h => ⟨fold_count_of_inputs hlength h, fold_array_of_inputs h, fold_all_of_inputs h, fold_any_of_inputs h,
      fun ns hints => ⟨fun hpartial => ?_, fun hpartial => ?_⟩⟩,
    ⟨fold_first xs, ?_, ?_⟩,
    fun hnil f => ⟨foldl_step_of_inputs_eq_nil _ _ hnil, start_eq_none_iff _⟩,
    fun f state x => isSome_step _ state x⟩
  · rw [List.sum_eq_foldl]
    exact fold_ints_of_inputs (fun _ _ => rfl) rfl (fun _ => rfl) Int.zero_add hints hpartial h
  · rw [List.prod_eq_foldl]
    exact fold_ints_of_inputs (fun _ _ => rfl) rfl (fun _ => rfl) Int.one_mul hints hpartial h
  · exact fold_last (fun _ _ => rfl) (fun _ => rfl) (by cases nullable <;> rfl) xs
  · exact fold_last (fun _ _ => rfl) (fun _ => rfl) (by cases nullable <;> rfl) xs

/-- Three integers among undefined inputs. -/
def scatteredIntegers : List (Option Json) := [none, some (.ofInt 2), some (.ofInt (-3)), none, some (.ofInt 5)]

open Reducer in
/-- Three integers are counted, added and multiplied, and undefined inputs are passed over; without a defined input the start
is left. -/
theorem reducers_compute_closed_forms_scatteredIntegers :
    scatteredIntegers.length < 0x8000000000000000 ∧ inputs scatteredIntegers ≠ [] ∧
    fold ⟨.count, true⟩ scatteredIntegers = some (.ofInt 3) ∧
    fold ⟨.sum, true⟩ scatteredIntegers = some (.ofInt 4) ∧
    fold ⟨.product, false⟩ scatteredIntegers = some (.ofInt (-30)) ∧
    fold ⟨.single, false⟩ scatteredIntegers = some (.ofInt 5) ∧
    fold ⟨.sum, true⟩ [none] = start ⟨.sum, true⟩ := by
  have hlength : scatteredIntegers.length < 0x8000000000000000 := by decide
  have hinputs : inputs scatteredIntegers ≠ [] := List.cons_ne_nil _ _
  obtain ⟨hcount, -, -, -, hints⟩ := (reducers_compute_closed_forms true scatteredIntegers hlength).1 (.inr hinputs)
  obtain ⟨-, -, -, -, hplain⟩ := (reducers_compute_closed_forms false scatteredIntegers hlength).1 (.inl rfl)
  exact ⟨hlength, hinputs, hcount, (hints [2, -3, 5] rfl).1 (by decide), (hplain [2, -3, 5] rfl).2 (by decide),
    (reducers_compute_closed_forms false scatteredIntegers hlength).2.1.2.2,
    ((reducers_compute_closed_forms true [none] (by decide)).2.2.1 rfl .sum).1⟩

end StarQuery
