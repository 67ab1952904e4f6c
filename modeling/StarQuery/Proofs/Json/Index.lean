import StarQuery.Proofs.Json.Paths

/-!
# How a key spells the index it names

An array takes every key that names one of its indices, and a key may name an index without being spelled like it: a text with a
plus sign or with zeros before its digits, a double so large that it is written with an exponent. Every key whose text is that of
a key of a collection leads into the collection (`hasKey_of_keyText_eq`). The converse holds of every key into an object, and of
those keys into an array that are spelled plainly (`exists_keyText_eq_iff`).
-/

namespace StarQuery

namespace Numeral

/-- Whether digits have neither a plus sign nor a needless zero before them. -/
def isPlain : List Char → Bool
  | '+' :: _ => false
  | '0' :: _ :: _ => false
  | _ => true

/-! ## Digits and their value -/

theorem natOf_eq (cs : List Char) : natOf cs = Nat.ofDigitChars 10 cs 0 := rfl

/-- A digit is the only digit of its value. -/
theorem toDigits_digit {c : Char} (h : c.isDigit = true) :
    c.toNat - '0'.toNat < 10 ∧ Nat.toDigits 10 (c.toNat - '0'.toNat) = [c] := by
  obtain ⟨hlow, hhigh⟩ := Char.isDigit_iff_toNat.1 h
  have hlt : c.toNat - '0'.toNat < 10 := by
    simp only [Char.reduceToNat] at hlow hhigh ⊢
    omega
  refine ⟨hlt, ?_⟩
  rw [Nat.toDigits_of_lt_base hlt]
  refine congrArg (fun d => [d]) (Char.toNat_inj.1 ?_)
  rw [Nat.toNat_digitChar_of_lt_ten hlt]
  simp only [Char.reduceToNat] at hlow ⊢
  omega

/-- Digits behind a number that is not zero stay behind its own digits. -/
theorem toDigits_ofDigitChars {n : Nat} (hn : 0 < n) {cs : List Char} (hcs : ∀ c ∈ cs, c.isDigit = true) :
    Nat.toDigits 10 (Nat.ofDigitChars 10 cs n) = Nat.toDigits 10 n ++ cs := by
  induction cs generalizing n with
  | nil => rw [Nat.ofDigitChars_nil, List.append_nil]
  | cons c cs ih =>
    obtain ⟨hc, hcs⟩ := List.forall_mem_cons.1 hcs
    obtain ⟨hdigit, hlast⟩ := toDigits_digit hc
    have happend := Nat.toDigits_append_toDigits (b := 10) (by decide) hn hdigit
    rw [Nat.ofDigitChars_cons, ih (by omega) hcs, ← happend, hlast, List.append_assoc, List.singleton_append]

/-- Digits without a needless zero are the digits of their value. -/
theorem toDigits_natOf {cs : List Char} (hne : cs ≠ []) (hcs : ∀ c ∈ cs, c.isDigit = true) (hplain : isPlain cs = true) :
    Nat.toDigits 10 (natOf cs) = cs := by
  obtain ⟨c, cs, rfl⟩ := List.exists_cons_of_ne_nil hne
  obtain ⟨hc, hcs⟩ := List.forall_mem_cons.1 hcs
  obtain ⟨-, hfirst⟩ := toDigits_digit hc
  by_cases hzero : c = '0'
  · subst hzero
    cases cs with
    | nil => rfl
    | cons d ds => cases hplain
  · have hpos : 0 < c.toNat - '0'.toNat := by
      obtain ⟨hlow, -⟩ := Char.isDigit_iff_toNat.1 hc
      have hne : c.toNat ≠ '0'.toNat := fun heq => hzero (Char.toNat_inj.1 heq)
      omega
    rw [natOf_eq, Nat.ofDigitChars_cons, Nat.mul_zero, Nat.zero_add, toDigits_ofDigitChars hpos hcs, hfirst,
      List.singleton_append]

/-- Only zero has a zero before its other digits, and it has no other digits. -/
theorem eq_zero_of_toDigits {n : Nat} {cs : List Char} (h : Nat.toDigits 10 n = '0' :: cs) : n = 0 := by
  induction n using Nat.strong_induction_on generalizing cs with
  | _ n ih =>
    by_cases hsmall : n < 10
    · rw [Nat.toDigits_of_lt_base hsmall] at h
      exact Nat.digitChar_eq_zero.1 (List.cons.inj h).1
    · rw [Nat.toDigits_of_base_le (by decide) (Nat.le_of_not_lt hsmall)] at h
      obtain ⟨d, ds, hds⟩ := List.exists_cons_of_ne_nil (Nat.toDigits_ne_nil (b := 10) (n := n / 10))
      rw [hds] at h
      have hhigh := ih (n / 10) (by omega) ((List.cons.inj h).1 ▸ hds)
      omega

/-- A number is written without a sign and without a needless zero. -/
theorem isPlain_toDigits (n : Nat) : isPlain (Nat.toDigits 10 n) = true := by
  unfold isPlain
  split
  · rename_i rest h
    exact absurd (Decimal.isDigit_toDigits n '+' (h ▸ List.mem_cons_self)) (by decide)
  · rename_i d rest h
    rw [eq_zero_of_toDigits h] at h
    cases h
  · rfl

/-! ## Texts that name an index -/

/-- Digits that no sign comes before name their value. -/
theorem readIndex?_eq_some_iff {cs : List Char} (hsign : ∀ rest, cs ≠ '+' :: rest) {i : Nat} :
    readIndex? cs = some i ↔ cs ≠ [] ∧ (∀ c ∈ cs, c.isDigit = true) ∧ natOf cs ≤ maxIndex ∧ natOf cs = i := by
  unfold readIndex?
  split
  · rename_i rest
    exact absurd rfl (hsign rest)
  · simp [and_assoc]

/-- The digits of an index name the index. -/
theorem readIndex?_toDigits {n : Nat} (h : n ≤ maxIndex) : readIndex? (Nat.toDigits 10 n) = some n := by
  have hdigits := Decimal.isDigit_toDigits n
  have hvalue : natOf (Nat.toDigits 10 n) = n := Nat.ofDigitChars_ten_toDigits
  refine (readIndex?_eq_some_iff fun rest hplus => ?_).2 ⟨Nat.toDigits_ne_nil, hdigits, hvalue.symm ▸ h, hvalue⟩
  exact absurd (hdigits '+' (hplus ▸ List.mem_cons_self)) (by decide)

/-- A text that names an index is spelled like it just if it is plain. -/
theorem eq_toDigits_iff {cs : List Char} {i : Nat} (h : readIndex? cs = some i) :
    cs = Nat.toDigits 10 i ↔ isPlain cs = true := by
  refine ⟨fun heq => heq ▸ isPlain_toDigits i, fun hplain => ?_⟩
  have hsign : ∀ rest, cs ≠ '+' :: rest := by
    rintro rest rfl
    cases hplain
  obtain ⟨hne, hdigits, -, rfl⟩ := (readIndex?_eq_some_iff hsign).1 h
  exact (toDigits_natOf hne hdigits hplain).symm

end Numeral

namespace Json

/-- Whether a key that names an index is spelled like the index itself. -/
def isPlainIndex : Json → Bool
  | .str s => Numeral.isPlain s.toList
  | .num (.float x) => (wholeOf? x).any fun n => decide (n.natAbs < 1000000000000000)
  | _ => true

/-- Whether a value is an array. -/
def isArray : Json → Bool
  | .arr _ => true
  | _ => false

/-! ## Keys that name an index -/

/-- The text of an index as a key is its digits. -/
theorem toList_keyText_ofInt (i : Nat) : (ofInt i).keyText.toList = Nat.toDigits 10 i := by
  change (Number.text (.int i)).toList = _
  rw [Number.toList_text_int, if_pos (Int.natCast_nonneg i), List.nil_append, Int.natAbs_natCast]

/-- A double has the text of an index as a key just if it is the index and below `10 ^ 15`. -/
theorem keyText_float_eq_iff {x : Float} {i : Nat} :
    (Json.num (.float x)).keyText = (ofInt i).keyText ↔ wholeOf? x = some (i : Int) ∧ i < 1000000000000000 := by
  have hfloat : Number.text (.float x) ≠ Number.text (.int i) := fun h => Number.noConfusion (Number.text_inj h)
  change Number.keyText (.float x) = Number.text (.int i) ↔ _
  cases hx : wholeOf? x with
  | none => simp [Number.keyText, hx, hfloat]
  | some n =>
    by_cases hn : n.natAbs < 1000000000000000
    · have htext : Number.keyText (.float x) = Number.text (.int n) := by simp [Number.keyText, hx, hn, Number.text]
      rw [htext, Option.some.injEq]
      refine ⟨fun h => ?_, fun h => congrArg (fun n => Number.text (.int n)) h.1⟩
      have heq := Number.text_int_inj h
      omega
    · simp only [Number.keyText, hx, hn, if_false, hfloat, Option.some.injEq, false_iff]
      omega

/-- A key that names an index has the text of the index just if it is spelled plainly. -/
theorem keyText_eq_iff {k : Json} {i : Nat} (h : k.index? = some i) : k.keyText = (ofInt i).keyText ↔ k.isPlainIndex = true := by
  cases k with
  | str s =>
    rw [← String.toList_inj, toList_keyText_ofInt]
    exact Numeral.eq_toDigits_iff h
  | num n =>
    cases n with
    | int n =>
      rw [index?, Number.index?] at h
      split at h
      · rename_i hn
        cases h
        rw [Int.toNat_of_nonneg hn]
        exact iff_of_true rfl rfl
      · cases h
    | float x =>
      obtain ⟨n, hn, h⟩ := Option.bind_eq_some_iff.1 h
      rw [keyText_float_eq_iff, isPlainIndex, hn, Option.some.injEq, Option.any_some, decide_eq_true_iff]
      have hlarge : 1000000000000000 ≤ Numeral.maxIndex := by decide
      split at h
      · cases h
      · split at h <;> cases h <;> omega
  | _ => cases h

/-- A key with the text of an index names the index. -/
theorem index?_of_keyText_eq {k : Json} {i : Nat} (hi : i ≤ Numeral.maxIndex) (h : k.keyText = (ofInt i).keyText) :
    k.index? = some i := by
  have hnumber : ∀ v : Json, v.text = (ofInt i).keyText → v = ofInt i := fun _ htext =>
    text_inj (htext.trans String.ofList_toList.symm)
  cases k with
  | str s =>
    have hdigits := congrArg String.toList h
    rw [toList_keyText_ofInt] at hdigits
    rw [index?, ← Numeral.readIndex?_toDigits hi]
    exact congrArg Numeral.readIndex? hdigits
  | num n =>
    cases n with
    | int n =>
      rw [Number.text_int_inj h]
      exact index?_ofInt i
    | float x =>
      obtain ⟨hx, -⟩ := keyText_float_eq_iff.1 h
      simp [index?, Number.index?, hx, hi]
  | null | bool | arr | obj => cases hnumber _ h

/-! ## Membership and the keys of a collection -/

/-- A key leads into an array if it names an index below its length. -/
theorem hasKey_arr {items : List Json} {k : Json} :
    hasKey (.arr items) k = true ↔ ∃ i < items.length, k.index? = some i := by
  rw [hasKey, get?, Option.isSome_iff_exists]
  simp only [Option.bind_eq_some_iff, List.getElem?_eq_some_iff]
  constructor
  · rintro ⟨_, i, hi, hlt, -⟩
    exact ⟨i, hlt, hi⟩
  · rintro ⟨i, hlt, hi⟩
    exact ⟨_, i, hi, hlt, rfl⟩

/-- A key leads into an object if its text is the name of a field. -/
theorem hasKey_obj {fields : Fields} {k : Json} : hasKey (.obj fields) k = true ↔ ∃ field ∈ fields, field.1 = k.keyText := by
  rw [hasKey, get?, Fields.get?, List.lookup_isSome_iff]
  simp only [beq_iff_eq]
  exact exists_congr fun field => and_congr_right fun _ => eq_comm

/-- In an array that is no longer than there are indices, every item has an index. -/
theorem le_maxIndex {items : List Json} (hsize : (Json.arr items).keys.length ≤ Numeral.maxIndex + 1) {i : Nat}
    (hi : i ∈ List.range items.length) : i ≤ Numeral.maxIndex := by
  rw [keys, List.length_map, List.length_range] at hsize
  exact Nat.le_of_lt_succ (Nat.lt_of_lt_of_le (List.mem_range.1 hi) hsize)

/-- A key that has the text of a key of a collection leads into the collection. -/
theorem hasKey_of_keyText_eq {c k k' : Json} (hsize : c.keys.length ≤ Numeral.maxIndex + 1) (hk' : k' ∈ c.keys)
    (h : k'.keyText = k.keyText) : c.hasKey k = true := by
  cases c with
  | obj fields =>
    obtain ⟨field, hfield, rfl⟩ := List.mem_map.1 hk'
    exact hasKey_obj.2 ⟨field, hfield, h⟩
  | arr items =>
    obtain ⟨i, hi, rfl⟩ := List.mem_map.1 hk'
    exact hasKey_arr.2 ⟨i, List.mem_range.1 hi, index?_of_keyText_eq (le_maxIndex hsize hi) h.symm⟩
  | _ => cases hk'

/-- A key that leads into a collection has the text of one of its keys, but for keys into an array that are not spelled plainly. -/
theorem exists_keyText_eq_iff {c k : Json} (hsize : c.keys.length ≤ Numeral.maxIndex + 1) (h : c.hasKey k = true) :
    (∃ k' ∈ c.keys, k'.keyText = k.keyText) ↔ (c.isArray = true → k.isPlainIndex = true) := by
  cases c with
  | obj fields =>
    obtain ⟨field, hfield, hname⟩ := hasKey_obj.1 h
    exact iff_of_true ⟨.str field.1, List.mem_map_of_mem hfield, hname⟩ fun harray => by cases harray
  | arr items =>
    obtain ⟨i, hi, hindex⟩ := hasKey_arr.1 h
    rw [← keyText_eq_iff hindex, isArray]
    constructor
    · rintro ⟨k', hk', htext⟩ -
      obtain ⟨j, hj, rfl⟩ := List.mem_map.1 hk'
      rw [index?_of_keyText_eq (le_maxIndex hsize hj) htext.symm] at hindex
      cases hindex
      exact htext.symm
    · intro htext
      exact ⟨ofInt i, List.mem_map_of_mem (List.mem_range.2 hi), (htext rfl).symm⟩
  | _ => cases h

end Json

end StarQuery
