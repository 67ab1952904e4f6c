import StarQuery.Proofs.Number.Interval

/-!
# The text of a number tells it from all others

A finite double is determined by its sign, coefficient and exponent, and these by its text: the sign stands first, and what
follows reads as the shortest decimal. The three doubles that are not finite are written as words. An integer has nothing but
digits and a sign in its text, a double always something else.
-/

namespace StarQuery

/-! ## The bits of a double -/

/-- A double is determined by its bits. -/
theorem float_eq_of_toBits {x y : Float} (h : x.toBits.toNat = y.toBits.toNat) : x = y := by
  obtain ⟨⟨bx, hx⟩⟩ := x
  obtain ⟨⟨by', hy⟩⟩ := y
  have hbits : bx = by' := UInt64.toNat_inj.1 h
  subst hbits
  rfl

/-- A finite double is determined by its exact value. -/
theorem Scaled.ofFloat?_inj {x y : Float} {s : Scaled} (hx : ofFloat? x = some s) (hy : ofFloat? y = some s) : x = y := by
  have hlt := x.toBits.toNat_lt
  have hlt' := y.toBits.toNat_lt
  apply float_eq_of_toBits
  unfold ofFloat? at hx hy
  simp only at hx hy
  split at hx
  · cases hx
  split at hy
  · cases hy
  split at hx
  · cases hx
    split at hy
    · simp only [Option.some.injEq, Scaled.mk.injEq, beq_eq_beq] at hy
      omega
    · simp only [Option.some.injEq, Scaled.mk.injEq, beq_eq_beq] at hy
      omega
  · cases hx
    split at hy
    · simp only [Option.some.injEq, Scaled.mk.injEq, beq_eq_beq] at hy
      omega
    · simp only [Option.some.injEq, Scaled.mk.injEq, beq_eq_beq, Int.ofNat_eq_natCast] at hy
      omega

/-- Zero has the least exponent. -/
theorem Scaled.exponent_of_zero {x : Float} {s : Scaled} (h : ofFloat? x = some s) (hzero : s.coefficient = 0) :
    s.exponent = -1074 := by
  unfold ofFloat? at h
  simp only at h
  split at h
  · cases h
  split at h
  · cases h
    rfl
  · cases h
    simp only at hzero
    omega

/-- The coefficient and the exponent of a finite double. -/
theorem Scaled.canonical_of_ofFloat? {x : Float} {s : Scaled} (h : ofFloat? x = some s) (hne : s.coefficient ≠ 0) :
    Decimal.Canonical s.coefficient s.exponent := by
  have hlt := x.toBits.toNat_lt
  unfold ofFloat? at h
  simp only at h
  split at h
  · cases h
  split at h
  · cases h
    simp only at hne ⊢
    exact ⟨by omega, by omega, by omega, by omega, .inr rfl⟩
  · cases h
    simp only [Int.ofNat_eq_natCast]
    exact ⟨by omega, by omega, by omega, by omega, .inl (by omega)⟩

/-- The doubles that are not finite: the two infinities, and the one that is no number. -/
theorem not_finite_cases {x : Float} (h : Scaled.ofFloat? x = none) :
    x = Float.ofBits 0x7FF0000000000000 ∨ x = Float.ofBits 0xFFF0000000000000 ∨ x = Float.ofBits 0x7FF8000000000000 := by
  have hlt := x.toBits.toNat_lt
  have hexponent : x.toBits.toNat / 0x10000000000000 % 0x800 = 2047 := by
    unfold Scaled.ofFloat? at h
    simp only at h
    split at h
    · assumption
    · split at h <;> cases h
  by_cases hfraction : x.toBits.toNat % 0x10000000000000 = 0
  · have hbits : x.toBits.toNat = 0x7FF0000000000000 ∨ x.toBits.toNat = 0xFFF0000000000000 := by omega
    rcases hbits with hbits | hbits
    · exact .inl (float_eq_of_toBits (hbits.trans (by decide +kernel)))
    · exact .inr (.inl (float_eq_of_toBits (hbits.trans (by decide +kernel))))
  · have hnan := x.toModel.valid.eq_packedNaN ?_ ?_
    · refine .inr (.inr (float_eq_of_toBits ?_))
      exact (congrArg BitVec.toNat hnan).trans (by decide +kernel)
    · apply BitVec.eq_of_toNat_eq
      simp only [Float.Model.UnpackedFloat.unpackExponent, BitVec.toNat_cast, BitVec.extractLsb_toNat,
        UInt64.toNat_toBitVec, Nat.shiftRight_eq_div_pow]
      exact hexponent
    · intro hzero
      have := congrArg BitVec.toNat hzero
      simp only [Float.Model.UnpackedFloat.unpackMantissa, BitVec.toNat_cast, BitVec.extractLsb_toNat,
        UInt64.toNat_toBitVec, Nat.shiftRight_zero] at this
      exact hfraction this

/-! ## The text of a double -/

/-- The text of a finite double without its sign. -/
def Scaled.magnitude (s : Scaled) : List Char :=
  (if s.coefficient = 0 then "0.0" else (Decimal.shortest s.coefficient s.exponent).text Json.layout).toList

/-- The sign of a finite double stands before its magnitude. -/
theorem toList_floatText {x : Float} {s : Scaled} (h : Scaled.ofFloat? x = some s) :
    (Number.floatText x).toList = (if s.negative then ['-'] else []) ++ s.magnitude := by
  unfold Number.floatText Scaled.magnitude
  rw [h]
  simp only
  cases s.negative with
  | false => rfl
  | true => rw [if_pos rfl, if_pos rfl, String.toList_append]; rfl

/-- A finite double is written as digits and a point or an exponent. -/
theorem Scaled.magnitude_shape (s : Scaled) :
    ∃ ds mark rest, s.magnitude = ds ++ mark :: rest ∧ ds ≠ [] ∧ (∀ c ∈ ds, c.isDigit = true) ∧ mark ∈ ['.', 'e'] ∧
      ∀ c ∈ rest, c.isDigit = true ∨ c ∈ ['.', 'e', '+', '-'] := by
  unfold magnitude
  split
  · have hzero : ∀ c ∈ ['0'], c.isDigit = true := List.all_eq_true.1 (by decide)
    exact ⟨['0'], '.', ['0'], rfl, by decide, hzero, by decide, fun c hc => .inl (hzero c hc)⟩
  · exact Decimal.text_shape _

/-- The magnitude of a finite double and its text without the sign determine each other. -/
theorem Scaled.eq_of_magnitude {x y : Float} {s t : Scaled} (hx : ofFloat? x = some s) (hy : ofFloat? y = some t)
    (h : s.magnitude = t.magnitude) : s.coefficient = t.coefficient ∧ s.exponent = t.exponent := by
  have hzero : Decimal.reading "0.0".toList = 0 := by decide +kernel
  have hpos : ∀ {x : Float} {s : Scaled}, ofFloat? x = some s → s.coefficient ≠ 0 →
      0 < Decimal.reading ((Decimal.shortest s.coefficient s.exponent).text Json.layout).toList := by
    intro x s hs hne
    rw [Decimal.reading_text]
    exact Decimal.pos_of_has (Nat.pos_of_ne_zero hne) (Decimal.mem_interval_shortest (canonical_of_ofFloat? hs hne))
  have hread := congrArg Decimal.reading h
  unfold magnitude at hread
  by_cases hs : s.coefficient = 0 <;> by_cases ht : t.coefficient = 0
  · exact ⟨hs.trans ht.symm, (exponent_of_zero hx hs).trans (exponent_of_zero hy ht).symm⟩
  · rw [if_pos hs, if_neg ht, hzero] at hread
    exact absurd hread (hpos hy ht).ne
  · rw [if_neg hs, if_pos ht, hzero] at hread
    exact absurd hread (hpos hx hs).ne'
  · rw [if_neg hs, if_neg ht, Decimal.reading_text, Decimal.reading_text] at hread
    exact Decimal.eq_of_shortest_eq (canonical_of_ofFloat? hx hs) (canonical_of_ofFloat? hy ht) hread

/-- A magnitude does not begin with a minus sign, so the sign of a double can be told from its text. -/
theorem Scaled.magnitude_ne_cons_minus (s : Scaled) (cs : List Char) : s.magnitude ≠ '-' :: cs := by
  obtain ⟨ds, mark, rest, h, hne, hds, -⟩ := s.magnitude_shape
  obtain ⟨d, ds, rfl⟩ := List.exists_cons_of_ne_nil hne
  rw [h, List.cons_append]
  intro heq
  have hd := hds d List.mem_cons_self
  rw [(List.cons.inj heq).1] at hd
  exact absurd hd (by decide)

/-- Finite doubles with the same text are the same. -/
theorem finite_of_floatText_eq {x y : Float} {s t : Scaled} (hx : Scaled.ofFloat? x = some s)
    (hy : Scaled.ofFloat? y = some t) (h : Number.floatText x = Number.floatText y) : x = y := by
  have htext := congrArg String.toList h
  rw [toList_floatText hx, toList_floatText hy] at htext
  have hparts : s.negative = t.negative ∧ s.magnitude = t.magnitude := by
    cases hs : s.negative <;> cases ht : t.negative <;> simp only [hs, ht, if_true, Bool.false_eq_true, if_false,
      List.nil_append, List.singleton_append, List.cons.injEq, true_and] at htext
    · exact ⟨rfl, htext⟩
    · exact absurd htext (s.magnitude_ne_cons_minus _)
    · exact absurd htext.symm (t.magnitude_ne_cons_minus _)
    · exact ⟨rfl, htext⟩
  obtain ⟨hcoefficient, hexponent⟩ := Scaled.eq_of_magnitude hx hy hparts.2
  have hst : s = t := by
    cases s
    cases t
    simp_all
  exact Scaled.ofFloat?_inj hx (hst ▸ hy)

/-- The words for the doubles that are not finite. -/
theorem floatText_not_finite {x : Float} (h : Scaled.ofFloat? x = none) :
    (x = Float.ofBits 0x7FF0000000000000 ∧ Number.floatText x = "Infinity") ∨
      (x = Float.ofBits 0xFFF0000000000000 ∧ Number.floatText x = "-Infinity") ∨
      (x = Float.ofBits 0x7FF8000000000000 ∧ Number.floatText x = "NaN") := by
  rcases not_finite_cases h with rfl | rfl | rfl
  · exact .inl ⟨rfl, by decide +kernel⟩
  · exact .inr (.inl ⟨rfl, by decide +kernel⟩)
  · exact .inr (.inr ⟨rfl, by decide +kernel⟩)

/-- Only a finite double has digits in its text. -/
theorem isSome_ofFloat?_iff (x : Float) :
    (Scaled.ofFloat? x).isSome ↔ (Number.floatText x).toList.any Char.isDigit = true := by
  cases h : Scaled.ofFloat? x with
  | none =>
    rcases floatText_not_finite h with ⟨_, h⟩ | ⟨_, h⟩ | ⟨_, h⟩ <;> rw [h] <;> decide
  | some s =>
    obtain ⟨ds, mark, rest, hshape, hne, hds, -⟩ := s.magnitude_shape
    obtain ⟨d, ds, rfl⟩ := List.exists_cons_of_ne_nil hne
    have hd := hds d List.mem_cons_self
    simp [toList_floatText h, hshape, hd]

/-- Doubles with the same text are the same. -/
theorem floatText_inj {x y : Float} (h : Number.floatText x = Number.floatText y) : x = y := by
  have hfinite : (Scaled.ofFloat? x).isSome ↔ (Scaled.ofFloat? y).isSome := by
    rw [isSome_ofFloat?_iff, isSome_ofFloat?_iff, h]
  cases hx : Scaled.ofFloat? x with
  | some s =>
    obtain ⟨t, hy⟩ := Option.isSome_iff_exists.1 (hfinite.1 (by rw [hx]; rfl))
    exact finite_of_floatText_eq hx hy h
  | none =>
    cases hy : Scaled.ofFloat? y with
    | some t => rw [hx, hy] at hfinite; simp at hfinite
    | none =>
      rcases floatText_not_finite hx with ⟨rfl, hx⟩ | ⟨rfl, hx⟩ | ⟨rfl, hx⟩ <;>
        rcases floatText_not_finite hy with ⟨rfl, hy⟩ | ⟨rfl, hy⟩ | ⟨rfl, hy⟩ <;>
        first | rfl | (rw [hx, hy] at h; exact absurd h (by decide))

/-! ## The text of a number -/

namespace Number

/-- An integer is written as digits, with a sign before them if it is negative. -/
theorem toList_text_int (n : Int) :
    (text (.int n)).toList = (if 0 ≤ n then [] else ['-']) ++ Nat.toDigits 10 n.natAbs := by
  have hnat : ∀ m : Nat, m.repr.toList = Nat.toDigits 10 m := by
    intro m
    rw [← Nat.toString_eq_repr, Nat.toString_eq_ofList_toDigits, String.toList_ofList]
  change (toString n).toList = _
  rw [Int.toString_eq_repr, Int.repr_eq_if]
  by_cases hn : 0 ≤ n
  · rw [if_pos hn, if_pos hn, hnat, List.nil_append]
    congr 1
    omega
  · rw [if_neg hn, if_neg hn, String.toList_append, hnat]
    congr 2
    omega

/-- Integers with the same text are the same. -/
theorem text_int_inj {m n : Int} (h : text (.int m) = text (.int n)) : m = n := by
  have hlist := congrArg String.toList h
  rw [toList_text_int, toList_text_int] at hlist
  have hdigits : ∀ (n : Nat) (cs : List Char), Nat.toDigits 10 n ≠ '-' :: cs := by
    intro n cs heq
    have := Decimal.isDigit_toDigits n '-' (heq ▸ List.mem_cons_self)
    exact absurd this (by decide)
  have hvalue : ∀ {a b : Nat}, Nat.toDigits 10 a = Nat.toDigits 10 b → a = b := by
    intro a b hab
    rw [← Nat.ofDigitChars_ten_toDigits (n := a), hab, Nat.ofDigitChars_ten_toDigits]
  by_cases hm : 0 ≤ m <;> by_cases hn : 0 ≤ n <;> simp only [hm, hn, if_true, if_false, List.nil_append,
    List.singleton_append, List.cons.injEq, true_and] at hlist
  · have := hvalue hlist
    omega
  · exact absurd hlist (hdigits _ _)
  · exact absurd hlist.symm (hdigits _ _)
  · have := hvalue hlist
    omega

/-- The characters of a number. -/
def isNumeral (c : Char) : Bool := c.isAlphanum || c == '+' || c == '-' || c == '.'

/-- Digits are characters of numbers. -/
theorem isNumeral_of_isDigit {c : Char} (h : c.isDigit = true) : isNumeral c = true := by
  simp [isNumeral, Char.isAlphanum, h]

/-- A number begins with a digit, a minus sign or the first letter of a word, and goes on with the characters of numbers. -/
theorem text_shape (n : Number) :
    ∃ c cs, n.text.toList = c :: cs ∧ (c.isDigit = true ∨ c ∈ ['-', 'I', 'N']) ∧ ∀ x ∈ c :: cs, isNumeral x = true := by
  have hsigned : ∀ (negative : Bool) {ds : List Char} (rest : List Char), ds ≠ [] → (∀ c ∈ ds, c.isDigit = true) →
      (∀ c ∈ rest, isNumeral c = true) →
      ∃ c cs, (if negative then ['-'] else []) ++ (ds ++ rest) = c :: cs ∧ (c.isDigit = true ∨ c ∈ ['-', 'I', 'N']) ∧
        ∀ x ∈ c :: cs, isNumeral x = true := by
    intro negative ds rest hne hds hrest
    have hall : ∀ x ∈ ds ++ rest, isNumeral x = true := fun x hx =>
      (List.mem_append.1 hx).elim (fun hx => isNumeral_of_isDigit (hds x hx)) (hrest x)
    obtain ⟨d, ds, rfl⟩ := List.exists_cons_of_ne_nil hne
    cases negative with
    | true => exact ⟨_, _, rfl, .inr (by decide), List.forall_mem_cons.2 ⟨by decide, hall⟩⟩
    | false => exact ⟨_, _, rfl, .inl (hds d List.mem_cons_self), hall⟩
  cases n with
  | int n =>
    have h := hsigned (!decide (0 ≤ n)) [] (Nat.toDigits_ne_nil (b := 10) (n := n.natAbs))
      (Decimal.isDigit_toDigits _) (by simp)
    rw [toList_text_int]
    by_cases hn : 0 ≤ n <;> simpa [hn] using h
  | float x =>
    change ∃ c cs, (floatText x).toList = _ ∧ _
    cases hx : Scaled.ofFloat? x with
    | none =>
      rcases floatText_not_finite hx with ⟨_, h⟩ | ⟨_, h⟩ | ⟨_, h⟩ <;> rw [h] <;>
        exact ⟨_, _, rfl, by decide, List.all_eq_true.1 (by decide)⟩
    | some s =>
      obtain ⟨ds, mark, rest, hshape, hne, hds, hmark, hrest⟩ := s.magnitude_shape
      rw [toList_floatText hx, hshape]
      refine hsigned s.negative _ hne hds (List.forall_mem_cons.2 ⟨?_, fun c hc => ?_⟩)
      · exact List.all_eq_true.1 (by decide : ['.', 'e'].all isNumeral = true) mark hmark
      · rcases hrest c hc with h | h
        · exact isNumeral_of_isDigit h
        · exact List.all_eq_true.1 (by decide : ['.', 'e', '+', '-'].all isNumeral = true) c h

/-- The text of a double has a character that is in no integer. -/
theorem not_all_text_float (x : Float) : (text (.float x)).toList.all (fun c => c.isDigit || c == '-') = false := by
  change (floatText x).toList.all _ = false
  cases hx : Scaled.ofFloat? x with
  | none => rcases floatText_not_finite hx with ⟨_, h⟩ | ⟨_, h⟩ | ⟨_, h⟩ <;> rw [h] <;> decide
  | some s =>
    obtain ⟨ds, mark, rest, hshape, -, -, hmark, -⟩ := s.magnitude_shape
    have hother : (mark.isDigit || mark == '-') = false := by
      simp only [List.mem_cons, List.not_mem_nil, or_false] at hmark
      rcases hmark with rfl | rfl <;> rfl
    rw [toList_floatText hx, hshape]
    simp [hother]

/-- An integer has nothing but digits and a sign in its text. -/
theorem all_text_int (n : Int) : (text (.int n)).toList.all (fun c => c.isDigit || c == '-') = true := by
  rw [toList_text_int, List.all_eq_true]
  intro c hc
  rcases List.mem_append.1 hc with hc | hc
  · split at hc
    · cases hc
    · rw [List.mem_singleton.1 hc]
      decide
  · rw [Decimal.isDigit_toDigits _ c hc, Bool.true_or]

/-- Numbers with the same text are the same. -/
theorem text_inj {m n : Number} (h : m.text = n.text) : m = n := by
  cases m with
  | int m =>
    cases n with
    | int n => rw [text_int_inj h]
    | float y => exact absurd (h ▸ all_text_int m) (by rw [not_all_text_float]; decide)
  | float x =>
    cases n with
    | int n => exact absurd (h ▸ all_text_int n) (by rw [not_all_text_float]; decide)
    | float y => rw [floatText_inj h]

end Number

end StarQuery
