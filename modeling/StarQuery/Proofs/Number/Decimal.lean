import Mathlib.Data.Rat.Cast.Order
import Mathlib.Algebra.Order.Field.Basic
import Mathlib.Tactic.FieldSimp
import Mathlib.Tactic.Ring
import Mathlib.Tactic.Linarith
import StarQuery.Json.Text

/-!
# The text of a decimal tells its value

A decimal is written in plain notation or with an exponent. `Decimal.reading` takes either text back to the number it stands
for, so that decimals with the same text have the same value, though not always the same digits.
-/

namespace StarQuery

namespace Decimal

/-- The number that a decimal is. -/
def value (d : Decimal) : ℚ := d.digits * (10 : ℚ) ^ d.exponent

/-- The fraction at the head of a text, after its point, and what follows it. -/
def fractionOf : List Char → List Char × List Char
  | '.' :: rest => (rest.takeWhile Char.isDigit, rest.dropWhile Char.isDigit)
  | rest => ([], rest)

/-- The exponent that ends a text, zero if there is none. -/
def exponentOf : List Char → ℤ
  | 'e' :: '-' :: digits => -(Nat.ofDigitChars 10 digits 0 : ℤ)
  | 'e' :: '+' :: digits => Nat.ofDigitChars 10 digits 0
  | _ => 0

/-- The number that the text of a decimal stands for. -/
def reading (cs : List Char) : ℚ :=
  let whole := cs.takeWhile Char.isDigit
  let parts := fractionOf (cs.dropWhile Char.isDigit)
  (Nat.ofDigitChars 10 (whole ++ parts.1) 0 : ℚ) * (10 : ℚ) ^ (exponentOf parts.2 - parts.1.length)

/-- Digits at the head of a text are taken up to the first character that is none. -/
theorem takeWhile_digits {ds : List Char} (hds : ∀ c ∈ ds, c.isDigit = true) (rest : List Char)
    (hrest : ∀ c ∈ rest.head?, c.isDigit = false) :
    (ds ++ rest).takeWhile Char.isDigit = ds ∧ (ds ++ rest).dropWhile Char.isDigit = rest := by
  rw [List.takeWhile_append_of_pos hds, List.dropWhile_append_of_pos hds]
  cases rest with
  | nil => simp
  | cons c rest =>
    have hc := hrest c rfl
    simp [hc]

/-- The reading of a text with a point. -/
theorem reading_point {whole fraction : List Char} (hwhole : ∀ c ∈ whole, c.isDigit = true)
    (hfraction : ∀ c ∈ fraction, c.isDigit = true) (tail : List Char) (htail : ∀ c ∈ tail.head?, c.isDigit = false) :
    reading (whole ++ '.' :: (fraction ++ tail)) =
      (Nat.ofDigitChars 10 (whole ++ fraction) 0 : ℚ) * (10 : ℚ) ^ (exponentOf tail - fraction.length) := by
  obtain ⟨h1, h2⟩ := takeWhile_digits hwhole ('.' :: (fraction ++ tail)) (by simp)
  obtain ⟨h3, h4⟩ := takeWhile_digits hfraction tail htail
  simp only [reading, h1, h2, fractionOf, h3, h4]

/-- The reading of a text without a point. -/
theorem reading_exponent {whole : List Char} (hwhole : ∀ c ∈ whole, c.isDigit = true) (tail : List Char) :
    reading (whole ++ 'e' :: tail) =
      (Nat.ofDigitChars 10 whole 0 : ℚ) * (10 : ℚ) ^ exponentOf ('e' :: tail) := by
  obtain ⟨h1, h2⟩ := takeWhile_digits hwhole ('e' :: tail) (by simp)
  have h3 : fractionOf ('e' :: tail) = ([], 'e' :: tail) := rfl
  simp only [reading, h1, h2, h3, List.append_nil, List.length_nil, Nat.cast_zero, sub_zero]

/-- The digits of a number are digits. -/
theorem isDigit_toDigits (n : Nat) : ∀ c ∈ Nat.toDigits 10 n, c.isDigit = true :=
  fun _ hc => Nat.isDigit_of_mem_toDigits (by decide) (by decide) hc

/-- Zeros are digits. -/
theorem isDigit_replicate_zero (n : Nat) : ∀ c ∈ List.replicate n '0', c.isDigit = true := by
  intro c hc
  rw [List.eq_of_mem_replicate hc]
  decide

/-! ## Plain notation -/

/-- What stands before the point in plain notation: the digits up to it, and zeros if there are not enough. -/
def wholeDigits (ds : List Char) (exponent : ℤ) : List Char :=
  if 0 < (ds.length : ℤ) + exponent then
    ds.take ((ds.length : ℤ) + exponent).toNat ++ List.replicate exponent.toNat '0'
  else ['0']

/-- What stands after the point in plain notation, before a zero is put in if it is nothing. -/
def fractionDigits (ds : List Char) (exponent : ℤ) : List Char :=
  List.replicate (-((ds.length : ℤ) + exponent)).toNat '0' ++ ds.drop ((ds.length : ℤ) + exponent).toNat

/-- What stands before the point are digits. -/
theorem isDigit_wholeDigits {ds : List Char} (hds : ∀ c ∈ ds, c.isDigit = true) (exponent : ℤ) :
    ∀ c ∈ wholeDigits ds exponent, c.isDigit = true := by
  intro c hc
  unfold wholeDigits at hc
  split at hc
  · rcases List.mem_append.1 hc with hc | hc
    · exact hds c (List.mem_of_mem_take hc)
    · exact isDigit_replicate_zero _ c hc
  · rw [List.mem_singleton.1 hc]
    decide

/-- What stands after the point are digits. -/
theorem isDigit_fractionDigits {ds : List Char} (hds : ∀ c ∈ ds, c.isDigit = true) (exponent : ℤ) :
    ∀ c ∈ fractionDigits ds exponent, c.isDigit = true := by
  intro c hc
  rcases List.mem_append.1 hc with hc | hc
  · exact isDigit_replicate_zero _ c hc
  · exact hds c (List.mem_of_mem_drop hc)

/-- With an exponent that is not negative, all digits stand before the point. -/
theorem wholeDigits_of_nonneg {ds : List Char} (hds : ds ≠ []) {exponent : ℤ} (h : 0 ≤ exponent) :
    wholeDigits ds exponent = ds ++ List.replicate exponent.toNat '0' ∧ fractionDigits ds exponent = [] := by
  have hpos : 0 < ds.length := List.length_pos_iff.2 hds
  have hlen : ds.length ≤ ((ds.length : ℤ) + exponent).toNat := by omega
  constructor
  · rw [wholeDigits, if_pos (by omega), List.take_of_length_le hlen]
  · have hnone : (-((ds.length : ℤ) + exponent)).toNat = 0 := by omega
    rw [fractionDigits, hnone, List.replicate_zero, List.nil_append, List.drop_eq_nil_iff]
    exact hlen

/-- With a negative exponent, as many digits stand after the point as the exponent says, and the digits are those of the
decimal, perhaps after some zeros. -/
theorem fractionDigits_of_neg (ds : List Char) {exponent : ℤ} (h : exponent < 0) :
    Nat.ofDigitChars 10 (wholeDigits ds exponent ++ fractionDigits ds exponent) 0 = Nat.ofDigitChars 10 ds 0 ∧
      ((fractionDigits ds exponent).length : ℤ) = -exponent := by
  by_cases hpos : 0 < (ds.length : ℤ) + exponent
  · have h1 : (-((ds.length : ℤ) + exponent)).toNat = 0 := by omega
    have h2 : exponent.toNat = 0 := by omega
    have hfraction : fractionDigits ds exponent = ds.drop ((ds.length : ℤ) + exponent).toNat := by
      rw [fractionDigits, h1, List.replicate_zero, List.nil_append]
    constructor
    · rw [wholeDigits, if_pos hpos, h2, List.replicate_zero, List.append_nil, hfraction, List.take_append_drop]
    · rw [hfraction, List.length_drop]
      omega
  · have h1 : ((ds.length : ℤ) + exponent).toNat = 0 := by omega
    have hfraction : fractionDigits ds exponent = List.replicate (-((ds.length : ℤ) + exponent)).toNat '0' ++ ds := by
      rw [fractionDigits, h1, List.drop_zero]
    constructor
    · rw [wholeDigits, if_neg hpos, hfraction, Nat.ofDigitChars_append, Nat.ofDigitChars_append,
        Nat.ofDigitChars_replicate_zero]
      simp [Nat.ofDigitChars_cons]
    · rw [hfraction, List.length_append, List.length_replicate]
      omega

/-- A decimal in plain notation. -/
def plainChars (d : Decimal) : List Char :=
  let fraction := fractionDigits (Nat.toDigits 10 d.digits) d.exponent
  wholeDigits (Nat.toDigits 10 d.digits) d.exponent ++ '.' :: if fraction.isEmpty then ['0'] else fraction

/-- A text in plain notation stands for its decimal. -/
theorem reading_plainChars (d : Decimal) : reading d.plainChars = d.value := by
  let fraction := fractionDigits (Nat.toDigits 10 d.digits) d.exponent
  change reading (wholeDigits _ _ ++ '.' :: if fraction.isEmpty then ['0'] else fraction) = d.value
  have hds := isDigit_toDigits d.digits
  have hvalue : Nat.ofDigitChars 10 (Nat.toDigits 10 d.digits) 0 = d.digits := Nat.ofDigitChars_ten_toDigits
  have hnil : ∀ c ∈ ([] : List Char).head?, c.isDigit = false := by simp
  have hzero : ∀ c ∈ ['0'], c.isDigit = true := by simp
  by_cases hexp : 0 ≤ d.exponent
  · obtain ⟨hwhole, hfraction⟩ := wholeDigits_of_nonneg (Nat.toDigits_ne_nil (n := d.digits) (b := 10)) hexp
    have hread := reading_point (isDigit_wholeDigits hds d.exponent) hzero [] hnil
    rw [List.append_nil] at hread
    have hpow : (10 : ℚ) ^ d.exponent = 10 ^ d.exponent.toNat := by
      rw [← zpow_natCast, Int.toNat_of_nonneg hexp]
    simp only [fraction, hfraction, List.isEmpty_nil, if_true]
    rw [hread, hwhole, Nat.ofDigitChars_append, Nat.ofDigitChars_append, hvalue, Nat.ofDigitChars_replicate_zero]
    simp only [Nat.ofDigitChars_cons, Nat.ofDigitChars_nil, exponentOf, List.length_singleton, value, hpow]
    push_cast
    simp
    field_simp
  · obtain ⟨hdigits, hlength⟩ := fractionDigits_of_neg (Nat.toDigits 10 d.digits) (not_le.1 hexp)
    have hne : fraction.isEmpty = false := by
      cases hf : fraction with
      | nil => rw [show fractionDigits _ _ = [] from hf, List.length_nil] at hlength; omega
      | cons => rfl
    have hread := reading_point (isDigit_wholeDigits hds d.exponent) (isDigit_fractionDigits hds d.exponent) [] hnil
    rw [List.append_nil] at hread
    rw [hne, if_neg (by simp), hread, hdigits, hlength, hvalue]
    simp [exponentOf, value]

/-! ## With an exponent -/

/-- A decimal with an exponent, which says how far the point is from the first digit. -/
def scientificChars (d : Decimal) : List Char :=
  let ds := Nat.toDigits 10 d.digits
  let first := (ds.length : ℤ) + d.exponent - 1
  let sign := if first < 0 then '-' else '+'
  ds.take 1 ++ (if ds.length ≤ 1 then [] else '.' :: ds.drop 1) ++ 'e' :: sign :: Nat.toDigits 10 first.natAbs

/-- A text with an exponent stands for its decimal. -/
theorem reading_scientificChars (d : Decimal) : reading d.scientificChars = d.value := by
  let ds := Nat.toDigits 10 d.digits
  let first := (ds.length : ℤ) + d.exponent - 1
  let sign := if first < 0 then '-' else '+'
  change reading
    (ds.take 1 ++ (if ds.length ≤ 1 then [] else '.' :: ds.drop 1) ++ 'e' :: sign :: Nat.toDigits 10 first.natAbs) = d.value
  have hds : ∀ c ∈ ds, c.isDigit = true := isDigit_toDigits d.digits
  have hvalue : Nat.ofDigitChars 10 ds 0 = d.digits := Nat.ofDigitChars_ten_toDigits
  have hexp : exponentOf ('e' :: sign :: Nat.toDigits 10 first.natAbs) = first := by
    simp only [sign]
    split
    · simp only [exponentOf, Nat.ofDigitChars_ten_toDigits]
      omega
    · simp only [exponentOf, Nat.ofDigitChars_ten_toDigits]
      omega
  have hpos : 0 < ds.length := Nat.length_toDigits_pos
  have htake : ∀ c ∈ ds.take 1, c.isDigit = true := fun c hc => hds c (List.mem_of_mem_take hc)
  by_cases hcount : ds.length ≤ 1
  · have hread := reading_exponent htake (sign :: Nat.toDigits 10 first.natAbs)
    rw [if_pos hcount, List.append_nil, hread, List.take_of_length_le hcount, hvalue, hexp, value]
    congr 2
    omega
  · have hdrop : ∀ c ∈ ds.drop 1, c.isDigit = true := fun c hc => hds c (List.mem_of_mem_drop hc)
    have hread := reading_point htake hdrop ('e' :: sign :: Nat.toDigits 10 first.natAbs) (by simp)
    rw [if_neg hcount, List.append_assoc, List.cons_append, hread, List.take_append_drop, hvalue, hexp, value]
    congr 2
    rw [List.length_drop]
    omega

/-- A decimal is written in plain notation or with an exponent. -/
theorem toList_text (d : Decimal) :
    (d.text Json.layout).toList = d.plainChars ∨ (d.text Json.layout).toList = d.scientificChars := by
  unfold text
  simp only []
  split
  · rw [String.toList_ofList]
    exact .inl rfl
  · refine .inr ?_
    simp only [String.toList_append, String.toList_ofList, Nat.toString_eq_ofList_toDigits, Json.layout, scientificChars]
    by_cases hneg : ((Nat.toDigits 10 d.digits).length : ℤ) + d.exponent - 1 < 0
    · simp [hneg]
    · simp [hneg]

/-- The text of a decimal stands for its value. -/
theorem reading_text (d : Decimal) : reading (d.text Json.layout).toList = d.value := by
  rcases toList_text d with h | h
  · rw [h, reading_plainChars]
  · rw [h, reading_scientificChars]

/-- The text of a decimal begins with digits, and a point or an exponent follows them. -/
theorem text_shape (d : Decimal) :
    ∃ ds mark rest, (d.text Json.layout).toList = ds ++ mark :: rest ∧ ds ≠ [] ∧ (∀ c ∈ ds, c.isDigit = true) ∧
      mark ∈ ['.', 'e'] ∧ ∀ c ∈ rest, c.isDigit = true ∨ c ∈ ['.', 'e', '+', '-'] := by
  have hds := isDigit_toDigits d.digits
  have hne : Nat.toDigits 10 d.digits ≠ [] := Nat.toDigits_ne_nil
  rcases toList_text d with h | h
  · refine ⟨_, _, _, h, ?_, isDigit_wholeDigits hds _, by decide, ?_⟩
    · unfold wholeDigits
      split
      · simp only [ne_eq, List.append_eq_nil_iff, List.take_eq_nil_iff, hne, or_false, not_and]
        omega
      · simp
    · intro c hc
      split at hc
      · exact .inl (by rw [List.mem_singleton.1 hc]; decide)
      · exact .inl (isDigit_fractionDigits hds _ c hc)
  · have htail : ∀ (sign : Char) (n : Nat), sign ∈ ['+', '-'] → ∀ c ∈ 'e' :: sign :: Nat.toDigits 10 n,
        c.isDigit = true ∨ c ∈ ['.', 'e', '+', '-'] := by
      intro sign n hsign c hc
      rcases List.mem_cons.1 hc with rfl | hc
      · exact .inr (by decide)
      rcases List.mem_cons.1 hc with rfl | hc
      · exact .inr (by revert hsign; simp; tauto)
      · exact .inl (isDigit_toDigits _ c hc)
    have hfirst : ∀ c ∈ (Nat.toDigits 10 d.digits).take 1, c.isDigit = true := fun c hc => hds c (List.mem_of_mem_take hc)
    have hfirst' : (Nat.toDigits 10 d.digits).take 1 ≠ [] := by simp
    have hsign : ∀ p : Prop, [Decidable p] → (if p then '-' else '+') ∈ ['+', '-'] := by
      intro p _
      split <;> decide
    unfold scientificChars at h
    by_cases hcount : (Nat.toDigits 10 d.digits).length ≤ 1
    · simp only [hcount, if_true, List.append_nil] at h
      refine ⟨_, _, _, h, hfirst', hfirst, by decide, fun c hc => htail _ _ (hsign _) c (List.mem_cons_of_mem _ hc)⟩
    · simp only [hcount, if_false, List.append_assoc, List.cons_append] at h
      refine ⟨_, _, _, h, hfirst', hfirst, by decide, fun c hc => ?_⟩
      rcases List.mem_append.1 hc with hc | hc
      · exact .inl (hds c (List.mem_of_mem_drop hc))
      · exact htail _ _ (hsign _) c hc

end Decimal

end StarQuery
