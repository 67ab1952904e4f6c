import StarQuery.Proofs.Number.Text

/-!
# The text of a JSON value tells it from all others

Values are told apart by the first character of their texts, and each form by what follows. The texts of two values can be
taken off the front of the same list of characters only if the values are equal (`unique_chars`), as long as no character that
could continue a number follows.
-/

namespace StarQuery

namespace Json

/-! ## Strings -/

/-- The digit that a character stands for, in hexadecimal and in lower case. -/
def hexValue (c : Char) : Nat := if c.isDigit then c.toNat - '0'.toNat else c.toNat - 'a'.toNat + 10

/-- The character that is written at the head of a text, and what follows it. -/
def unescape : List Char → Option (Char × List Char)
  | '\\' :: 'u' :: '0' :: '0' :: high :: low :: rest => some (Char.ofNat (16 * hexValue high + hexValue low), rest)
  | '\\' :: '"' :: rest => some ('"', rest)
  | '\\' :: '\\' :: rest => some ('\\', rest)
  | '\\' :: 'b' :: rest => some ('\x08', rest)
  | '\\' :: 'f' :: rest => some ('\x0c', rest)
  | '\\' :: 'n' :: rest => some ('\n', rest)
  | '\\' :: 'r' :: rest => some ('\r', rest)
  | '\\' :: 't' :: rest => some ('\t', rest)
  | c :: rest => some (c, rest)
  | [] => none

/-- A control character is read back from its two hexadecimal digits. -/
theorem hexValue_hexDigit : ∀ n : Fin 32, 16 * hexValue (hexDigit (n / 16)) + hexValue (hexDigit n) = n := by
  decide

/-- A character is read back from how it is written, whatever follows it. -/
theorem unescape_escape (c : Char) (rest : List Char) : unescape (escape c ++ rest) = some (c, rest) := by
  unfold escape
  split
  case h_8 =>
    split
    · rename_i hcontrol
      have hvalue := hexValue_hexDigit ⟨c.toNat, hcontrol⟩
      simp only at hvalue
      simp only [List.cons_append, List.nil_append, unescape, hvalue, Char.ofNat_toNat]
    · rename_i hbackslash _ _ _ _ _ _
      rw [List.singleton_append]
      unfold unescape
      split <;> simp_all
  all_goals rfl

/-- No character is written with a quote at the front, so the quote that ends a string is not taken for one. -/
theorem head_escape (c : Char) : ∃ first rest, escape c = first :: rest ∧ first ≠ '"' := by
  unfold escape
  split
  case h_8 hquote _ _ _ _ _ _ =>
    split
    · exact ⟨_, _, rfl, by decide⟩
    · exact ⟨_, _, rfl, hquote⟩
  all_goals exact ⟨_, _, rfl, by decide⟩

/-- A string ends at the first quote that is not escaped. -/
theorem escaped_unique {cs ds r r' : List Char} (h : cs.flatMap escape ++ '"' :: r = ds.flatMap escape ++ '"' :: r') :
    cs = ds ∧ r = r' := by
  induction cs generalizing ds with
  | nil =>
    cases ds with
    | nil => exact ⟨rfl, (List.cons.inj h).2⟩
    | cons d ds =>
      obtain ⟨first, rest, hd, hne⟩ := head_escape d
      rw [List.flatMap_nil, List.nil_append, List.flatMap_cons, hd] at h
      exact absurd (List.cons.inj h).1.symm hne
  | cons c cs ih =>
    cases ds with
    | nil =>
      obtain ⟨first, rest, hc, hne⟩ := head_escape c
      rw [List.flatMap_nil, List.nil_append, List.flatMap_cons, hc] at h
      exact absurd (List.cons.inj h).1 hne
    | cons d ds =>
      rw [List.flatMap_cons, List.flatMap_cons, List.append_assoc, List.append_assoc] at h
      have hhead := congrArg unescape h
      rw [unescape_escape, unescape_escape, Option.some.injEq, Prod.mk.injEq] at hhead
      obtain ⟨rfl, hrest⟩ := hhead
      obtain ⟨rfl, hr⟩ := ih hrest
      exact ⟨rfl, hr⟩

/-- A string can be taken off the front of a text in one way only. -/
theorem quoted_unique {s t : String} {r r' : List Char} (h : quoted s ++ r = quoted t ++ r') : s = t ∧ r = r' := by
  unfold quoted at h
  rw [List.cons_append, List.cons_append, List.append_assoc, List.append_assoc] at h
  obtain ⟨hlist, hr⟩ := escaped_unique (List.cons.inj h).2
  exact ⟨String.toList_inj.1 hlist, hr⟩

/-! ## Lists with commas -/

/-- A text that does not go on with a character of a number. -/
def Ended (rest : List Char) : Prop := ∀ c ∈ rest.head?, Number.isNumeral c = false

/-- A text that goes on with a character of no number has ended. -/
theorem ended_cons {c : Char} (h : Number.isNumeral c = false) (rest : List Char) : Ended (c :: rest) := by
  intro d hd
  cases hd
  exact h

/-- The text of `x` can be taken off the front of a text in one way only. -/
def Unique {α : Type} (encode : α → List Char) (x : α) : Prop :=
  ∀ {y : α} {r r' : List Char}, Ended r → Ended r' → encode x ++ r = encode y ++ r' → x = y ∧ r = r'

/-- What follows an item: more items with a comma before each, and the end. -/
def more {α : Type} (encode : α → List Char) (close : Char) (xs : List α) (rest : List Char) : List Char :=
  xs.foldr (fun x cs => ',' :: (encode x ++ cs)) (close :: rest)

/-- Items with commas between them, and the end. -/
def separated {α : Type} (encode : α → List Char) (close : Char) (xs : List α) (rest : List Char) : List Char :=
  match xs with
  | [] => close :: rest
  | x :: xs => encode x ++ more encode close xs rest

section
variable {α : Type} {encode : α → List Char} {close : Char}

/-- After an item comes a comma or the end, and neither is in a number. -/
theorem ended_more (hclose : Number.isNumeral close = false) (xs : List α) (rest : List Char) :
    Ended (more encode close xs rest) := by
  cases xs with
  | nil => exact ended_cons hclose _
  | cons => exact ended_cons (by decide) _

/-- What follows an item can be taken off the front of a text in one way only, if each of the items can. -/
theorem more_unique (hclose : Number.isNumeral close = false) (hcomma : close ≠ ',') {xs ys : List α} {r r' : List Char}
    (hxs : ∀ x ∈ xs, Unique encode x) (h : more encode close xs r = more encode close ys r') : xs = ys ∧ r = r' := by
  induction xs generalizing ys with
  | nil =>
    cases ys with
    | nil => exact ⟨rfl, (List.cons.inj h).2⟩
    | cons => exact absurd (List.cons.inj h).1 hcomma
  | cons x xs ih =>
    cases ys with
    | nil => exact absurd (List.cons.inj h).1.symm hcomma
    | cons y ys =>
      obtain ⟨rfl, hrest⟩ := hxs x List.mem_cons_self (ended_more hclose xs r) (ended_more hclose ys r') (List.cons.inj h).2
      obtain ⟨rfl, hr⟩ := ih (fun z hz => hxs z (List.mem_cons_of_mem _ hz)) hrest
      exact ⟨rfl, hr⟩

/-- Items with commas between them can be taken off the front of a text in one way only, if none begins like the end. -/
theorem separated_unique (hclose : Number.isNumeral close = false) (hcomma : close ≠ ',')
    (hfirst : ∀ x : α, ∃ c cs, encode x = c :: cs ∧ c ≠ close) {xs ys : List α} {r r' : List Char}
    (hxs : ∀ x ∈ xs, Unique encode x) (h : separated encode close xs r = separated encode close ys r') :
    xs = ys ∧ r = r' := by
  cases xs with
  | nil =>
    cases ys with
    | nil => exact ⟨rfl, (List.cons.inj h).2⟩
    | cons y ys =>
      obtain ⟨c, cs, hy, hne⟩ := hfirst y
      rw [separated, separated, hy] at h
      exact absurd (List.cons.inj h).1.symm hne
  | cons x xs =>
    cases ys with
    | nil =>
      obtain ⟨c, cs, hx, hne⟩ := hfirst x
      rw [separated, separated, hx] at h
      exact absurd (List.cons.inj h).1 hne
    | cons y ys =>
      obtain ⟨rfl, hrest⟩ := hxs x List.mem_cons_self (ended_more hclose xs r) (ended_more hclose ys r') h
      obtain ⟨rfl, hr⟩ := more_unique hclose hcomma (fun z hz => hxs z (List.mem_cons_of_mem _ hz)) hrest
      exact ⟨rfl, hr⟩

end

/-- The text of a field. -/
def fieldText (field : String × Json) : List Char := quoted field.1 ++ ':' :: chars field.2

/-- The items of an array and its closing bracket are a list with commas. -/
theorem itemChars_append (vs : List Json) (rest : List Char) :
    itemChars vs ++ ']' :: rest = separated chars ']' vs rest := by
  induction vs with
  | nil => rfl
  | cons v vs ih =>
    cases vs with
    | nil => rfl
    | cons w vs =>
      rw [itemChars, List.append_assoc, List.cons_append, ih]
      · rfl
      · simp

/-- The fields of an object and its closing brace are a list with commas. -/
theorem fieldChars_append (fields : Fields) (rest : List Char) :
    fieldChars fields ++ '\x7d' :: rest = separated fieldText '\x7d' fields rest := by
  induction fields with
  | nil => rfl
  | cons field fields ih =>
    obtain ⟨k, v⟩ := field
    cases fields with
    | nil => simp only [fieldChars, separated, more, List.foldr_nil, fieldText]
    | cons field fields =>
      rw [fieldChars, List.append_assoc, List.cons_append, List.append_assoc, List.cons_append, ih]
      · simp only [separated, fieldText, more, List.foldr_cons, List.append_assoc, List.cons_append]
      · simp

/-- An array is a bracket, and then a list with commas. -/
theorem chars_arr_append (items : List Json) (rest : List Char) :
    chars (.arr items) ++ rest = '[' :: separated chars ']' items rest := by
  rw [chars, List.cons_append, List.append_assoc, List.singleton_append, itemChars_append]

/-- An object is a brace, and then a list with commas. -/
theorem chars_obj_append (fields : Fields) (rest : List Char) :
    chars (.obj fields) ++ rest = '\x7b' :: separated fieldText '\x7d' fields rest := by
  rw [chars, List.cons_append, List.append_assoc, List.singleton_append, fieldChars_append]

/-! ## Values -/

/-- The forms of a value. -/
inductive Form where
  | null | bool | num | str | arr | obj
  deriving DecidableEq

/-- The form of a value. -/
def form : Json → Form
  | .null => .null
  | .bool _ => .bool
  | .num _ => .num
  | .str _ => .str
  | .arr _ => .arr
  | .obj _ => .obj

/-- The form that a first character stands for. -/
def formOf (c : Char) : Form :=
  if c == 'n' then .null
  else if c == 't' || c == 'f' then .bool
  else if c == '"' then .str
  else if c == '[' then .arr
  else if c == '\x7b' then .obj
  else .num

/-- A text that begins with a first character of a number stands for a number. -/
theorem formOf_number {c : Char} (h : c.isDigit = true ∨ c ∈ ['-', 'I', 'N']) : formOf c = .num := by
  rcases h with h | h
  · have hne : ∀ d : Char, d.isDigit = false → (c == d) = false := by
      intro d hd
      rw [beq_eq_false_iff_ne]
      rintro rfl
      rw [h] at hd
      cases hd
    simp only [formOf, hne 'n' (by decide), hne 't' (by decide), hne 'f' (by decide), hne '"' (by decide),
      hne '[' (by decide), hne '\x7b' (by decide)]
    rfl
  · simp only [List.mem_cons, List.not_mem_nil, or_false] at h
    rcases h with rfl | rfl | rfl <;> rfl

/-- The first character of a text tells the form of the value; it is no bracket that closes. -/
theorem head_chars (v : Json) : ∃ c cs, chars v = c :: cs ∧ formOf c = v.form ∧ c ≠ ']' := by
  cases v with
  | null => exact ⟨_, _, rfl, by decide, by decide⟩
  | bool b => cases b <;> exact ⟨_, _, rfl, by decide, by decide⟩
  | num n =>
    obtain ⟨c, cs, h, hc, hall⟩ := n.text_shape
    refine ⟨c, cs, h, formOf_number hc, ?_⟩
    rintro rfl
    exact absurd (hall _ List.mem_cons_self) (by decide)
  | str s => exact ⟨_, _, rfl, rfl, by decide⟩
  | arr items => exact ⟨_, _, rfl, rfl, by decide⟩
  | obj fields => exact ⟨_, _, rfl, rfl, by decide⟩

/-- A number ends before the first character that is in no number. -/
theorem number_unique {m n : Number} {r r' : List Char} (hr : Ended r) (hr' : Ended r')
    (h : m.text.toList ++ r = n.text.toList ++ r') : m = n ∧ r = r' := by
  have hcut : ∀ (n : Number) {r : List Char}, Ended r → (n.text.toList ++ r).takeWhile Number.isNumeral = n.text.toList := by
    intro n r hr
    obtain ⟨c, cs, htext, -, hall⟩ := n.text_shape
    rw [← htext] at hall
    rw [List.takeWhile_append_of_pos hall]
    cases r with
    | nil => simp
    | cons d r => simp [hr d rfl]
  have htext : m.text.toList = n.text.toList := by rw [← hcut m hr, h, hcut n hr']
  rw [htext] at h
  exact ⟨Number.text_inj (String.toList_inj.1 htext), List.append_cancel_left h⟩

/-- A field can be taken off the front of a text in one way only, if its value can. -/
theorem unique_field {k : String} {v : Json} (hv : Unique chars v) : Unique fieldText (k, v) := by
  intro y r r' hr hr' h
  obtain ⟨k', v'⟩ := y
  unfold fieldText at h
  rw [List.append_assoc, List.append_assoc] at h
  obtain ⟨rfl, hrest⟩ := quoted_unique h
  obtain ⟨rfl, hr⟩ := hv hr hr' (List.cons.inj hrest).2
  exact ⟨rfl, hr⟩

/-- Induction on values, with the lists of items and of fields folded in. -/
@[elab_as_elim]
theorem induct {motive : Json → Prop} (null : motive .null) (bool : ∀ b, motive (.bool b)) (num : ∀ n, motive (.num n))
    (str : ∀ s, motive (.str s)) (arr : ∀ items, (∀ v ∈ items, motive v) → motive (.arr items))
    (obj : ∀ fields : Fields, (∀ field ∈ fields, motive field.2) → motive (.obj fields)) (v : Json) : motive v :=
  @Json.rec motive (fun items => ∀ v ∈ items, motive v) (fun fields => ∀ field ∈ fields, motive field.2)
    (fun field => motive field.2) null bool num str arr obj
    (fun _ h => absurd h List.not_mem_nil)
    (fun _ _ hv hrest _ h => (List.mem_cons.1 h).elim (fun e => e ▸ hv) (hrest _))
    (fun _ h => absurd h List.not_mem_nil)
    (fun _ _ hf hrest _ h => (List.mem_cons.1 h).elim (fun e => e ▸ hf) (hrest _))
    (fun _ _ hv => hv) v

/-- Texts that begin alike are of values of the same form. -/
theorem form_eq {v w : Json} {r r' : List Char} (h : chars v ++ r = chars w ++ r') : w.form = v.form := by
  obtain ⟨c, cs, hv, hform, -⟩ := head_chars v
  obtain ⟨d, ds, hw, hform', -⟩ := head_chars w
  rw [hv, hw] at h
  rw [← hform, ← hform', (List.cons.inj h).1]

/-- The text of a value can be taken off the front of a text in one way only. -/
theorem unique_chars (v : Json) : Unique chars v := by
  induction v using induct with
  | null =>
    intro w r r' _ _ h
    cases w <;> cases form_eq h
    exact ⟨rfl, List.append_cancel_left h⟩
  | bool b =>
    intro w r r' _ _ h
    cases w <;> cases form_eq h
    rename_i b'
    cases b <;> cases b'
    · exact ⟨rfl, List.append_cancel_left h⟩
    · exact absurd (List.cons.inj h).1 (by decide)
    · exact absurd (List.cons.inj h).1 (by decide)
    · exact ⟨rfl, List.append_cancel_left h⟩
  | num n =>
    intro w r r' hr hr' h
    cases w <;> cases form_eq h
    obtain ⟨rfl, hrest⟩ := number_unique hr hr' h
    exact ⟨rfl, hrest⟩
  | str s =>
    intro w r r' _ _ h
    cases w <;> cases form_eq h
    obtain ⟨rfl, hrest⟩ := quoted_unique h
    exact ⟨rfl, hrest⟩
  | arr items ih =>
    intro w r r' _ _ h
    cases w <;> cases form_eq h
    rw [chars_arr_append, chars_arr_append] at h
    have hfirst : ∀ v : Json, ∃ c cs, chars v = c :: cs ∧ c ≠ ']' := fun v =>
      (head_chars v).imp fun _ => Exists.imp fun _ h => ⟨h.1, h.2.2⟩
    obtain ⟨rfl, hrest⟩ := separated_unique (by decide) (by decide) hfirst ih (List.cons.inj h).2
    exact ⟨rfl, hrest⟩
  | obj fields ih =>
    intro w r r' _ _ h
    cases w <;> cases form_eq h
    rw [chars_obj_append, chars_obj_append] at h
    have hfirst : ∀ field : String × Json, ∃ c cs, fieldText field = c :: cs ∧ c ≠ '\x7d' := fun _ =>
      ⟨_, _, rfl, by decide⟩
    obtain ⟨rfl, hrest⟩ := separated_unique (by decide) (by decide) hfirst (fun field hf => unique_field (ih field hf))
      (List.cons.inj h).2
    exact ⟨rfl, hrest⟩

/-- Values with the same text are the same. -/
theorem text_inj {v w : Json} (h : v.text = w.text) : v = w := by
  have hend : Ended [] := by
    intro c hc
    cases hc
  refine (unique_chars v hend hend ?_).1
  rw [List.append_nil, List.append_nil]
  exact String.ofList_inj.1 h

end Json

end StarQuery
