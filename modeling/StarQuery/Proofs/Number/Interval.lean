import StarQuery.Proofs.Number.Decimal

/-!
# The shortest decimal of a double tells it from all others

The reals that round to a double form an interval, and the intervals of two doubles have no point in common
(`eq_of_mem_intervals`): where they meet, the one whose coefficient is odd does not hold the end. The shortest decimal of a
double lies in its interval (`mem_interval_shortest`), since the finest grid that is searched has a point in it.
-/

namespace StarQuery

namespace Decimal

/-- The coefficients and exponents that doubles have: below `2 ^ 53`, and a leading one unless the exponent is the least. -/
structure Canonical (coefficient : Nat) (exponent : ℤ) : Prop where
  pos : 0 < coefficient
  lt : coefficient < 2 ^ 53
  least : -1074 ≤ exponent
  greatest : exponent ≤ 971
  leading : 2 ^ 52 ≤ coefficient ∨ exponent = -1074

/-- A point of the interval of a double, the ends only if the interval has them. -/
def Interval.Has (i : Interval) (q : ℚ) : Prop :=
  if i.closed then (i.low : ℚ) / i.denominator ≤ q ∧ q ≤ (i.high : ℚ) / i.denominator
  else (i.low : ℚ) / i.denominator < q ∧ q < (i.high : ℚ) / i.denominator

/-! ## Powers -/

/-- A power with a whole exponent is a fraction of natural numbers, one of which is one. -/
theorem zpow_eq_div {b : ℕ} (hb : b ≠ 0) (k : ℤ) : (b : ℚ) ^ k = (b ^ k.toNat : ℕ) / (b ^ (-k).toNat : ℕ) := by
  have hb' : (b : ℚ) ≠ 0 := by exact_mod_cast hb
  rcases le_total 0 k with hk | hk
  · have h1 : (-k).toNat = 0 := by omega
    rw [h1, pow_zero, Nat.cast_one, div_one, Nat.cast_pow, ← zpow_natCast, Int.toNat_of_nonneg hk]
  · have h1 : k.toNat = 0 := by omega
    rw [h1, pow_zero, Nat.cast_one, Nat.cast_pow, ← zpow_natCast, Int.toNat_of_nonneg (by omega), zpow_neg, one_div,
      inv_inv]

/-- A multiple of a power of two, as the interval of a double holds it. -/
theorem div_denominator (e : ℤ) (m : ℕ) :
    ((m * Nat.pow 2 (e - 2).toNat : ℕ) : ℚ) / (Nat.pow 2 (2 - e).toNat : ℕ) = m * (2 : ℚ) ^ (e - 2) := by
  have h := zpow_eq_div (b := 2) (by decide) (e - 2)
  have hneg : -(e - 2) = 2 - e := by ring
  rw [hneg] at h
  rw [Nat.cast_mul, mul_div_assoc]
  exact congrArg ((m : ℚ) * ·) h.symm

/-! ## Different doubles have different intervals -/

/-- How far the interval of a double goes down, in quarters of the distance to the next double above. -/
def reachBelow (c : ℕ) (e : ℤ) : ℕ := if c == 0x10000000000000 && decide (-1074 < e) then 1 else 2

/-- An interval goes down by one quarter or by two. -/
theorem reachBelow_le (c : ℕ) (e : ℤ) : 1 ≤ reachBelow c e ∧ reachBelow c e ≤ 2 := by
  unfold reachBelow
  split <;> decide

/-- The points of an interval lie between its ends, and an end is a point only if the coefficient is even. -/
theorem has_bounds {c : ℕ} {e : ℤ} {q : ℚ} (h : (interval c e).Has q) :
    ((4 * c - reachBelow c e : ℕ) : ℚ) * 2 ^ (e - 2) ≤ q ∧ q ≤ ((4 * c + 2 : ℕ) : ℚ) * 2 ^ (e - 2) ∧
      (c % 2 = 1 → ((4 * c - reachBelow c e : ℕ) : ℚ) * 2 ^ (e - 2) < q ∧ q < ((4 * c + 2 : ℕ) : ℚ) * 2 ^ (e - 2)) := by
  have hlow : ((interval c e).low : ℚ) / (interval c e).denominator = ((4 * c - reachBelow c e : ℕ) : ℚ) * 2 ^ (e - 2) :=
    div_denominator e _
  have hhigh : ((interval c e).high : ℚ) / (interval c e).denominator = ((4 * c + 2 : ℕ) : ℚ) * 2 ^ (e - 2) :=
    div_denominator e _
  unfold Interval.Has at h
  rw [hlow, hhigh] at h
  by_cases hc : (interval c e).closed = true
  · rw [if_pos hc] at h
    have heven : c % 2 = 0 := by simpa [interval] using hc
    exact ⟨h.1, h.2, fun hodd => by omega⟩
  · rw [if_neg hc] at h
    exact ⟨h.1.le, h.2.le, fun _ => h⟩

/-- Of two doubles with the same exponent, the greater has its interval above. -/
theorem no_common_point_of_lt {c c' : ℕ} {e : ℤ} {q : ℚ} (hc : c < c') (h : (interval c e).Has q)
    (h' : (interval c' e).Has q) : False := by
  obtain ⟨_, hhigh, hodd⟩ := has_bounds h
  obtain ⟨hlow', _, hodd'⟩ := has_bounds h'
  have hu : (0 : ℚ) < 2 ^ (e - 2) := zpow_pos two_pos _
  have hr := reachBelow_le c' e
  have hle : (4 * c' - reachBelow c' e : ℕ) ≤ 4 * c + 2 := by
    have := le_of_mul_le_mul_right (hlow'.trans hhigh) hu
    exact_mod_cast this
  -- the ends can only meet if the doubles are neighbours, and then one coefficient is odd
  rcases Nat.mod_two_eq_zero_or_one c with hpar | hpar
  · have hlt := (hlow'.lt_of_ne ?_).trans_le hhigh
    · have := lt_of_mul_lt_mul_right hlt hu.le
      have : (4 * c' - reachBelow c' e : ℕ) < 4 * c + 2 := by exact_mod_cast this
      omega
    · exact ((hodd' (by omega)).1).ne
  · have hlt := hlow'.trans_lt (hodd hpar).2
    have := lt_of_mul_lt_mul_right hlt hu.le
    have : (4 * c' - reachBelow c' e : ℕ) < 4 * c + 2 := by exact_mod_cast this
    omega

/-- A double with a greater exponent has its interval above. -/
theorem no_common_point_of_exponent_lt {c c' : ℕ} {e e' : ℤ} {q : ℚ} (hcanon : Canonical c e) (hcanon' : Canonical c' e')
    (he : e < e') (h : (interval c e).Has q) (h' : (interval c' e').Has q) : False := by
  obtain ⟨_, hhigh, hodd⟩ := has_bounds h
  obtain ⟨hlow', _, _⟩ := has_bounds h'
  have hu : (0 : ℚ) < 2 ^ (e - 2) := zpow_pos two_pos _
  have hlead : 2 ^ 52 ≤ c' := hcanon'.leading.resolve_right (by have := hcanon.least; omega)
  have hreach : 2 ^ 54 - 1 ≤ 4 * c' - reachBelow c' e' := by
    have hr := reachBelow_le c' e'
    by_cases hc : c' = 2 ^ 52
    · have : reachBelow c' e' = 1 := by
        have hleast : -1074 < e' := by have := hcanon.least; omega
        simp [reachBelow, hc, hleast]
      omega
    · omega
  have hpow : (2 : ℚ) * 2 ^ (e - 2) ≤ 2 ^ (e' - 2) := by
    rw [← zpow_one_add₀ (by norm_num)]
    exact zpow_le_zpow_right₀ (by norm_num) (by omega)
  have hq : (2 ^ 55 - 2 : ℚ) * 2 ^ (e - 2) ≤ q := by
    calc (2 ^ 55 - 2 : ℚ) * 2 ^ (e - 2) = (2 ^ 54 - 1) * (2 * 2 ^ (e - 2)) := by ring
      _ ≤ (2 ^ 54 - 1) * 2 ^ (e' - 2) := mul_le_mul_of_nonneg_left hpow (by norm_num)
      _ ≤ ((4 * c' - reachBelow c' e' : ℕ) : ℚ) * 2 ^ (e' - 2) := by
        refine mul_le_mul_of_nonneg_right ?_ (zpow_pos two_pos _).le
        have : ((2 ^ 54 - 1 : ℕ) : ℚ) ≤ (4 * c' - reachBelow c' e' : ℕ) := Nat.cast_le.2 hreach
        norm_num at this ⊢
        exact this
      _ ≤ q := hlow'
  have hc := hcanon.lt
  by_cases hmax : c = 2 ^ 53 - 1
  · -- the greatest coefficient is odd, so its interval does not hold the end
    have hlt := hq.trans_lt (hodd (by omega)).2
    have := lt_of_mul_lt_mul_right hlt hu.le
    have : (2 ^ 55 : ℕ) < 4 * c + 2 + 2 := by
      have := sub_lt_iff_lt_add.1 this
      exact_mod_cast this
    omega
  · have := le_of_mul_le_mul_right (hq.trans hhigh) hu
    have : (2 ^ 55 : ℕ) ≤ 4 * c + 2 + 2 := by
      have := sub_le_iff_le_add.1 this
      exact_mod_cast this
    omega

/-- The intervals of two doubles have no point in common. -/
theorem eq_of_mem_intervals {c c' : ℕ} {e e' : ℤ} {q : ℚ} (hcanon : Canonical c e) (hcanon' : Canonical c' e')
    (h : (interval c e).Has q) (h' : (interval c' e').Has q) : c = c' ∧ e = e' := by
  rcases lt_trichotomy e e' with he | rfl | he
  · exact (no_common_point_of_exponent_lt hcanon hcanon' he h h').elim
  · rcases lt_trichotomy c c' with hc | rfl | hc
    · exact (no_common_point_of_lt hc h h').elim
    · exact ⟨rfl, rfl⟩
    · exact (no_common_point_of_lt hc h' h).elim
  · exact (no_common_point_of_exponent_lt hcanon' hcanon he h' h).elim

/-- No interval of a double reaches zero. -/
theorem pos_of_has {c : ℕ} {e : ℤ} {q : ℚ} (hc : 0 < c) (h : (interval c e).Has q) : 0 < q := by
  have hr := reachBelow_le c e
  have hlow : (0 : ℚ) < (4 * c - reachBelow c e : ℕ) := Nat.cast_pos.2 (by omega)
  exact (mul_pos hlow (zpow_pos two_pos _)).trans_le (has_bounds h).1

/-! ## The grids -/

/-- Whether a multiple of `10 ^ k` is in the interval. -/
def Interval.inside (i : Interval) (k : ℤ) (c : ℕ) : Bool :=
  let scale := Nat.pow 10 (-k).toNat
  let unit := Nat.pow 10 k.toNat * i.denominator
  if i.closed then decide (i.low * scale ≤ c * unit) && decide (c * unit ≤ i.high * scale)
  else decide (i.low * scale < c * unit) && decide (c * unit < i.high * scale)

/-- The comparison of an end with a multiple of a power of ten that the grid makes, in fractions. -/
theorem mul_ten_zpow_le {d : ℕ} (hd : 0 < d) (k : ℤ) (a c : ℕ) :
    a * Nat.pow 10 (-k).toNat ≤ c * (Nat.pow 10 k.toNat * d) ↔ (a : ℚ) / d ≤ c * (10 : ℚ) ^ k := by
  have hpow : (10 : ℚ) ^ k = (10 ^ k.toNat : ℕ) / (10 ^ (-k).toNat : ℕ) := zpow_eq_div (b := 10) (by decide) k
  have hs : (0 : ℚ) < (10 ^ (-k).toNat : ℕ) := Nat.cast_pos.2 (Nat.pow_pos (by decide))
  rw [hpow, ← mul_div_assoc, div_le_div_iff₀ (Nat.cast_pos.2 hd) hs, mul_assoc, ← Nat.cast_mul, ← Nat.cast_mul,
    ← Nat.cast_mul, Nat.cast_le]
  rfl

/-- The same comparison with the other end. -/
theorem ten_zpow_mul_le {d : ℕ} (hd : 0 < d) (k : ℤ) (a c : ℕ) :
    c * (Nat.pow 10 k.toNat * d) ≤ a * Nat.pow 10 (-k).toNat ↔ c * (10 : ℚ) ^ k ≤ (a : ℚ) / d := by
  have hpow : (10 : ℚ) ^ k = (10 ^ k.toNat : ℕ) / (10 ^ (-k).toNat : ℕ) := zpow_eq_div (b := 10) (by decide) k
  have hs : (0 : ℚ) < (10 ^ (-k).toNat : ℕ) := Nat.cast_pos.2 (Nat.pow_pos (by decide))
  rw [hpow, ← mul_div_assoc, div_le_div_iff₀ hs (Nat.cast_pos.2 hd), mul_assoc, ← Nat.cast_mul, ← Nat.cast_mul,
    ← Nat.cast_mul, Nat.cast_le]
  rfl

/-- What the grid tests of a multiple is whether it is a point of the interval. -/
theorem inside_iff {i : Interval} (hi : 0 < i.denominator) (k : ℤ) (c : ℕ) :
    i.inside k c = true ↔ i.Has (c * (10 : ℚ) ^ k) := by
  unfold Interval.inside Interval.Has
  by_cases hc : i.closed = true
  · simp only [hc, if_true, Bool.and_eq_true, decide_eq_true_eq, mul_ten_zpow_le hi, ten_zpow_mul_le hi]
  · simp only [hc, Bool.false_eq_true, if_false, Bool.and_eq_true, decide_eq_true_eq, ← not_le, mul_ten_zpow_le hi,
      ten_zpow_mul_le hi]

/-- What a grid gives is a point of the interval. -/
theorem has_of_onGrid? {i : Interval} (hi : 0 < i.denominator) {k : ℤ} {d : Decimal} (h : i.onGrid? k = some d) :
    i.Has d.value := by
  have hinside : i.inside k d.digits = true ∧ d.exponent = k := by
    unfold Interval.onGrid? at h
    simp only at h
    split at h
    · cases h
    · cases h
      exact ⟨by assumption, rfl⟩
    · cases h
      exact ⟨by assumption, rfl⟩
    · split at h
      · cases h
        exact ⟨by assumption, rfl⟩
      · cases h
        exact ⟨by assumption, rfl⟩
  obtain ⟨hin, rfl⟩ := hinside
  exact (inside_iff hi _ _).1 hin

/-- A grid finer than the upper part of the interval has a point in it. -/
theorem isSome_onGrid? {i : Interval} (hi : 0 < i.denominator) {k : ℤ} (hlow : i.low < i.value)
    (hfine : (i.value : ℚ) / i.denominator + (10 : ℚ) ^ k < (i.high : ℚ) / i.denominator) : (i.onGrid? k).isSome := by
  -- the point is the first multiple above the value
  let below := i.value * Nat.pow 10 (-k).toNat / (Nat.pow 10 k.toNat * i.denominator)
  have hunit : 0 < Nat.pow 10 k.toNat * i.denominator := Nat.mul_pos (Nat.pow_pos (by decide)) hi
  have hbelow : (below : ℚ) * 10 ^ k ≤ (i.value : ℚ) / i.denominator :=
    (ten_zpow_mul_le hi k _ _).1 (Nat.div_mul_le_self _ _)
  have habove : (i.value : ℚ) / i.denominator < ((below + 1 : ℕ) : ℚ) * 10 ^ k := by
    rw [← not_le, ← ten_zpow_mul_le hi k, not_le]
    exact (Nat.div_lt_iff_lt_mul hunit).1 (Nat.lt_succ_self below)
  have hin : i.inside k (below + 1) = true := by
    rw [inside_iff hi]
    have hlow' : (i.low : ℚ) / i.denominator < ((below + 1 : ℕ) : ℚ) * 10 ^ k :=
      (div_lt_div_of_pos_right (Nat.cast_lt.2 hlow) (Nat.cast_pos.2 hi)).trans habove
    have hhigh' : ((below + 1 : ℕ) : ℚ) * 10 ^ k < (i.high : ℚ) / i.denominator := by
      rw [Nat.cast_succ, add_mul, one_mul]
      exact (add_le_add_left hbelow _).trans_lt hfine
    unfold Interval.Has
    split
    · exact ⟨hlow'.le, hhigh'.le⟩
    · exact ⟨hlow', hhigh'⟩
  unfold Interval.onGrid?
  simp only
  split
  · rename_i h
    exact absurd (hin.symm.trans h) (by decide)
  · rfl
  · rfl
  · split <;> rfl

/-- The powers of ten that the search starts from, against the powers of two they stand for. -/
theorem ten_zpow_lt {j m : ℤ} (hlow : -1100 ≤ m) (hhigh : m ≤ 1100) (h : 100000 * j ≤ 30103 * m) :
    (10 : ℚ) ^ j < 2 ^ (m + 15) := by
  rcases le_total 0 j with hj | hj
  · obtain ⟨n, rfl⟩ := Int.eq_ofNat_of_zero_le hj
    have hpow : 10 ^ n ≤ 2 ^ (10 * (n / 3) + 4 * (n % 3)) := by
      calc 10 ^ n = (10 ^ 3) ^ (n / 3) * 10 ^ (n % 3) := by rw [← pow_mul, ← pow_add, Nat.div_add_mod]
        _ ≤ (2 ^ 10) ^ (n / 3) * (2 ^ 4) ^ (n % 3) :=
          Nat.mul_le_mul (Nat.pow_le_pow_left (by decide) _) (Nat.pow_le_pow_left (by decide) _)
        _ = 2 ^ (10 * (n / 3) + 4 * (n % 3)) := by rw [← pow_mul, ← pow_mul, ← pow_add]
    calc (10 : ℚ) ^ (n : ℤ) = ((10 ^ n : ℕ) : ℚ) := by rw [zpow_natCast]; norm_num
      _ ≤ ((2 ^ (10 * (n / 3) + 4 * (n % 3)) : ℕ) : ℚ) := Nat.cast_le.2 hpow
      _ = (2 : ℚ) ^ ((10 * (n / 3) + 4 * (n % 3) : ℕ) : ℤ) := by rw [zpow_natCast]; norm_num
      _ < 2 ^ (m + 15) := zpow_lt_zpow_right₀ (by norm_num) (by omega)
  · obtain ⟨n, rfl⟩ := Int.exists_eq_neg_ofNat hj
    have hpow : 2 ^ (93 * (n / 28) + 3 * (n % 28)) ≤ 10 ^ n := by
      calc 2 ^ (93 * (n / 28) + 3 * (n % 28)) = (2 ^ 93) ^ (n / 28) * (2 ^ 3) ^ (n % 28) := by
            rw [← pow_mul, ← pow_mul, ← pow_add]
        _ ≤ (10 ^ 28) ^ (n / 28) * 10 ^ (n % 28) :=
          Nat.mul_le_mul (Nat.pow_le_pow_left (by decide) _) (Nat.pow_le_pow_left (by decide) _)
        _ = 10 ^ n := by rw [← pow_mul, ← pow_add, Nat.div_add_mod]
    have hpow' : (2 : ℚ) ^ ((93 * (n / 28) + 3 * (n % 28) : ℕ) : ℤ) ≤ 10 ^ (n : ℤ) := by
      rw [zpow_natCast, zpow_natCast]
      exact_mod_cast hpow
    calc (10 : ℚ) ^ (-(n : ℤ)) = ((10 : ℚ) ^ (n : ℤ))⁻¹ := zpow_neg _ _
      _ ≤ ((2 : ℚ) ^ ((93 * (n / 28) + 3 * (n % 28) : ℕ) : ℤ))⁻¹ := inv_anti₀ (zpow_pos two_pos _) hpow'
      _ = 2 ^ (-((93 * (n / 28) + 3 * (n % 28) : ℕ) : ℤ)) := (zpow_neg _ _).symm
      _ < 2 ^ (m + 15) := zpow_lt_zpow_right₀ (by norm_num) (by omega)

/-- The last grid that is searched has a point in the interval. -/
theorem isSome_finest {c : ℕ} {e : ℤ} (h : Canonical c e) {m : ℤ} (hm : m = (c.log2 + 1 : ℕ) + e) :
    ((interval c e).onGrid? (m * 30103 / 100000 + 2 - 23)).isSome := by
  have hbits : c.log2 < 53 := (Nat.log2_lt h.pos.ne').2 h.lt
  have hden : 0 < (interval c e).denominator := Nat.pow_pos (by decide)
  refine isSome_onGrid? hden ?_ ?_
  · have hr := reachBelow_le c e
    have hpos := h.pos
    exact Nat.mul_lt_mul_of_pos_right (show 4 * c - reachBelow c e < 4 * c by omega) (Nat.pow_pos (by decide))
  · have hvalue : ((interval c e).value : ℚ) / (interval c e).denominator = ((4 * c : ℕ) : ℚ) * 2 ^ (e - 2) :=
      div_denominator e _
    have hhigh : ((interval c e).high : ℚ) / (interval c e).denominator = ((4 * c + 2 : ℕ) : ℚ) * 2 ^ (e - 2) :=
      div_denominator e _
    have hleast := h.least
    have hgreatest := h.greatest
    have hten : (10 : ℚ) ^ (m * 30103 / 100000) < 2 ^ (m + 15) := ten_zpow_lt (by omega) (by omega) (by omega)
    have hfine : (10 : ℚ) ^ (m * 30103 / 100000 + 2 - 23) < 2 * 2 ^ (e - 2) := by
      calc (10 : ℚ) ^ (m * 30103 / 100000 + 2 - 23) = 10 ^ (m * 30103 / 100000) * 10 ^ (-21 : ℤ) := by
            rw [← zpow_add₀ (by norm_num)]; congr 1; ring
        _ < 2 ^ (m + 15) * 2 ^ (-69 : ℤ) :=
          mul_lt_mul'' hten (by norm_num) (zpow_pos (by norm_num) _).le (by norm_num)
        _ = 2 ^ (m - 54) := by rw [← zpow_add₀ (by norm_num)]; congr 1; ring
        _ ≤ 2 ^ (1 + (e - 2)) := zpow_le_zpow_right₀ (by norm_num) (by omega)
        _ = 2 * 2 ^ (e - 2) := zpow_one_add₀ (by norm_num) _
    rw [hvalue, hhigh, Nat.cast_add, add_mul]
    exact add_lt_add_right hfine _

/-- The shortest decimal of a double is in the interval of the double. -/
theorem mem_interval_shortest {c : ℕ} {e : ℤ} (h : Canonical c e) : (interval c e).Has (shortest c e).value := by
  have hden : 0 < (interval c e).denominator := Nat.pow_pos (by decide)
  unfold shortest
  rw [if_neg h.pos.ne']
  simp only
  have hsome : ((List.range 24).findSome? fun n : ℕ => (interval c e).onGrid?
      (((c.log2 + 1 : ℕ) + e) * 30103 / 100000 + 2 - n)).isSome := by
    rw [List.findSome?_isSome_iff]
    exact ⟨23, by decide, isSome_finest h rfl⟩
  obtain ⟨d, hd⟩ := Option.isSome_iff_exists.1 hsome
  rw [hd, Option.getD_some]
  obtain ⟨n, _, hn⟩ := List.exists_of_findSome?_eq_some hd
  exact has_of_onGrid? hden hn

/-- Doubles whose shortest decimals have the same value are the same. -/
theorem eq_of_shortest_eq {c c' : ℕ} {e e' : ℤ} (h : Canonical c e) (h' : Canonical c' e')
    (heq : (shortest c e).value = (shortest c' e').value) : c = c' ∧ e = e' :=
  eq_of_mem_intervals h h' (mem_interval_shortest h) (heq ▸ mem_interval_shortest h')

end Decimal

end StarQuery
