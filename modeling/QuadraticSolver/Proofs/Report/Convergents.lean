import QuadraticSolver.Proofs.Report.Turn

/-!
# The search against the exact expansion

The search for a number near `p / q` computes with rounded remainders, and beside
it runs Euclid's algorithm on `p` and `q`. `Search.Follows` says how the two stand
to one another: `p` and `q` are the combination of the last two convergents with
the exact remainder `dividend / divisor`, and with the rounded remainder the same
combination misses `p / q` by the rounding of the number and a few roundings
for each turn.

This is an error on the side of the number, so it is not multiplied from turn to
turn. As `q` is small, what it comes to on the side of the remainder is a small
part of `1 / divisor` (`Follows.abs_mul_sub_le`), and the integer part is the
exact one as long as the exact remainder is no integer (`Follows.floor_eq`).
-/

namespace QuadraticSolver.Fraction

open Binary64

/-! ## Combinations of two convergents -/

section Combinations

variable {h k h' k' f g : ℚ}

/-- Between neighbouring fractions a weight counts for no more than itself. -/
theorem abs_mediant_sub_le (hdet : |h * k' - h' * k| = 1) (hk : 0 ≤ k) (hk' : 1 ≤ k') (hf : 0 ≤ f)
    (hg : 0 ≤ g) :
    |(h' + g * h) / (k' + g * k) - (h' + f * h) / (k' + f * k)| ≤ |g - f| := by
  have hG : 1 ≤ k' + g * k := by linarith [mul_nonneg hg hk]
  have hF : 1 ≤ k' + f * k := by linarith [mul_nonneg hf hk]
  have hdiff : (h' + g * h) / (k' + g * k) - (h' + f * h) / (k' + f * k) =
      (g - f) * (h * k' - h' * k) / ((k' + g * k) * (k' + f * k)) := by
    rw [div_sub_div _ _ (by linarith) (by linarith)]
    ring
  have hone : 1 ≤ (k' + g * k) * (k' + f * k) := one_le_mul_of_one_le_of_one_le hG hF
  rw [hdiff, abs_div, abs_mul, hdet, mul_one, abs_of_pos (zero_lt_one.trans_le hone)]
  exact div_le_self (abs_nonneg _) hone

end Combinations

/-- The seventeenth Fibonacci number, 1597, is beyond the limit on denominators. -/
theorem le_of_fib_le {n : ℕ} (h : Nat.fib n ≤ 1000) : n ≤ 16 := by
  by_contra hlt
  have hmono : Nat.fib 17 ≤ Nat.fib n := Nat.fib_mono (by omega)
  have hvalue : Nat.fib 17 = 1597 := by decide
  omega

/-! ## Following the exact expansion -/

/-- The value of the last two convergents combined with the remainder. -/
def Search.value (s : Search) : ℚ :=
  (s.remainder.toRat * s.num + s.previousNum) / (s.remainder.toRat * s.den + s.previousDen)

/-- A fraction that the search is after: in lowest terms, with a denominator and a size within the
limits. -/
structure Target (p q : ℤ) : Prop where
  coprime : IsCoprime p q
  pos : 0 < q
  le : q ≤ 1000
  abs_le : |p| ≤ 10 ^ 9 * q

/-- The search stands beside Euclid's algorithm on the target, after so many turns. -/
structure Search.Follows (p q : ℤ) (turns : ℕ) (s : Search) (dividend divisor : ℤ) : Prop where
  numerator : dividend * s.num + divisor * s.previousNum = p
  denominator : dividend * s.den + divisor * s.previousDen = q
  determinant : |s.num * s.previousDen - s.previousNum * s.den| = 1
  den_nonneg : 0 ≤ s.den
  previousDen_nonneg : 0 ≤ s.previousDen
  divisor_pos : 0 < divisor
  divisor_le : divisor ≤ 1000
  dividend_le : |dividend| ≤ 2 ^ 41
  order : s.den = 0 ∧ s.previousDen = 1 ∧ 1 < divisor ∨ 0 < s.den ∧ divisor < dividend
  fib_le : (Nat.fib turns : ℤ) ≤ s.den
  fib_succ_le : (Nat.fib (turns + 1) : ℤ) ≤ s.den + s.previousDen
  finite : s.remainder.isFinite = true
  remainder_ge : s.den = 0 ∨ 1 ≤ s.remainder.toRat
  near : |s.value - p / q| ≤ |(p : ℚ) / q| / 2 ^ 53 + (3 * turns + 1) / 2 ^ 53

section Follows

variable {p q dividend divisor : ℤ} {turns : ℕ} {s : Search}

theorem Target.abs_div_le (ht : Target p q) : |(p : ℚ) / q| ≤ 10 ^ 9 := by
  have hpos : (0 : ℚ) < q := by exact_mod_cast ht.pos
  rw [abs_div, abs_of_pos hpos, div_le_iff₀ hpos]
  exact_mod_cast ht.abs_le

/-- A fraction near the target has a numerator of ordinary size. -/
theorem Target.abs_num_le (ht : Target p q) {h k m : ℤ} (hk : 0 ≤ k) (hk' : k ≤ 1000)
    (hm : |q * h - p * k| ≤ m) : |h| ≤ 10 ^ 12 + m := by
  have hq := ht.pos
  have hm0 : 0 ≤ m := (abs_nonneg _).trans hm
  have hpk : |p * k| ≤ 10 ^ 12 * q := by
    rw [abs_mul, abs_of_nonneg hk]
    calc |p| * k ≤ 10 ^ 9 * q * 1000 := mul_le_mul ht.abs_le hk' hk (by positivity)
      _ = 10 ^ 12 * q := by ring
  have hqh : |q * h| ≤ 10 ^ 12 * q + m := by
    have := abs_add_le (q * h - p * k) (p * k)
    rw [sub_add_cancel] at this
    linarith
  rw [abs_mul, abs_of_pos hq] at hqh
  have hqm : m ≤ q * m := le_mul_of_one_le_left hm0 hq
  refine le_of_mul_le_mul_left (hqh.trans ?_) hq
  linarith

namespace Search.Follows

theorem den_add_previousDen_le (h : Follows p q turns s dividend divisor) :
    s.den + s.previousDen ≤ q := by
  have hdivisor := h.divisor_pos
  rcases h.order with ⟨hden, hprevious, -⟩ | ⟨hden, hlt⟩
  · have := h.denominator
    rw [hden, hprevious] at this ⊢
    linarith
  · calc s.den + s.previousDen ≤ dividend * s.den + divisor * s.previousDen :=
          add_le_add (le_mul_of_one_le_left h.den_nonneg (by omega))
            (le_mul_of_one_le_left h.previousDen_nonneg hdivisor)
      _ = q := h.denominator

/-- Denominators grow as the Fibonacci numbers, so there are few turns. -/
theorem turns_le (ht : Target p q) (h : Follows p q turns s dividend divisor) : turns ≤ 15 := by
  have hfib := (h.fib_succ_le.trans h.den_add_previousDen_le).trans ht.le
  exact Nat.le_of_succ_le_succ (le_of_fib_le (by exact_mod_cast hfib))

theorem denominator_pos (h : Follows p q turns s dividend divisor) :
    0 < s.remainder.toRat * s.den + s.previousDen := by
  have hprevious : (0 : ℚ) ≤ s.previousDen := by exact_mod_cast h.previousDen_nonneg
  rcases h.order with ⟨hden, hprevious, -⟩ | ⟨hden, -⟩
  · rw [hden, hprevious]
    norm_num
  · have hone := h.remainder_ge.resolve_left hden.ne'
    have hden' : (0 : ℚ) < s.den := by exact_mod_cast hden
    linarith [mul_pos (zero_lt_one.trans_le hone) hden']

/-- The numerators of both convergents are of ordinary size. -/
theorem abs_num_le (ht : Target p q) (h : Follows p q turns s dividend divisor) :
    |s.num| ≤ 2 ^ 42 ∧ |s.previousNum| ≤ 2 ^ 42 := by
  have hle := h.den_add_previousDen_le
  have hq := ht.le
  have hden := h.den_nonneg
  have hprevious := h.previousDen_nonneg
  have hnum : |q * s.num - p * s.den| ≤ divisor := by
    have heq : q * s.num - p * s.den =
        divisor * (s.num * s.previousDen - s.previousNum * s.den) := by
      rw [← h.numerator, ← h.denominator]
      ring
    rw [heq, abs_mul, h.determinant, mul_one, abs_of_pos h.divisor_pos]
  have hpreviousNum : |q * s.previousNum - p * s.previousDen| ≤ 2 ^ 41 := by
    have heq : q * s.previousNum - p * s.previousDen =
        dividend * (s.previousNum * s.den - s.num * s.previousDen) := by
      rw [← h.numerator, ← h.denominator]
      ring
    rw [heq, abs_mul, abs_sub_comm, h.determinant, mul_one]
    exact h.dividend_le
  have hdivisor := h.divisor_le
  constructor
  · exact (ht.abs_num_le hden (by omega) hnum).trans (by omega)
  · exact (ht.abs_num_le hprevious (by omega) hpreviousNum).trans (by norm_num)

/-- The error on the side of the number is small beside the square of the denominator. -/
theorem abs_value_sub_mul_sq_le (ht : Target p q) (h : Follows p q turns s dividend divisor) :
    |s.value - p / q| * q ^ 2 ≤ 1 / 8 := by
  have hq : (0 : ℚ) < q := by exact_mod_cast ht.pos
  have hq' : (q : ℚ) ≤ 1000 := by exact_mod_cast ht.le
  have hturns : (turns : ℚ) ≤ 15 := by exact_mod_cast h.turns_le ht
  have herror : |s.value - p / q| ≤ (10 ^ 9 + 46) / 2 ^ 53 := by
    have hnear := h.near
    have hsize := ht.abs_div_le
    generalize |(p : ℚ) / q| = size at hnear hsize
    linarith
  calc |s.value - p / q| * q ^ 2 ≤ (10 ^ 9 + 46) / 2 ^ 53 * 1000 ^ 2 :=
        mul_le_mul herror (pow_le_pow_left₀ hq.le hq' 2) (by positivity) (by positivity)
    _ ≤ 1 / 8 := by norm_num

/-- The error on the side of the remainder is the one on the side of the number times both
denominators. -/
theorem abs_mul_sub_eq (ht : Target p q) (h : Follows p q turns s dividend divisor) :
    |s.remainder.toRat * divisor - dividend| =
      |s.value - p / q| * ((s.remainder.toRat * s.den + s.previousDen) * q) := by
  have hq : (0 : ℚ) < q := by exact_mod_cast ht.pos
  have hK := h.denominator_pos
  have hnumerator : (dividend * s.num + divisor * s.previousNum : ℚ) = p := by
    exact_mod_cast h.numerator
  have hdenominator : (dividend * s.den + divisor * s.previousDen : ℚ) = q := by
    exact_mod_cast h.denominator
  have hdet : |(s.num * s.previousDen - s.previousNum * s.den : ℚ)| = 1 := by
    exact_mod_cast h.determinant
  have hvalue : s.value - p / q =
      (s.remainder.toRat * divisor - dividend) *
        (s.num * s.previousDen - s.previousNum * s.den) /
          ((s.remainder.toRat * s.den + s.previousDen) * q) := by
    rw [value, div_sub_div _ _ hK.ne' hq.ne', ← hnumerator, ← hdenominator]
    ring
  rw [hvalue, abs_div, abs_mul, hdet, mul_one, abs_of_pos (mul_pos hK hq),
    div_mul_cancel₀ _ (mul_pos hK hq).ne']

/-- **The rounded remainder is the exact one** up to a seventh of a `divisor`-th part. -/
theorem abs_mul_sub_le (ht : Target p q) (h : Follows p q turns s dividend divisor) :
    |s.remainder.toRat * divisor - dividend| ≤ 1 / 7 := by
  have hA : (1 : ℚ) ≤ divisor := by exact_mod_cast h.divisor_pos
  have hdenominator : (dividend * s.den + divisor * s.previousDen : ℚ) = q := by
    exact_mod_cast h.denominator
  have hden : (0 : ℚ) ≤ s.den := by exact_mod_cast h.den_nonneg
  have hdenq : (s.den : ℚ) ≤ q := by
    have := h.den_add_previousDen_le
    have := h.previousDen_nonneg
    exact_mod_cast (by omega : s.den ≤ q)
  have hq : (0 : ℚ) < q := by exact_mod_cast ht.pos
  have hweight : divisor * (s.remainder.toRat * s.den + s.previousDen) =
      (s.remainder.toRat * divisor - dividend) * s.den + q := by
    rw [← hdenominator]
    ring
  -- the denominator itself depends on the error, so the error bounds itself
  have he : |s.remainder.toRat * divisor - dividend| ≤
      (|s.remainder.toRat * divisor - dividend| + 1) * (|s.value - p / q| * q ^ 2) := by
    calc |s.remainder.toRat * divisor - dividend|
        ≤ divisor * |s.remainder.toRat * divisor - dividend| :=
          le_mul_of_one_le_left (abs_nonneg _) hA
      _ = |s.value - p / q| * q * (divisor * (s.remainder.toRat * s.den + s.previousDen)) := by
        rw [h.abs_mul_sub_eq ht]
        ring
      _ ≤ |s.value - p / q| * q * (|s.remainder.toRat * divisor - dividend| * q + q) := by
        refine mul_le_mul_of_nonneg_left ?_ (by positivity)
        rw [hweight]
        exact add_le_add_left ((mul_le_mul_of_nonneg_right (le_abs_self _) hden).trans
          (mul_le_mul_of_nonneg_left hdenq (abs_nonneg _))) _
      _ = _ := by ring
  have hfinal := he.trans
    (mul_le_mul_of_nonneg_left (h.abs_value_sub_mul_sq_le ht) (by positivity))
  linarith

/-- **The integer part is the exact one** where the exact remainder is no integer, and enough is
left for another turn. -/
theorem floor_eq (ht : Target p q) (h : Follows p q turns s dividend divisor) {n r : ℤ}
    (hdivision : dividend = n * divisor + r) (hr : 0 < r) (hr' : r < divisor) :
    ⌊s.remainder.toRat⌋ = n ∧ 6 / 7 ≤ Int.fract s.remainder.toRat * divisor := by
  have hnear := abs_le.mp (h.abs_mul_sub_le ht)
  have hdivisor : (0 : ℚ) < divisor := by exact_mod_cast h.divisor_pos
  have hdivision' : (dividend : ℚ) = n * divisor + r := by exact_mod_cast hdivision
  have hr1 : (1 : ℚ) ≤ r := by exact_mod_cast hr
  have hr2 : (r : ℚ) + 1 ≤ divisor := by exact_mod_cast hr'
  have hfloor : ⌊s.remainder.toRat⌋ = n := by
    rw [Int.floor_eq_iff]
    constructor
    · refine le_of_mul_le_mul_right ?_ hdivisor
      linarith [hnear.1]
    · refine lt_of_mul_lt_mul_right ?_ hdivisor.le
      rw [add_mul]
      linarith [hnear.2]
  refine ⟨hfloor, ?_⟩
  rw [Int.fract, hfloor, sub_mul]
  linarith [hnear.1]

/-- The next convergent misses the target by what is left of the dividend. -/
theorem abs_cross (h : Follows p q turns s dividend divisor) (n : ℤ) :
    |q * s.nextNum n - p * s.nextDen n| = |dividend - n * divisor| := by
  have heq : q * s.nextNum n - p * s.nextDen n =
      (dividend - n * divisor) * (s.previousNum * s.den - s.num * s.previousDen) := by
    rw [nextNum, nextDen, ← h.numerator, ← h.denominator]
    ring
  rw [heq, abs_mul, abs_sub_comm (s.previousNum * s.den), h.determinant, mul_one]

/-- An integer part that leaves little of the dividend is of ordinary size. -/
theorem abs_whole_le (h : Follows p q turns s dividend divisor) {n : ℤ}
    (hcross : |dividend - n * divisor| ≤ 1000) : |n| ≤ 2 ^ 53 := by
  have hproduct : |n * divisor| ≤ 2 ^ 53 := by
    have hsub := abs_sub dividend (dividend - n * divisor)
    rw [sub_sub_cancel] at hsub
    linarith [h.dividend_le]
  rw [abs_mul, abs_of_pos h.divisor_pos] at hproduct
  exact (le_mul_of_one_le_right (abs_nonneg n) h.divisor_pos).trans hproduct

/-- **A turn beside the exact expansion** is computed on words, and its denominator is within the
limit. -/
theorem turn_eq (ht : Target p q) (h : Follows p q turns s dividend divisor) {x : Binary64} {n : ℤ}
    (hfloor : ⌊s.remainder.toRat⌋ = n) (hnonneg : 0 ≤ s.nextDen n) (hle : s.nextDen n ≤ q)
    (hcross : |dividend - n * divisor| ≤ 1000) :
    s.turn .word x =
      if isClose x (.ofInt (s.nextNum n) / .ofInt (s.nextDen n)) then
        .found (s.nextNum n) (s.nextDen n)
      else if s.left.le leastRemainder then .refused
      else .next (s.advance n) := by
  have hq := ht.le
  have hsize := h.abs_whole_le hcross
  have hnum := (h.abs_num_le ht).2
  have hprevious : |s.previousDen| ≤ 2 ^ 61 := by
    have hsum := h.den_add_previousDen_le
    have hden := h.den_nonneg
    rw [abs_of_nonneg h.previousDen_nonneg]
    omega
  have hnextNum : |s.nextNum n| ≤ 2 ^ 61 :=
    (ht.abs_num_le hnonneg (by omega) ((h.abs_cross n).trans_le hcross)).trans (by norm_num)
  have hnextDen : |s.nextDen n| ≤ 2 ^ 61 := by
    rw [abs_of_nonneg hnonneg]
    omega
  rw [turn_word h.finite hfloor hsize (hnum.trans (by norm_num)) hprevious hnextNum hnextDen,
    if_neg (by omega)]

/-- Denominators do not decrease. -/
theorem den_add_previousDen_le_nextDen (h : Follows p q turns s dividend divisor) {n r : ℤ}
    (hdivision : dividend = n * divisor + r) (hr' : r < divisor) :
    s.den + s.previousDen ≤ s.nextDen n := by
  rw [nextDen]
  rcases h.order with ⟨hden, -, -⟩ | ⟨hden, hlt⟩
  · rw [hden, mul_zero]
  · have hn : 0 < n := by
      by_contra hneg
      have := mul_nonpos_of_nonpos_of_nonneg (not_lt.mp hneg) h.divisor_pos.le
      omega
    exact Int.add_le_add_right (le_mul_of_one_le_left hden.le hn) _

/-- The rounded remainder of the next turn moves the value by a few roundings only. -/
theorem abs_value_advance_sub_le (h : Follows p q turns s dividend divisor) {n : ℤ}
    (hfloor : ⌊s.remainder.toRat⌋ = n) (hsize : |n| ≤ 2 ^ 53) (hnext : 1 ≤ s.nextDen n)
    (hleft : s.left.le leastRemainder = false) :
    |(s.advance n).value - s.value| ≤ 3 / 2 ^ 53 := by
  obtain ⟨-, hge, hnear⟩ := next_remainder_spec (n := n) h.finite (by rwa [hfloor]) hleft
  have hpos : 0 < (s.advance n).remainder.toRat := zero_lt_one.trans_le hge
  have hsplit : s.remainder.toRat = n + Int.fract s.remainder.toRat := by
    rw [← hfloor]
    exact (Int.floor_add_fract _).symm
  have hvalue : s.value = (s.nextNum n + Int.fract s.remainder.toRat * s.num) /
      (s.nextDen n + Int.fract s.remainder.toRat * s.den) := by
    have hnum : s.remainder.toRat * s.num + s.previousNum =
        s.nextNum n + Int.fract s.remainder.toRat * s.num := by
      rw [nextNum]
      push_cast
      linear_combination s.num * hsplit
    have hden : s.remainder.toRat * s.den + s.previousDen =
        s.nextDen n + Int.fract s.remainder.toRat * s.den := by
      rw [nextDen]
      push_cast
      linear_combination s.den * hsplit
    rw [value, hnum, hden]
  have hvalue' : (s.advance n).value =
      (s.nextNum n + 1 / (s.advance n).remainder.toRat * s.num) /
        (s.nextDen n + 1 / (s.advance n).remainder.toRat * s.den) := by
    rw [value]
    generalize (s.advance n).remainder.toRat = ρ at hpos ⊢
    have hscale : ∀ h h' : ℚ, ρ * (h' + 1 / ρ * h) = ρ * h' + h := by
      intro h h'
      field_simp
    rw [← mul_div_mul_left (s.nextNum n + 1 / ρ * s.num) _ hpos.ne', hscale, hscale]
    rfl
  have hdet : |(s.num * s.nextDen n - s.nextNum n * s.den : ℚ)| = 1 := by
    have hdeterminant := (s.abs_determinant_next n).trans h.determinant
    exact_mod_cast hdeterminant
  rw [hvalue, hvalue']
  refine (abs_mediant_sub_le hdet ?_ ?_ (Int.fract_nonneg _) ?_).trans hnear
  · exact_mod_cast h.den_nonneg
  · exact_mod_cast hnext
  · exact (one_div_pos.mpr hpos).le

/-- **What one turn preserves.** While the exact remainder is no integer, the search follows one
turn of Euclid's algorithm. -/
theorem next (ht : Target p q) (h : Follows p q turns s dividend divisor) {n r : ℤ}
    (hdivision : dividend = n * divisor + r) (hr : 0 < r) (hr' : r < divisor)
    (hleft : s.left.le leastRemainder = false) :
    Follows p q (turns + 1) (s.advance n) divisor r := by
  obtain ⟨hfloor, -⟩ := h.floor_eq ht hdivision hr hr'
  have hnext := h.den_add_previousDen_le_nextDen hdivision hr'
  have hfib := h.fib_succ_le
  have hfibpos : 0 < Nat.fib (turns + 1) := Nat.fib_pos.mpr (Nat.succ_pos _)
  have hdivisor_le := h.divisor_le
  have hcross : |dividend - n * divisor| ≤ 1000 := by
    rw [hdivision, add_sub_cancel_left, abs_of_pos hr]
    omega
  have hsize := h.abs_whole_le hcross
  obtain ⟨hfinite, hge, -⟩ := next_remainder_spec (n := n) h.finite (by rwa [hfloor]) hleft
  have hmove := h.abs_value_advance_sub_le hfloor hsize (by omega) hleft
  exact {
    numerator := by
      rw [← h.numerator, hdivision]
      show divisor * (n * s.num + s.previousNum) + r * s.num = _
      ring
    denominator := by
      rw [← h.denominator, hdivision]
      show divisor * (n * s.den + s.previousDen) + r * s.den = _
      ring
    determinant := by
      show |s.nextNum n * s.den - s.num * s.nextDen n| = 1
      rw [abs_sub_comm, s.abs_determinant_next, h.determinant]
    den_nonneg := by
      show 0 ≤ s.nextDen n
      omega
    previousDen_nonneg := h.den_nonneg
    divisor_pos := hr
    divisor_le := by omega
    dividend_le := by
      rw [abs_of_pos h.divisor_pos]
      omega
    order := by
      right
      show 0 < s.nextDen n ∧ r < divisor
      omega
    fib_le := by
      show (Nat.fib (turns + 1) : ℤ) ≤ s.nextDen n
      omega
    fib_succ_le := by
      show (Nat.fib (turns + 1 + 1) : ℤ) ≤ s.nextDen n + s.den
      have hfib' := h.fib_le
      rw [Nat.fib_add_two]
      push_cast
      omega
    finite := hfinite
    remainder_ge := Or.inr hge
    near := by
      have htriangle := abs_sub_le (s.advance n).value s.value ((p : ℚ) / q)
      have hnear := h.near
      push_cast
      linarith }

end Search.Follows

end Follows

end QuadraticSolver.Fraction
