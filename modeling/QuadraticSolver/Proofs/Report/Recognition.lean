import QuadraticSolver.Proofs.Binary64.Moderate
import QuadraticSolver.Proofs.Report.Convergents

/-!
# Which fraction is recognised

The number nearest to a fraction `p / q` within the limits is always recognised
as a fraction. A convergent is not taken before the exact remainder is an
integer (`Target.mul_le_of_isClose` against the bound on the denominator); then
the rounded remainder is at that integer or just below it. At the integer the
convergent is `p / q`. Just below it the convergent is the neighbour of `p / q`
with the smaller denominator, and the judgement may take it: two neighbours with
denominators near a thousand are nearer to one another than the allowance, when
they are greater than about `5 · 10 ^ 8`.
-/

namespace QuadraticSolver.Fraction

open Binary64

/-! ## Distances -/

section Distances

variable {p q a b : ℤ} {x : Binary64}

/-- The number nearest to a value of ordinary size is near it, and of ordinary size. -/
theorem spec_of_isNearest {r : ℚ} (h : x.IsNearest r) (hr : |r| ≤ 2 ^ 60) :
    x.IsNear r ∧ |x.toRat| ≤ 2 ^ 100 := by
  have hnear := h.isNear (hr.trans (by norm_num))
  exact ⟨hnear, hnear.abs_le.trans (by linarith)⟩

/-- The quotient that the judgement compares with. -/
theorem isNearest_quotient (ha : |a| ≤ 2 ^ 53) (hb : 0 < b) (hb' : b ≤ 1000) :
    (ofInt a / ofInt b : Binary64).IsNearest ((a : ℚ) / b) ∧ |(a : ℚ) / b| ≤ 2 ^ 60 := by
  have hbq : (0 : ℚ) < b := by exact_mod_cast hb
  have hsize : |(a : ℚ) / b| ≤ 2 ^ 60 := by
    have haq : |(a : ℚ)| ≤ 2 ^ 53 := by exact_mod_cast ha
    have hone : (1 : ℚ) ≤ |(b : ℚ)| := by
      rw [abs_of_pos hbq]
      exact_mod_cast hb
    rw [abs_div]
    exact (div_le_self (abs_nonneg _) hone).trans (haq.trans (by norm_num))
  have hb53 : |b| ≤ 2 ^ 53 := by
    rw [abs_of_pos hb]
    omega
  have hA := (isInteger_ofInt a).toRat_eq ha
  have hB := (isInteger_ofInt b).toRat_eq hb53
  obtain ⟨z, hz⟩ := exists_div_eq ((isInteger_ofInt a).isFinite (abs_le_two_pow_60 ha))
    ((isInteger_ofInt b).isFinite (abs_le_two_pow_60 hb53)) (by rw [hB]; exact hbq.ne')
  rw [hA, hB] at hz
  rw [hz]
  exact ⟨isNearest_round (isFinite_round (hsize.trans (by norm_num))), hsize⟩

theorem Target.spec (ht : Target p q) (hx : x.IsNearest ((p : ℚ) / q)) :
    x.IsNear ((p : ℚ) / q) ∧ |x.toRat| ≤ 2 ^ 100 :=
  spec_of_isNearest hx (ht.abs_div_le.trans (by norm_num))

/-- Two values that are taken for one another, each up to one rounding. -/
theorem distance_le {X Y v c h : ℚ} (hh : h ≤ 1 / 2 ^ 100)
    (hX : |X - v| ≤ |v| / 2 ^ 53 + h) (hY : |Y - c| ≤ |c| / 2 ^ 53 + h)
    (hclose : |X - Y| * (1 - 1 / 2 ^ 53) ≤
      max |X| |Y| * (1 / 2 ^ 49 * (1 + 1 / 2 ^ 53)) + 1 / 2 ^ 99) :
    |c - v| * 500399900000000 ≤ |v| + 1 / 2 ^ 40 := by
  have hc : |c| ≤ |v| + |c - v| := by
    have := abs_add_le v (c - v)
    rwa [add_sub_cancel] at this
  have hdistance : |c - v| ≤ |Y - c| + |X - Y| + |X - v| := by
    have hchain := (abs_sub_le c Y v).trans (add_le_add_right (abs_sub_le Y X v) _)
    rw [abs_sub_comm c Y, abs_sub_comm Y X] at hchain
    linarith
  have hXv : |X| ≤ |v| + |X - v| := by
    have := abs_add_le v (X - v)
    rwa [add_sub_cancel] at this
  have hYc : |Y| ≤ |c| + |Y - c| := by
    have := abs_add_le c (Y - c)
    rwa [add_sub_cancel] at this
  have hv := abs_nonneg v
  have hd := abs_nonneg (c - v)
  have hmax : max |X| |Y| ≤ (|v| + |c - v|) * (1 + 1 / 2 ^ 53) + h := by
    refine max_le ?_ ?_ <;> linarith
  generalize max |X| |Y| = M at hmax hclose
  generalize |X - Y| = D at hdistance hclose
  generalize |X - v| = dX at *
  generalize |Y - c| = dY at *
  generalize |c - v| = d at *
  generalize |v| = w at *
  generalize |c| = u at *
  norm_num at hmax hclose hX hY hh ⊢
  linarith

/-- The distance of two fractions. -/
theorem abs_div_sub_div (hq : 0 < q) (hb : 0 < b) :
    |(a : ℚ) / b - (p : ℚ) / q| * (q * b) = |(q : ℚ) * a - p * b| := by
  have hq' : (0 : ℚ) < q := by exact_mod_cast hq
  have hb' : (0 : ℚ) < b := by exact_mod_cast hb
  have hback : (q * a - p * b : ℚ) = ((a : ℚ) / b - (p : ℚ) / q) * (q * b) := by
    field_simp
  rw [hback, abs_mul, abs_of_pos (mul_pos hq' hb')]

/-- **A fraction that is taken for the target** is the target, or its terms are great: `5.003995e14`
is little below `2 ^ 53 / 18`, sixteen roundings for the allowance and one for either number. -/
theorem Target.mul_le_of_isClose (ht : Target p q) (hx : x.IsNearest ((p : ℚ) / q))
    (ha : |a| ≤ 2 ^ 53) (hb : 0 < b) (hb' : b ≤ 1000)
    (h : isClose x (ofInt a / ofInt b) = true) :
    |q * a - p * b| * 500399500000000 ≤ |p| * b := by
  have hq : (0 : ℚ) < q := by exact_mod_cast ht.pos
  have hbq : (0 : ℚ) < b := by exact_mod_cast hb
  obtain ⟨hnearest, hsize⟩ := isNearest_quotient ha hb hb'
  obtain ⟨hX, hX'⟩ := ht.spec hx
  obtain ⟨hY, hY'⟩ := spec_of_isNearest hnearest hsize
  have hbound := distance_le halfUnit_le hX hY
    (abs_sub_le_of_isClose hx.finite hnearest.finite hX' hY' h)
  have hvalue : |(p : ℚ) / q| * (q * b) = |(p : ℚ)| * b := by
    rw [abs_div, abs_of_pos hq, ← mul_assoc, div_mul_cancel₀ _ hq.ne']
  have hqb : (q * b : ℚ) ≤ 2 ^ 20 := by
    have hq' : (q : ℚ) ≤ 1000 := by exact_mod_cast ht.le
    have hb1000 : (b : ℚ) ≤ 1000 := by exact_mod_cast hb'
    calc (q * b : ℚ) ≤ 1000 * 1000 := mul_le_mul hq' hb1000 hbq.le (by norm_num)
      _ ≤ 2 ^ 20 := by norm_num
  have hscaled := mul_le_mul_of_nonneg_right hbound (mul_pos hq hbq).le
  rw [mul_right_comm, abs_div_sub_div ht.pos hb, add_mul, hvalue] at hscaled
  have hle : |q * a - p * b| * 500399900000000 ≤ |p| * b + 1 := by
    have hrat : |(q : ℚ) * a - p * b| * 500399900000000 ≤ |(p : ℚ)| * b + 1 := by linarith
    exact_mod_cast hrat
  rcases (abs_nonneg (q * a - p * b)).eq_or_lt with hzero | hpos
  · rw [← hzero, zero_mul]
    positivity
  · omega

/-- **The target is taken.** -/
theorem Target.isClose (ht : Target p q) (hx : x.IsNearest ((p : ℚ) / q)) :
    isClose x (ofInt p / ofInt q) = true := by
  have hq := ht.pos
  have hp : |p| ≤ 2 ^ 53 := by
    have := ht.abs_le
    have := ht.le
    omega
  obtain ⟨hnearest, hsize⟩ := isNearest_quotient hp ht.pos ht.le
  obtain ⟨hX, hX'⟩ := ht.spec hx
  obtain ⟨hY, hY'⟩ := spec_of_isNearest hnearest hsize
  refine isClose_of_abs_sub_le hx.finite hnearest.finite hX' hY' ?_
  generalize (ofInt p / ofInt q : Binary64) = y at hnearest hY ⊢
  by_cases hzero : p = 0
  · -- nothing is near zero in the measure of its own size, but zero is found exactly
    have hvalue : (p : ℚ) / q = (zero false).toRat := by
      rw [hzero, Int.cast_zero, zero_div]
      exact (toRat_of_isZero (by decide)).symm
    rw [hvalue] at hx hnearest
    rw [hx.toRat_eq rfl, hnearest.toRat_eq rfl, sub_self, abs_zero]
    positivity
  · have hlow : (1 / 1000 : ℚ) ≤ |(p : ℚ) / q| := by
      have hq' : (0 : ℚ) < q := by exact_mod_cast ht.pos
      have hle : (q : ℚ) ≤ 1000 := by exact_mod_cast ht.le
      have hone : (1 : ℚ) ≤ |(p : ℚ)| := by exact_mod_cast Int.one_le_abs hzero
      rw [abs_div, abs_of_pos hq', le_div_iff₀ hq']
      linarith
    have hmax := le_max_left |x.toRat| |y.toRat|
    have hxv : |(p : ℚ) / q| ≤ |x.toRat| + |x.toRat - (p : ℚ) / q| := by
      have := abs_sub_abs_le_abs_sub ((p : ℚ) / q) x.toRat
      rw [abs_sub_comm] at this
      linarith
    have htriangle := abs_sub_le x.toRat ((p : ℚ) / q) y.toRat
    rw [abs_sub_comm ((p : ℚ) / q) y.toRat] at htriangle
    have hhalf := halfUnit_le
    generalize max |x.toRat| |y.toRat| = M at hmax ⊢
    have hX : |x.toRat - (p : ℚ) / q| ≤ _ := hX
    have hY : |y.toRat - (p : ℚ) / q| ≤ _ := hY
    generalize |(p : ℚ) / q| = v at *
    generalize |x.toRat - (p : ℚ) / q| = dx at *
    generalize |y.toRat - (p : ℚ) / q| = dy at *
    generalize |x.toRat - y.toRat| = d at *
    generalize |x.toRat| = w at *
    norm_num at hX hY hhalf ⊢
    linarith

end Distances

/-! ## The search -/

/-- What the search for a number near the target may find: the target, or the neighbour with a
smaller denominator that the judgement takes for it. -/
def Finds (x : Binary64) (p q a b : ℤ) : Prop :=
  a = p ∧ b = q ∨
    |q * a - p * b| = 1 ∧ 0 < b ∧ b < q ∧ isClose x (ofInt a / ofInt b) = true

section Search

variable {p q dividend divisor : ℤ} {turns : ℕ} {s : Search} {x : Binary64}

/-- Where a good part of one is left, the search goes on. -/
theorem left_le_eq_false (hfinite : s.remainder.isFinite = true)
    (hsize : |⌊s.remainder.toRat⌋| ≤ 2 ^ 53) (h : 1 / 2 ^ 20 ≤ Int.fract s.remainder.toRat) :
    s.left.le leastRemainder = false := by
  obtain ⟨hleft, -, hnear⟩ := left_spec hfinite hsize
  obtain ⟨hleast, hvalue⟩ := toRat_leastRemainder
  rw [← Bool.not_eq_true, le_iff hleft hleast, hvalue, not_le]
  have hhalf := halfUnit_le
  have hlow := (abs_le.mp hnear).1
  norm_num at hlow hhalf h ⊢
  linarith

theorem floor_eq_one {ρ : ℚ} (h : 1 ≤ ρ) (h' : 1 / 2 < 1 / ρ) : ⌊ρ⌋ = 1 := by
  rw [Int.floor_eq_iff]
  have hlt : ρ < 2 := lt_of_one_div_lt_one_div zero_lt_two h'
  exact ⟨by exact_mod_cast h, by push_cast; linarith⟩

namespace Search.Follows

/-- While the divisor is not one, the exact remainder is no integer. -/
theorem emod_pos (ht : Target p q) (h : Follows p q turns s dividend divisor)
    (hdivisor : 1 < divisor) : 0 < dividend % divisor := by
  refine (Int.emod_nonneg _ h.divisor_pos.ne').lt_of_ne fun hzero => ?_
  have hdvd : divisor ∣ dividend := Int.dvd_of_emod_eq_zero hzero.symm
  have hp : divisor ∣ p := by
    rw [← h.numerator]
    exact dvd_add (hdvd.mul_right _) (dvd_mul_right _ _)
  have hq : divisor ∣ q := by
    rw [← h.denominator]
    exact dvd_add (hdvd.mul_right _) (dvd_mul_right _ _)
  have hunit := Int.isUnit_iff.mp (ht.coprime.isUnit_of_dvd' hp hq)
  omega

/-- **No convergent is taken early**: while the exact remainder is no
integer, the search goes on. -/
theorem turn_of_one_lt (ht : Target p q) (hx : x.IsNearest ((p : ℚ) / q))
    (h : Follows p q turns s dividend divisor) (hdivisor : 1 < divisor) :
    ∃ s', s.turn .word x = .next s' ∧
      Follows p q (turns + 1) s' divisor (dividend % divisor) := by
  have hr := h.emod_pos ht hdivisor
  have hr' : dividend % divisor < divisor := Int.emod_lt_of_pos _ h.divisor_pos
  have hdivision : dividend = dividend / divisor * divisor + dividend % divisor := by
    rw [mul_comm]
    exact (Int.mul_ediv_add_emod dividend divisor).symm
  obtain ⟨hfloor, hfract⟩ := h.floor_eq ht hdivision hr hr'
  have hnext := h.den_add_previousDen_le_nextDen hdivision hr'
  have hfib := h.fib_succ_le
  have hfibpos : 0 < Nat.fib (turns + 1) := Nat.fib_pos.mpr (Nat.succ_pos _)
  have hcross : |dividend - dividend / divisor * divisor| = dividend % divisor := by
    have hsub : dividend - dividend / divisor * divisor = dividend % divisor := by omega
    rw [hsub, abs_of_pos hr]
  have hdivisor_le := h.divisor_le
  have hsize := h.abs_whole_le (n := dividend / divisor) (by omega)
  have hleft : s.left.le leastRemainder = false := by
    refine left_le_eq_false h.finite (by rwa [hfloor]) ?_
    have hle : (divisor : ℚ) ≤ 1000 := by exact_mod_cast hdivisor_le
    have hmul := mul_le_mul_of_nonneg_left hle (Int.fract_nonneg s.remainder.toRat)
    norm_num
    linarith
  have hfollows := h.next ht hdivision hr hr' hleft
  -- twice the new denominator is within the limit, so the convergent is too far away
  have hhalf : 2 * s.nextDen (dividend / divisor) ≤ q := by
    calc 2 * s.nextDen (dividend / divisor)
        ≤ divisor * s.nextDen (dividend / divisor) :=
          mul_le_mul_of_nonneg_right (by omega) (by omega)
      _ ≤ divisor * s.nextDen (dividend / divisor) + dividend % divisor * s.den :=
          le_add_of_nonneg_right (mul_nonneg hr.le h.den_nonneg)
      _ = q := hfollows.denominator
  have hq := ht.le
  have hnot : ¬ isClose x (ofInt (s.nextNum (dividend / divisor)) /
      ofInt (s.nextDen (dividend / divisor))) = true := by
    intro hclose
    have hnum : |s.nextNum (dividend / divisor)| ≤ 2 ^ 53 :=
      (hfollows.abs_num_le ht).1.trans (by norm_num)
    have hle := ht.mul_le_of_isClose hx hnum (by omega) (by omega) hclose
    rw [h.abs_cross, hcross] at hle
    have hsmall : |p| * s.nextDen (dividend / divisor) ≤ 10 ^ 12 * 500 :=
      mul_le_mul (ht.abs_le.trans (by omega)) (by omega) (by omega) (by norm_num)
    omega
  refine ⟨_, ?_, hfollows⟩
  rw [h.turn_eq ht hfloor (by omega) (by omega) (by omega), if_neg hnot, hleft,
    if_neg Bool.false_ne_true]

/-- At an integer the next convergent, by what is left of the dividend. -/
theorem nextNum_eq (h : Follows p q turns s dividend 1) (n : ℤ) :
    s.nextNum n = p - (dividend - n) * s.num := by
  rw [Search.nextNum, ← h.numerator]
  ring

theorem nextDen_eq (h : Follows p q turns s dividend 1) (n : ℤ) :
    s.nextDen n = q - (dividend - n) * s.den := by
  rw [Search.nextDen, ← h.denominator]
  ring

/-- The rounded remainder of an integer is there or just below. -/
theorem floor_eq_or (ht : Target p q) (h : Follows p q turns s dividend 1) :
    ⌊s.remainder.toRat⌋ = dividend ∨
      ⌊s.remainder.toRat⌋ = dividend - 1 ∧ 6 / 7 ≤ Int.fract s.remainder.toRat := by
  have hnear := abs_le.mp (h.abs_mul_sub_le ht)
  rw [Int.cast_one, mul_one] at hnear
  by_cases hge : (dividend : ℚ) ≤ s.remainder.toRat
  · left
    rw [Int.floor_eq_iff]
    exact ⟨hge, by linarith [hnear.2]⟩
  · right
    have hfloor : ⌊s.remainder.toRat⌋ = dividend - 1 := by
      rw [Int.floor_eq_iff]
      push_cast
      constructor <;> linarith [hnear.1]
    refine ⟨hfloor, ?_⟩
    rw [Int.fract, hfloor]
    push_cast
    linarith [hnear.1]

/-- At the integer the convergent is the target. -/
theorem turn_of_floor_eq (ht : Target p q) (hx : x.IsNearest ((p : ℚ) / q))
    (h : Follows p q turns s dividend 1) (hfloor : ⌊s.remainder.toRat⌋ = dividend) :
    s.turn .word x = .found p q := by
  have hq := ht.pos
  have hnum := h.nextNum_eq dividend
  have hden := h.nextDen_eq dividend
  rw [sub_self, zero_mul, sub_zero] at hnum hden
  rw [h.turn_eq ht hfloor (by omega) (by omega) (by simp), hnum, hden, if_pos (ht.isClose hx)]

/-- Just below the integer the convergent is the neighbour, and the target comes after it. -/
theorem turn_of_floor_eq_sub_one (ht : Target p q) (hx : x.IsNearest ((p : ℚ) / q))
    (h : Follows p q turns s dividend 1) (hfloor : ⌊s.remainder.toRat⌋ = dividend - 1)
    (hfract : 6 / 7 ≤ Int.fract s.remainder.toRat) :
    (∃ a b, s.turn .word x = .found a b ∧ Finds x p q a b) ∨
      ∃ s', s.turn .word x = .next s' ∧ s'.turn .word x = .found p q := by
  have hq := ht.le
  obtain ⟨hden, hlt⟩ := h.order.resolve_left fun h => absurd h.2.2 (lt_irrefl 1)
  have hone : dividend - (dividend - 1) = 1 := sub_sub_cancel _ _
  have hcross : |dividend - (dividend - 1) * 1| = 1 := by
    rw [mul_one, hone, abs_one]
  have hnextNum : s.nextNum (dividend - 1) = p - s.num := by rw [h.nextNum_eq, hone, one_mul]
  have hnextDen : s.nextDen (dividend - 1) = q - s.den := by rw [h.nextDen_eq, hone, one_mul]
  have hpos : 0 < q - s.den := by
    have htwice : 2 * s.den ≤ dividend * s.den := mul_le_mul_of_nonneg_right hlt hden.le
    have hdenominator := h.denominator
    have hprevious := h.previousDen_nonneg
    omega
  have hturn := h.turn_eq (x := x) ht hfloor (by omega) (by omega) (by omega)
  rw [hnextNum, hnextDen] at hturn
  by_cases hclose : isClose x (ofInt (p - s.num) / ofInt (q - s.den)) = true
  · left
    rw [if_pos hclose] at hturn
    refine ⟨_, _, hturn, Or.inr ⟨?_, hpos, by omega, hclose⟩⟩
    rw [← hnextNum, ← hnextDen, h.abs_cross, hcross]
  · right
    have hsize : |⌊s.remainder.toRat⌋| ≤ 2 ^ 53 := by
      rw [hfloor]
      exact h.abs_whole_le (by omega)
    have hleft := left_le_eq_false h.finite hsize (by linarith)
    rw [if_neg hclose, hleft, if_neg Bool.false_ne_true] at hturn
    refine ⟨_, hturn, ?_⟩
    -- so much is left that its reciprocal is between one and two
    obtain ⟨hfinite, hge, hinverse⟩ :=
      next_remainder_spec (n := dividend - 1) h.finite hsize hleft
    have hfloor' : ⌊(s.advance (dividend - 1)).remainder.toRat⌋ = 1 :=
      floor_eq_one hge (by linarith [(abs_le.mp hinverse).1])
    have hp : (s.advance (dividend - 1)).nextNum 1 = p := by
      show 1 * s.nextNum (dividend - 1) + s.num = p
      omega
    have hq' : (s.advance (dividend - 1)).nextDen 1 = q := by
      show 1 * s.nextDen (dividend - 1) + s.den = q
      omega
    have hlastNum := (h.abs_num_le ht).1
    have hpsize := ht.abs_le
    rw [turn_word hfinite hfloor' (by norm_num) (hlastNum.trans (by norm_num))
      (show |s.den| ≤ 2 ^ 61 by rw [abs_of_pos hden]; omega) (by rw [hp]; omega)
      (by rw [hq', abs_of_pos ht.pos]; omega), hp, hq', if_neg (by omega),
      if_pos (ht.isClose hx)]

/-- **At an integer** the search ends, at once or after one more turn. -/
theorem run_of_divisor_one (ht : Target p q) (hx : x.IsNearest ((p : ℚ) / q))
    (h : Follows p q turns s dividend 1) (k : ℕ) :
    ∃ a b, s.run .word x (k + 2) = .found a b ∧ Finds x p q a b := by
  rcases h.floor_eq_or ht with hfloor | ⟨hfloor, hfract⟩
  · exact ⟨p, q, by rw [Search.run, h.turn_of_floor_eq ht hx hfloor], Or.inl ⟨rfl, rfl⟩⟩
  · rcases h.turn_of_floor_eq_sub_one ht hx hfloor hfract with
      ⟨a, b, hturn, hfinds⟩ | ⟨s', hturn, hturn'⟩
    · exact ⟨a, b, by rw [Search.run, hturn], hfinds⟩
    · refine ⟨p, q, ?_, Or.inl ⟨rfl, rfl⟩⟩
      rw [Search.run, hturn]
      dsimp only
      rw [Search.run, hturn']

/-- **The whole search**, from wherever it stands beside the exact expansion. -/
theorem run (ht : Target p q) (hx : x.IsNearest ((p : ℚ) / q)) :
    ∀ (k : ℕ) {turns : ℕ} {s : Search} {dividend divisor : ℤ},
      Follows p q turns s dividend divisor → turns + k = 32 →
        ∃ a b, s.run .word x k = .found a b ∧ Finds x p q a b
  | 0, turns, _, _, _, h, hk => by
    have := h.turns_le ht
    omega
  | k + 1, turns, s, dividend, divisor, h, hk => by
    by_cases hone : divisor = 1
    · rw [hone] at h
      have hturns := h.turns_le ht
      obtain ⟨j, rfl⟩ : ∃ j, k = j + 1 := ⟨k - 1, by omega⟩
      exact h.run_of_divisor_one ht hx j
    · have hpos := h.divisor_pos
      obtain ⟨s', hturn, h'⟩ := h.turn_of_one_lt ht hx (by omega)
      obtain ⟨a, b, hrun, hfinds⟩ := run ht hx k h' (by omega)
      refine ⟨a, b, ?_, hfinds⟩
      rw [Search.run, hturn]
      exact hrun

end Search.Follows

/-- Before its first turn the search stands at the target itself. -/
theorem follows_start (ht : Target p q) (hx : x.IsNearest ((p : ℚ) / q)) (hq : 1 < q) :
    Search.Follows p q 0 (Search.start x) p q where
  numerator := by
    show p * 1 + q * 0 = p
    ring
  denominator := by
    show p * 0 + q * 1 = q
    ring
  determinant := by
    show |(1 : ℤ) * 1 - 0 * 0| = 1
    decide
  den_nonneg := le_refl 0
  previousDen_nonneg := zero_le_one
  divisor_pos := ht.pos
  divisor_le := ht.le
  dividend_le := by
    have := ht.abs_le
    have := ht.le
    omega
  order := Or.inl ⟨rfl, rfl, hq⟩
  fib_le := le_refl 0
  fib_succ_le := by
    show (Nat.fib 1 : ℤ) ≤ 0 + 1
    decide
  finite := hx.finite
  remainder_ge := Or.inl rfl
  near := by
    have hvalue : (Search.start x).value = x.toRat := by
      show (x.toRat * (1 : ℤ) + (0 : ℤ)) / (x.toRat * (0 : ℤ) + (1 : ℤ)) = x.toRat
      push_cast
      ring
    have hnear : |x.toRat - (p : ℚ) / q| ≤ _ := (ht.spec hx).1
    have hhalf := halfUnit_le
    rw [hvalue]
    norm_num at hhalf hnear ⊢
    linarith

/-- The search for the number of an integer ends with its first turn. -/
theorem run_start_of_eq_one (ht : Target p 1) (hx : x.IsNearest ((p : ℚ) / (1 : ℤ))) (k : ℕ) :
    (Search.start x).run .word x (k + 1) = .found p 1 := by
  have hp := ht.abs_le
  have hvalue : x.toRat = p := by
    have hp53 : |p| ≤ 2 ^ 53 := by omega
    have hofInt := (isInteger_ofInt p).toRat_eq hp53
    rw [Int.cast_one, div_one, ← hofInt] at hx
    rw [hx.toRat_eq ((isInteger_ofInt p).isFinite (abs_le_two_pow_60 hp53)), hofInt]
  have hfloor : ⌊(Search.start x).remainder.toRat⌋ = p := by
    show ⌊x.toRat⌋ = p
    rw [hvalue, Int.floor_intCast]
  have hnum : (Search.start x).nextNum p = p := by
    show p * 1 + 0 = p
    ring
  have hden : (Search.start x).nextDen p = 1 := by
    show p * 0 + 1 = 1
    ring
  have hturn : (Search.start x).turn .word x = .found p 1 := by
    rw [turn_word hx.finite hfloor (by omega) (show |(0 : ℤ)| ≤ 2 ^ 61 by decide)
      (show |(1 : ℤ)| ≤ 2 ^ 61 by decide) (by rw [hnum]; omega) (by rw [hden]; decide), hnum, hden,
      if_neg (by decide), if_pos (ht.isClose hx)]
  rw [Search.run, hturn]

/-- **The search for the number nearest to the target** finds the target or its neighbour. -/
theorem run_start (ht : Target p q) (hx : x.IsNearest ((p : ℚ) / q)) :
    ∃ a b, (Search.start x).run .word x 32 = .found a b ∧ Finds x p q a b := by
  rcases (Int.add_one_le_iff.mpr ht.pos).eq_or_lt with hone | hlt
  · obtain rfl : q = 1 := by omega
    exact ⟨p, 1, run_start_of_eq_one ht hx 31, Or.inl ⟨rfl, rfl⟩⟩
  · exact (follows_start ht hx (by omega)).run ht hx 32 (by omega)

end Search

/-! ## The fraction that is recognised -/

/-- The fraction that is recognised for a number near `p / q`: `p / q` itself, unless its terms are
great and the judgement takes the neighbour with a smaller denominator for it. -/
structure Recognises (x : Binary64) (p q : ℤ) (r : ℚ) : Prop where
  found : simpleFraction? x = some r
  neighbour : r ≠ p / q →
    |q * r.num - p * r.den| = 1 ∧ (r.den : ℤ) < q ∧ isClose x (.ofInt r.num / .ofInt r.den) = true
  exact : |p| * (q - 1) < 5 * 10 ^ 14 → r.num = p ∧ (r.den : ℤ) = q

section Recognition

variable {p q a b : ℤ} {x : Binary64}

/-- A fraction in lowest terms has the terms it is written with. -/
theorem num_den_of_isCoprime (hb : 0 < b) (h : IsCoprime a b) :
    ((a : ℚ) / b).num = a ∧ (((a : ℚ) / b).den : ℤ) = b := by
  have hgcd : Nat.Coprime a.natAbs b.natAbs := Int.isCoprime_iff_gcd_eq_one.mp h
  exact ⟨Rat.num_div_eq_of_coprime hb hgcd, Rat.den_div_eq_of_coprime hb hgcd⟩

/-- Neighbours of a fraction are in lowest terms. -/
theorem isCoprime_of_cross (h : |q * a - p * b| = 1) : IsCoprime a b := by
  rcases (abs_eq zero_le_one).mp h with h | h
  · exact ⟨q, -p, by linarith⟩
  · exact ⟨-q, p, by linarith⟩

/-- A number nearest to the target is within the greatest distance at which fractions are looked
for. -/
theorem abs_le_maxMagnitude (ht : Target p q) (hx : x.IsNearest ((p : ℚ) / q)) :
    maxMagnitude.lt x.abs = false := by
  have hM := toRat_maxMagnitude
  obtain ⟨hlow, hhigh⟩ := abs_le.mp ht.abs_div_le
  rw [← Bool.not_eq_true, lt_iff hM.1 (isFinite_abs_iff.mpr hx.finite), toRat_abs, not_lt, hM.2,
    abs_le]
  -- beyond the limit the limit itself would be nearer
  constructor
  · by_contra hlt
    have hneg : (-maxMagnitude).toRat = -10 ^ 9 := by rw [toRat_neg, hM.2]
    have hle := hx.le _ (isFinite_neg_iff.mpr hM.1)
    rw [hneg] at hle
    linarith [two_mul_le_add_of_abs_sub_le (not_le.mp hlt) hle]
  · by_contra hlt
    have hle := hx.le _ hM.1
    rw [hM.2] at hle
    linarith [add_le_two_mul_of_abs_sub_le (not_le.mp hlt) hle]

/-- **The number nearest to a fraction is recognised** as the fraction, or as the neighbour that the
judgement takes for it. -/
theorem exists_recognises (ht : Target p q) (hx : x.IsNearest ((p : ℚ) / q)) :
    ∃ r, Recognises x p q r := by
  obtain ⟨a, b, hrun, hfinds⟩ := run_start ht hx
  have hfraction : simpleFraction? x = some ((a : ℚ) / b) := by
    unfold simpleFraction?
    rw [hx.finite, abs_le_maxMagnitude ht hx, hrun]
    show some (Rat.divInt a b) = _
    rw [Rat.divInt_eq_div]
  refine ⟨_, hfraction, ?_, ?_⟩
  · intro hne
    rcases hfinds with ⟨rfl, rfl⟩ | ⟨hcross, hb, hlt, hclose⟩
    · exact absurd rfl hne
    · obtain ⟨hnum, hden⟩ := num_den_of_isCoprime hb (isCoprime_of_cross hcross)
      rw [hnum, hden]
      exact ⟨hcross, hlt, hclose⟩
  · intro hsmall
    rcases hfinds with ⟨rfl, rfl⟩ | ⟨hcross, hb, hlt, hclose⟩
    · exact num_den_of_isCoprime ht.pos ht.coprime
    · have hq := ht.le
      have ha := ht.abs_num_le hb.le (by omega) hcross.le
      have hterms := ht.mul_le_of_isClose hx (ha.trans (by norm_num)) hb (by omega) hclose
      have hle : |p| * b ≤ |p| * (q - 1) :=
        mul_le_mul_of_nonneg_left (by omega) (abs_nonneg p)
      omega

end Recognition

end QuadraticSolver.Fraction
