import QuadraticSolver.Proofs.Binary64.Order
import QuadraticSolver.Proofs.Solver.Branch
import QuadraticSolver.Report.Fraction

/-!
# One turn of the search for a fraction

What a turn computes, said of exact values. The integer part is exact
(`floor_spec`), so the next convergent is the exact one as long as its terms
are words (`turn_word`); what is left is rounded twice before the next turn
begins, once as a difference and once as a quotient (`next_remainder_spec`). The
judgement compares two rounded values, each of which is near its exact value
(`isClose_spec`).
-/

namespace QuadraticSolver

/-! ## Maximum, integer part -/

namespace Binary64

section Values

variable {x y : Binary64}

/-- The greater of two finite numbers has the greater value. -/
theorem max_spec (hx : x.isFinite = true) (hy : y.isFinite = true) :
    (x.max y).isFinite = true ∧ (x.max y).toRat = Max.max x.toRat y.toRat := by
  have hnan : x ≠ nan := by
    rintro rfl
    cases hx
  unfold Binary64.max
  rw [if_neg hnan]
  split
  next h => exact ⟨hy, (max_eq_right ((lt_iff hx hy).mp h).le).symm⟩
  next h =>
    rw [lt_iff hx hy, not_lt] at h
    exact ⟨hx, (max_eq_left h).symm⟩

/-- **The integer part is exact.** -/
theorem floor_spec (hx : x.isFinite = true) (h : |⌊x.toRat⌋| ≤ 2 ^ 53) :
    x.floor.isFinite = true ∧ x.floor.toRat = ⌊x.toRat⌋ := by
  obtain ⟨s, m, rfl⟩ := exists_of_isFinite hx
  rw [Int.abs_eq_natAbs] at h
  exact round_int (by exact_mod_cast h)

end Values

end Binary64

namespace Fraction

open Binary64

theorem toRat_leastRemainder :
    leastRemainder.isFinite = true ∧ leastRemainder.toRat = 1 / 2 ^ 52 := by
  decide +kernel

theorem toRat_closeness : closeness.isFinite = true ∧ closeness.toRat = 1 / 2 ^ 49 := by
  decide +kernel

theorem toRat_maxMagnitude : maxMagnitude.isFinite = true ∧ maxMagnitude.toRat = 10 ^ 9 := by
  have hint := round_int (k := 1000000000) (z := false) (by decide)
  exact ⟨hint.1, hint.2.trans (by norm_num)⟩

/-! ## The judgement -/

section Closeness

variable {x y : Binary64}

/-- **What is compared**: the distance and the allowance, each rounded once. -/
theorem isClose_spec (hx : x.isFinite = true) (hy : y.isFinite = true)
    (hx' : |x.toRat| ≤ 2 ^ 100) (hy' : |y.toRat| ≤ 2 ^ 100) :
    ∃ z z', (round z (x.toRat - y.toRat)).isFinite = true ∧
      (round z' (1 / 2 ^ 49 * max |x.toRat| |y.toRat|)).isFinite = true ∧
      (isClose x y = true ↔ |(round z (x.toRat - y.toRat)).toRat| ≤
        (round z' (1 / 2 ^ 49 * max |x.toRat| |y.toRat|)).toRat) := by
  obtain ⟨hclose, hcloseness⟩ := toRat_closeness
  obtain ⟨hmax, hvalue⟩ := max_spec (isFinite_abs_iff.mpr hx) (isFinite_abs_iff.mpr hy)
  rw [toRat_abs, toRat_abs] at hvalue
  obtain ⟨z, hdistance⟩ := exists_sub_eq hx hy
  obtain ⟨z', hallowance⟩ := exists_mul_eq hclose hmax
  rw [hcloseness, hvalue] at hallowance
  have hdistance_finite : (round z (x.toRat - y.toRat)).isFinite = true :=
    isFinite_round ((abs_sub _ _).trans (by linarith))
  have hallowance_finite : (round z' (1 / 2 ^ 49 * max |x.toRat| |y.toRat|)).isFinite = true := by
    apply isFinite_round
    rw [abs_mul, abs_of_nonneg (le_max_of_le_left (abs_nonneg x.toRat))]
    calc |(1 / 2 ^ 49 : ℚ)| * max |x.toRat| |y.toRat| ≤ 1 * 2 ^ 100 :=
          mul_le_mul (by norm_num) (max_le hx' hy') (le_max_of_le_left (abs_nonneg _)) zero_le_one
      _ ≤ 2 ^ 200 := by norm_num
  refine ⟨z, z', hdistance_finite, hallowance_finite, ?_⟩
  rw [← hdistance] at hdistance_finite ⊢
  rw [← hallowance] at hallowance_finite ⊢
  rw [isClose, le_iff (isFinite_abs_iff.mpr hdistance_finite) hallowance_finite, toRat_abs]

/-- A number within the allowance stands for the other. -/
theorem isClose_of_abs_sub_le (hx : x.isFinite = true) (hy : y.isFinite = true)
    (hx' : |x.toRat| ≤ 2 ^ 100) (hy' : |y.toRat| ≤ 2 ^ 100)
    (h : |x.toRat - y.toRat| ≤ 1 / 2 ^ 49 * max |x.toRat| |y.toRat|) : isClose x y = true := by
  obtain ⟨z, z', hdistance, hallowance, hiff⟩ := isClose_spec hx hy hx' hy'
  rw [hiff]
  obtain ⟨hlow, hhigh⟩ := abs_le.mp h
  rw [abs_le]
  constructor
  · have hopposite := neg_round z' (1 / 2 ^ 49 * max |x.toRat| |y.toRat|)
    rw [← toRat_neg, hopposite]
    refine round_mono ?_ hdistance hlow
    rw [← hopposite]
    exact isFinite_neg_iff.mpr hallowance
  · exact round_mono hdistance hallowance hhigh

/-- A number that stands for another is within the allowance, up to the two roundings. -/
theorem abs_sub_le_of_isClose (hx : x.isFinite = true) (hy : y.isFinite = true)
    (hx' : |x.toRat| ≤ 2 ^ 100) (hy' : |y.toRat| ≤ 2 ^ 100) (h : isClose x y = true) :
    |x.toRat - y.toRat| * (1 - 1 / 2 ^ 53) ≤
      max |x.toRat| |y.toRat| * (1 / 2 ^ 49 * (1 + 1 / 2 ^ 53)) + 1 / 2 ^ 99 := by
  obtain ⟨z, z', hdistance, hallowance, hiff⟩ := isClose_spec hx hy hx' hy'
  have hle := hiff.mp h
  have hM : 0 ≤ max |x.toRat| |y.toRat| := le_max_of_le_left (abs_nonneg _)
  have hd : |(round z (x.toRat - y.toRat)).toRat - (x.toRat - y.toRat)| ≤ _ :=
    isNear_round hdistance
  have ht := (abs_le.mp (isNear_round hallowance)).2
  have hd' := abs_sub_abs_le_abs_sub (x.toRat - y.toRat) (round z (x.toRat - y.toRat)).toRat
  have hhalf := halfUnit_le
  rw [abs_sub_comm (x.toRat - y.toRat)] at hd'
  rw [abs_of_nonneg (mul_nonneg (by positivity) hM)] at ht
  generalize (round z (x.toRat - y.toRat)).toRat = d at hle hd hd'
  generalize (round z' (1 / 2 ^ 49 * max |x.toRat| |y.toRat|)).toRat = t at hle ht
  generalize max |x.toRat| |y.toRat| = M at ht hM ⊢
  generalize |d - (x.toRat - y.toRat)| = error at hd' hd
  generalize |x.toRat - y.toRat| = distance at hd' hd ⊢
  norm_num at hhalf hd ht ⊢
  linarith

end Closeness

/-! ## The next convergent -/

/-- The numerator of the next convergent, for an integer part. -/
def Search.nextNum (s : Search) (n : ℤ) : ℤ :=
  n * s.num + s.previousNum

/-- The denominator of the next convergent, for an integer part. -/
def Search.nextDen (s : Search) (n : ℤ) : ℤ :=
  n * s.den + s.previousDen

/-- The next convergent has with the last one the determinant that the last one has with the one
before it, up to the sign. -/
theorem Search.abs_determinant_next (s : Search) (n : ℤ) :
    |s.num * s.nextDen n - s.nextNum n * s.den| =
      |s.num * s.previousDen - s.previousNum * s.den| := by
  congr 1
  rw [nextNum, nextDen]
  ring

/-- What is left of the remainder when its integer part is taken off. -/
def Search.left (s : Search) : Binary64 :=
  s.remainder - s.remainder.floor

/-- The search after a turn with an integer part. -/
def Search.advance (s : Search) (n : ℤ) : Search :=
  ⟨.ofInt 1 / s.left, s.num, s.nextNum n, s.den, s.nextDen n⟩

theorem checked_word_eq_some_iff {n k : ℤ} :
    Width.word.checked n = some k ↔
      (-9223372036854775808 ≤ n ∧ n ≤ 9223372036854775807) ∧ n = k := by
  show (if _ then some n else none) = some k ↔ _
  rw [Option.ite_none_right_eq_some, Option.some.injEq]

theorem eq_of_checked {w : Width} {n k : ℤ} (h : w.checked n = some k) : k = n := by
  cases w with
  | word => exact (checked_word_eq_some_iff.mp h).2.symm
  | unbounded => exact (Option.some.inj h).symm

theorem eq_of_mulAdd {w : Width} {n a b k : ℤ} (h : w.mulAdd n a b = some k) :
    k = n * a + b ∧ w.checked k = some k := by
  obtain ⟨product, hproduct, hsum⟩ := Option.bind_eq_some_iff.mp h
  obtain rfl := eq_of_checked hproduct
  obtain rfl := eq_of_checked hsum
  exact ⟨rfl, hsum⟩

section Turns

variable {w : Width} {x : Binary64} {s : Search} {n : ℤ}

theorem checked_word (h : |n| ≤ 2 ^ 62) : Width.word.checked n = some n := by
  have hbounds := abs_le.mp h
  exact if_pos (by omega)

theorem saturated_word (h : |n| ≤ 2 ^ 62) : Width.word.saturated n = n := by
  have hbounds := abs_le.mp h
  show max (-9223372036854775808) (min n 9223372036854775807) = n
  omega

/-- A term of a convergent is computed on integers of any width as long as it and the one before the
last are words by far. -/
theorem mulAdd_of_abs_le (w : Width) {m k : ℤ} (hk : |k| ≤ 2 ^ 61) (hsum : |n * m + k| ≤ 2 ^ 61) :
    w.mulAdd n m k = some (n * m + k) := by
  cases w with
  | word =>
    have hproduct : |n * m| ≤ 2 ^ 62 := by
      rw [abs_le] at hk hsum ⊢
      omega
    rw [Width.mulAdd, checked_word hproduct]
    exact checked_word (hsum.trans (by norm_num))
  | unbounded => rfl

/-- The integer part that a turn computes with is the exact one. -/
theorem saturated_floor (w : Width) (hfinite : s.remainder.isFinite = true)
    (hsize : |⌊s.remainder.toRat⌋| ≤ 2 ^ 53) :
    w.saturated s.remainder.floor.toRat.floor = ⌊s.remainder.toRat⌋ := by
  have hint : s.remainder.floor.toRat.floor = ⌊s.remainder.toRat⌋ := by
    rw [(floor_spec hfinite hsize).2]
    show ⌊(⌊s.remainder.toRat⌋ : ℚ)⌋ = _
    exact Int.floor_intCast _
  rw [hint]
  cases w with
  | word => exact saturated_word (hsize.trans (by norm_num))
  | unbounded => rfl

/-- **The limit on denominators hides the width**: a turn is the exact one if its terms are computed
as long as the denominator is within the limit. Beyond it the turn is refused, whether or not its
terms are computed. -/
theorem turn_eq_of_mulAdd (hfinite : s.remainder.isFinite = true) (hn : ⌊s.remainder.toRat⌋ = n)
    (hsize : |n| ≤ 2 ^ 53)
    (h : s.nextDen n ≤ 1000 → w.mulAdd n s.num s.previousNum = some (s.nextNum n) ∧
      w.mulAdd n s.den s.previousDen = some (s.nextDen n)) :
    s.turn w x =
      if 1000 < s.nextDen n then .refused
      else if isClose x (.ofInt (s.nextNum n) / .ofInt (s.nextDen n)) then
        .found (s.nextNum n) (s.nextDen n)
      else if s.left.le leastRemainder then .refused
      else .next (s.advance n) := by
  unfold Search.turn
  dsimp only
  rw [saturated_floor w hfinite (by rwa [hn]), hn]
  by_cases hle : s.nextDen n ≤ 1000
  · obtain ⟨hnum, hden⟩ := h hle
    rw [hnum, hden]
    rfl
  · rw [if_pos (not_le.mp hle)]
    split
    next num den hnum hden =>
      obtain ⟨rfl, -⟩ := eq_of_mulAdd hden
      exact if_pos (not_le.mp hle)
    next => rfl

/-- **A turn on words** is the exact one. -/
theorem turn_word (hfinite : s.remainder.isFinite = true) (hn : ⌊s.remainder.toRat⌋ = n)
    (hsize : |n| ≤ 2 ^ 53) (hnum : |s.previousNum| ≤ 2 ^ 61) (hden : |s.previousDen| ≤ 2 ^ 61)
    (hnum' : |s.nextNum n| ≤ 2 ^ 61) (hden' : |s.nextDen n| ≤ 2 ^ 61) :
    s.turn .word x =
      if 1000 < s.nextDen n then .refused
      else if isClose x (.ofInt (s.nextNum n) / .ofInt (s.nextDen n)) then
        .found (s.nextNum n) (s.nextDen n)
      else if s.left.le leastRemainder then .refused
      else .next (s.advance n) :=
  turn_eq_of_mulAdd hfinite hn hsize fun _ =>
    ⟨mulAdd_of_abs_le .word hnum hnum', mulAdd_of_abs_le .word hden hden'⟩

/-- **What a turn leaves**: between nothing and one, and near the exact fractional part. -/
theorem left_spec (hfinite : s.remainder.isFinite = true)
    (hsize : |⌊s.remainder.toRat⌋| ≤ 2 ^ 53) :
    s.left.isFinite = true ∧ s.left.toRat ≤ 1 ∧
      |s.left.toRat - Int.fract s.remainder.toRat| ≤
        Int.fract s.remainder.toRat / 2 ^ 53 + halfUnit := by
  obtain ⟨hfloor, hvalue⟩ := floor_spec hfinite hsize
  obtain ⟨z, hleft⟩ := exists_sub_eq hfinite hfloor
  rw [hvalue, Int.self_sub_floor] at hleft
  have hnonneg := Int.fract_nonneg s.remainder.toRat
  have hlt := Int.fract_lt_one s.remainder.toRat
  have hround : (round z (Int.fract s.remainder.toRat)).isFinite = true := by
    apply isFinite_round
    rw [abs_of_nonneg hnonneg]
    exact hlt.le.trans (by norm_num)
  have hone : (ofInt 1).toRat = 1 := toRat_ofInt (by decide)
  have hnear := isNear_round hround
  rw [IsNear, abs_of_nonneg hnonneg] at hnear
  unfold Search.left
  rw [hleft]
  refine ⟨hround, ?_, hnear⟩
  rw [← hone]
  exact toRat_round_le (isFinite_ofInt (by decide)) hround (hlt.le.trans hone.ge)

/-- Two roundings, of a difference and of its inverse. -/
theorem abs_inverse_sub_le {ρ l f h : ℚ} (hl : 0 < l) (hl' : l ≤ 1) (hf : f < 1) (hh : 0 ≤ h)
    (hsmall : h ≤ 1 / 2 ^ 54) (hnear : |l - f| ≤ f / 2 ^ 53 + h) (hρ : 1 ≤ ρ)
    (hinverse : |ρ - 1 / l| ≤ 1 / l / 2 ^ 53 + h) : |1 / ρ - f| ≤ 3 / 2 ^ 53 := by
  have hρpos : 0 < ρ := lt_of_lt_of_le one_pos hρ
  have hback : 1 / ρ - l = l * (1 / l - ρ) / ρ := by
    field_simp
  have hstep : |1 / ρ - l| ≤ 1 / 2 ^ 53 + h := by
    rw [hback, abs_div, abs_mul, abs_of_pos hl, abs_of_pos hρpos, abs_sub_comm]
    calc l * |ρ - 1 / l| / ρ ≤ l * |ρ - 1 / l| :=
          div_le_self (mul_nonneg hl.le (abs_nonneg _)) hρ
      _ ≤ l * (1 / l / 2 ^ 53 + h) := mul_le_mul_of_nonneg_left hinverse hl.le
      _ = 1 / 2 ^ 53 + l * h := by field_simp
      _ ≤ 1 / 2 ^ 53 + h := by linarith [mul_le_of_le_one_left hh hl']
  have htriangle : |1 / ρ - f| ≤ |1 / ρ - l| + |l - f| := abs_sub_le _ _ _
  linarith

/-- Where enough is left, the next remainder is its inverse, rounded. -/
theorem exists_remainder_eq (hfinite : s.remainder.isFinite = true)
    (hsize : |⌊s.remainder.toRat⌋| ≤ 2 ^ 53) (hleft : s.left.le leastRemainder = false) :
    0 < s.left.toRat ∧ 1 ≤ 1 / s.left.toRat ∧ 1 / s.left.toRat ≤ 2 ^ 52 ∧
      ∃ z, (s.advance n).remainder = round z (1 / s.left.toRat) := by
  obtain ⟨hleftfinite, hle, -⟩ := left_spec hfinite hsize
  obtain ⟨hleast, hleastvalue⟩ := toRat_leastRemainder
  have hlow : 1 / 2 ^ 52 < s.left.toRat := by
    rw [← Bool.not_eq_true, le_iff hleftfinite hleast, hleastvalue, not_le] at hleft
    exact hleft
  have hpos : 0 < s.left.toRat := lt_trans (by norm_num) hlow
  have hone : (ofInt 1).toRat = 1 := toRat_ofInt (by decide)
  have honefinite : (ofInt 1).isFinite = true := isFinite_ofInt (by decide)
  refine ⟨hpos, one_le_one_div hpos hle, ?_, ?_⟩
  · rw [div_le_iff₀ hpos]
    norm_num at hlow ⊢
    linarith
  · obtain ⟨z, hquotient⟩ := exists_div_eq honefinite hleftfinite hpos.ne'
    rw [hone] at hquotient
    exact ⟨z, hquotient⟩

/-- **The next remainder**: at least one, and its inverse is the exact fractional part up to a few
roundings. -/
theorem next_remainder_spec (hfinite : s.remainder.isFinite = true)
    (hsize : |⌊s.remainder.toRat⌋| ≤ 2 ^ 53) (hleft : s.left.le leastRemainder = false) :
    (s.advance n).remainder.isFinite = true ∧ 1 ≤ (s.advance n).remainder.toRat ∧
      |1 / (s.advance n).remainder.toRat - Int.fract s.remainder.toRat| ≤ 3 / 2 ^ 53 := by
  obtain ⟨-, hle, hnear⟩ := left_spec hfinite hsize
  obtain ⟨hpos, hinverse, hhigh, z, hremainder⟩ :=
    exists_remainder_eq (n := n) hfinite hsize hleft
  have hone : (ofInt 1).toRat = 1 := toRat_ofInt (by decide)
  have hround : (round z (1 / s.left.toRat)).isFinite = true := by
    apply isFinite_round
    rw [abs_of_nonneg (zero_le_one.trans hinverse)]
    exact hhigh.trans (by norm_num)
  have honefinite : (ofInt 1).isFinite = true := isFinite_ofInt (by decide)
  have hge : 1 ≤ (round z (1 / s.left.toRat)).toRat :=
    hone.symm.trans_le (le_toRat_round honefinite hround (hone.trans_le hinverse))
  have hnear' := isNear_round hround
  rw [IsNear, abs_of_nonneg (zero_le_one.trans hinverse)] at hnear'
  rw [hremainder]
  exact ⟨hround, hge, abs_inverse_sub_le hpos hle (Int.fract_lt_one _) halfUnit_pos.le
    (halfUnit_le.trans (by norm_num)) hnear hge hnear'⟩

/-- The next remainder is not too great for its integer part to be exact. -/
theorem next_remainder_le (hfinite : s.remainder.isFinite = true)
    (hsize : |⌊s.remainder.toRat⌋| ≤ 2 ^ 53) (hleft : s.left.le leastRemainder = false) :
    (s.advance n).remainder.toRat ≤ 2 ^ 52 := by
  obtain ⟨-, -, hhigh, z, hremainder⟩ := exists_remainder_eq (n := n) hfinite hsize hleft
  have hround := (next_remainder_spec (n := n) hfinite hsize hleft).1
  have hfinite' : (ofInt 4503599627370496).isFinite = true := isFinite_ofInt (by decide)
  have hbound : (ofInt 4503599627370496).toRat = 2 ^ 52 :=
    (toRat_ofInt (by decide)).trans (by norm_num)
  rw [hremainder] at hround ⊢
  exact (toRat_round_le hfinite' hround (hhigh.trans_eq hbound.symm)).trans_eq hbound

end Turns

end Fraction

end QuadraticSolver
