import QuadraticSolver.Proofs.Binary64.Differences
import QuadraticSolver.Proofs.Report.Recognition

/-!
# What a recognised fraction stands for

A fraction is only ever found in lowest terms, with a denominator between one and
a thousand, and near the number (`simpleFraction_sound`). Nothing is assumed of
the number: the remainders are rounded, and what carries the argument is what
every turn keeps in spite of it (`Search.Regular`). Two neighbouring convergents
have the determinant one, whatever the integer part is, and a remainder after
the first turn is at least one, so the denominators stay positive.

How near the fraction is follows from the judgement alone. Where the two numbers
are as near as that, their difference and the allowance are not rounded
(`isClose_iff`), and what is left is the rounding of the quotient.
-/

namespace QuadraticSolver.Fraction

open Binary64

/-! ## The judgement is exact -/

section Judgement

variable {x y : Binary64}

theorem max_abs_le_add (X Y : ℚ) : max |X| |Y| ≤ |X| + |X - Y| := by
  have hY := abs_sub_abs_le_abs_sub Y X
  rw [abs_sub_comm] at hY
  exact max_le (by linarith [abs_nonneg (X - Y)]) (by linarith)

/-- Values as near as the allowance, with the two roundings, are within half of either of them. -/
theorem abs_sub_le_of_allowance {X Y : ℚ} (hlow : 1 / 2 ^ 20 ≤ max |X| |Y|)
    (h : |X - Y| * (1 - 1 / 2 ^ 53) ≤ max |X| |Y| * (1 / 2 ^ 49 * (1 + 1 / 2 ^ 53)) + 1 / 2 ^ 99) :
    |X - Y| ≤ |X| ∧ |X - Y| ≤ |Y| := by
  have hmax := max_abs_le_add X Y
  have hmax' := max_abs_le_add Y X
  rw [max_comm, abs_sub_comm] at hmax'
  generalize max |X| |Y| = M at *
  generalize |X - Y| = d at *
  norm_num at h hlow
  constructor <;> linarith

/-- **The judgement is the exact comparison**, for numbers that are not both near zero. -/
theorem isClose_iff (hx : x.isFinite = true) (hy : y.isFinite = true) (hx' : |x.toRat| ≤ 2 ^ 100)
    (hy' : |y.toRat| ≤ 2 ^ 100) (hlow : 1 / 2 ^ 20 ≤ max |x.toRat| |y.toRat|) :
    isClose x y = true ↔ |x.toRat - y.toRat| ≤ 1 / 2 ^ 49 * max |x.toRat| |y.toRat| := by
  refine ⟨fun h => ?_, isClose_of_abs_sub_le hx hy hx' hy'⟩
  obtain ⟨hX, hY⟩ := abs_sub_le_of_allowance hlow (abs_sub_le_of_isClose hx hy hx' hy' h)
  obtain ⟨z, z', -, -, hiff⟩ := isClose_spec hx hy hx' hy'
  obtain ⟨hmax, hvalue⟩ := max_spec (isFinite_abs_iff.mpr hx) (isFinite_abs_iff.mpr hy)
  rw [toRat_abs, toRat_abs] at hvalue
  have hallowance : (round z' (1 / 2 ^ 49 * max |x.toRat| |y.toRat|)).toRat =
      1 / 2 ^ 49 * max |x.toRat| |y.toRat| := by
    have hnormal : 1 / 2 ^ 20 ≤ |(x.abs.max y.abs).toRat| := by
      rw [hvalue]
      exact hlow.trans (le_abs_self _)
    have hexact := (round_div_two_pow (z := z') (j := 49) (by decide) hmax hnormal).2
    rw [hvalue] at hexact
    rw [one_div_mul_eq_div]
    exact hexact
  rw [hallowance, (round_sub_exact hx hy hX hY).2] at hiff
  exact hiff.mp h

/-- Only zero stands for zero. -/
theorem toRat_eq_zero_of_isClose (hx : x.isFinite = true) (hy : y.isFinite = true)
    (hx' : |x.toRat| ≤ 2 ^ 100) (hzero : y.toRat = 0) (h : isClose x y = true) : x.toRat = 0 := by
  by_contra hne
  obtain ⟨z, z', hdistance, hallowance, hiff⟩ :=
    isClose_spec hx hy hx' (by rw [hzero, abs_zero]; positivity)
  have hle := hiff.mp h
  have hunit := two_mul_halfUnit_le hx hne
  have hhalf := halfUnit_pos
  rw [hzero, abs_zero, max_eq_left (abs_nonneg _)] at hallowance
  rw [hzero, sub_zero, (round_toRat z hx).2, abs_zero, max_eq_left (abs_nonneg _)] at hle
  have hhigh := (abs_le.mp (isNear_round hallowance)).2
  rw [abs_mul, abs_abs, abs_of_pos (by positivity : (0 : ℚ) < 1 / 2 ^ 49)] at hhigh
  norm_num at hhigh
  linarith

end Judgement

/-! ## A quotient that stands for the number -/

section Quotient

variable {x : Binary64} {p q : ℤ}

/-- What stands for a number within the limits is not far beyond them. -/
theorem abs_le_of_isClose {y : Binary64} (hx : x.isFinite = true) (hy : y.isFinite = true)
    (hx' : |x.toRat| ≤ 10 ^ 9) (hy' : |y.toRat| ≤ 2 ^ 100) (h : isClose x y = true) :
    |y.toRat| ≤ 2 ^ 32 := by
  have hclose := abs_sub_le_of_isClose hx hy (hx'.trans (by norm_num)) hy' h
  have hmax := max_abs_le_add x.toRat y.toRat
  have hle := (le_max_right _ _).trans hmax
  generalize max |x.toRat| |y.toRat| = M at hmax hclose
  generalize |x.toRat - y.toRat| = d at *
  norm_num at hclose hx' ⊢
  linarith

theorem ofInt_den_spec (hq : 0 < q) (hq' : q ≤ 1000) :
    (ofInt q).isFinite = true ∧ (ofInt q).toRat = q ∧ 1 ≤ |(ofInt q).toRat| := by
  have habs : |q| ≤ 1000 := by rwa [abs_of_pos hq]
  have hvalue : (ofInt q).toRat = q := (isInteger_ofInt q).toRat_eq (by omega)
  refine ⟨(isInteger_ofInt q).isFinite (by omega), hvalue, ?_⟩
  rw [hvalue]
  exact_mod_cast Int.one_le_abs hq.ne'

/-- The terms of what stands for a number within the limits are of ordinary size: so is the
quotient, hence the numerator that it was rounded from, hence the integer. -/
theorem abs_num_le_of_isClose (hx : x.isFinite = true) (hx' : |x.toRat| ≤ 10 ^ 9)
    (hp : |p| ≤ 2 ^ 63) (hq : 0 < q) (hq' : q ≤ 1000)
    (h : isClose x (ofInt p / ofInt q) = true) : |p| ≤ 2 ^ 53 := by
  have hqpos : (0 : ℚ) < q := by exact_mod_cast hq
  have hq1000 : (q : ℚ) ≤ 1000 := by exact_mod_cast hq'
  have hp63 : |(p : ℚ)| ≤ 2 ^ 63 := by exact_mod_cast hp
  obtain ⟨hqfinite, hqvalue, hone⟩ := ofInt_den_spec hq hq'
  have hpfinite : (ofInt p).isFinite = true := isFinite_round (hp63.trans (by norm_num))
  have hpnear : (ofInt p).IsNear p := isNear_round hpfinite
  have hpsize := hpnear.abs_le
  have hfinite : (ofInt p / ofInt q).isFinite = true :=
    isFinite_div hpfinite hqfinite hone (by linarith)
  have hnear := (isNear_div hqfinite hfinite).2
  have hsize := hnear.abs_le
  have hquotient := abs_div_le_abs (x := ofInt p) hone
  have hle := abs_le_of_isClose hx hfinite hx' (by linarith) h
  have hvalue := hnear.value_le
  rw [hqvalue, abs_div, abs_of_pos hqpos, div_le_iff₀ hqpos] at hvalue
  have hnumerator : |(ofInt p).toRat| ≤ (2 * 2 ^ 32 + 1) * 1000 :=
    hvalue.trans (mul_le_mul (by linarith) hq1000 hqpos.le (by positivity))
  have hinteger : |(p : ℚ)| ≤ 2 ^ 53 := by linarith [hpnear.value_le]
  exact_mod_cast hinteger

/-- A fraction with a small denominator is not near zero. -/
theorem one_div_le_abs_div (hp : p ≠ 0) (hq : 0 < q) (hq' : q ≤ 1000) :
    (1 / 1000 : ℚ) ≤ |(p : ℚ) / q| := by
  have hqpos : (0 : ℚ) < q := by exact_mod_cast hq
  have hle : (q : ℚ) ≤ 1000 := by exact_mod_cast hq'
  have hone : (1 : ℚ) ≤ |(p : ℚ)| := by exact_mod_cast Int.one_le_abs hp
  rw [abs_div, abs_of_pos hqpos, le_div_iff₀ hqpos]
  linarith

/-- **The quotient that stands for a number** is within the allowance of it. -/
theorem abs_sub_quotient_le (hx : x.isFinite = true) (hx' : |x.toRat| ≤ 10 ^ 9)
    (hp : |p| ≤ 2 ^ 63) (hne : p ≠ 0) (hq : 0 < q) (hq' : q ≤ 1000)
    (h : isClose x (ofInt p / ofInt q) = true) :
    |p| ≤ 2 ^ 53 ∧ |(ofInt p / ofInt q).toRat - (p : ℚ) / q| ≤ |(p : ℚ) / q| / 2 ^ 53 + halfUnit ∧
      |x.toRat - (ofInt p / ofInt q).toRat| ≤
        1 / 2 ^ 49 * max |x.toRat| |(ofInt p / ofInt q).toRat| := by
  have hp53 := abs_num_le_of_isClose hx hx' hp hq hq' h
  obtain ⟨hnearest, hsize⟩ := isNearest_quotient hp53 hq hq'
  obtain ⟨hnear, hsize'⟩ := spec_of_isNearest hnearest hsize
  have hnear' : |(ofInt p / ofInt q).toRat - (p : ℚ) / q| ≤
      |(p : ℚ) / q| / 2 ^ 53 + halfUnit := hnear
  refine ⟨hp53, hnear', ?_⟩
  rw [isClose_iff hx hnearest.finite (hx'.trans (by norm_num)) hsize' ?_] at h
  · exact h
  · have hlow := one_div_le_abs_div hne hq hq'
    have htriangle := abs_sub_abs_le_abs_sub ((p : ℚ) / q) (ofInt p / ofInt q).toRat
    rw [abs_sub_comm] at htriangle
    have hhalf := halfUnit_le
    refine le_max_of_le_right ?_
    norm_num at hhalf hnear' hlow ⊢
    linarith

end Quotient

/-! ## What a turn can do -/

theorem abs_le_of_checked_word {k : ℤ} (h : Width.word.checked k = some k) : |k| ≤ 2 ^ 63 := by
  have hbounds := (checked_word_eq_some_iff.mp h).1
  exact abs_le.mpr (by omega)

section Turns

variable {w : Width} {x : Binary64} {s : Search}

/-- What a turn of the search can come to, with the integer part that it computes with. -/
inductive Search.TurnsTo (w : Width) (x : Binary64) (s : Search) (n : ℤ) : Turn → Prop
  | found (hnum : w.checked (s.nextNum n) = some (s.nextNum n)) (hle : s.nextDen n ≤ 1000)
      (hclose : isClose x (.ofInt (s.nextNum n) / .ofInt (s.nextDen n)) = true) :
      TurnsTo w x s n (.found (s.nextNum n) (s.nextDen n))
  | refused : TurnsTo w x s n .refused
  | next (hleft : s.left.le leastRemainder = false) : TurnsTo w x s n (.next (s.advance n))

theorem Search.turnsTo_turn (w : Width) (x : Binary64) (s : Search) :
    s.TurnsTo w x (w.saturated s.remainder.floor.toRat.floor) (s.turn w x) := by
  unfold Search.turn
  dsimp only
  split
  next num den hnum hden =>
    obtain ⟨rfl, hchecked⟩ := eq_of_mulAdd hnum
    obtain ⟨rfl, -⟩ := eq_of_mulAdd hden
    split
    next => exact .refused
    next hle =>
      split
      next hclose => exact .found hchecked (not_lt.mp hle) hclose
      next =>
        split
        next => exact .refused
        next hleft => exact .next (Bool.not_eq_true _ ▸ hleft)
  next => exact .refused

/-! ## What every turn keeps -/

/-- The search has two neighbouring convergents, with a positive denominator after the first turn,
and a remainder whose integer part is exact. -/
structure Search.Regular (s : Search) : Prop where
  determinant : |s.num * s.previousDen - s.previousNum * s.den| = 1
  order : s.den = 0 ∧ s.previousDen = 1 ∨
    1 ≤ s.den ∧ 0 ≤ s.previousDen ∧ 1 ≤ s.remainder.toRat
  finite : s.remainder.isFinite = true
  size : |s.remainder.toRat| ≤ 2 ^ 52

/-- What is found is in lowest terms, with a denominator within the limit, and it was judged to
stand for the number. -/
structure Finding (w : Width) (x : Binary64) (p q : ℤ) : Prop where
  coprime : IsCoprime p q
  pos : 0 < q
  le : q ≤ 1000
  checked : w.checked p = some p
  isClose : isClose x (ofInt p / ofInt q) = true

theorem regular_start (hx : x.isFinite = true) (hx' : |x.toRat| ≤ 10 ^ 9) :
    (Search.start x).Regular where
  determinant := by
    show |(1 : ℤ) * 1 - 0 * 0| = 1
    decide
  order := Or.inl ⟨rfl, rfl⟩
  finite := hx
  size := hx'.trans (by norm_num)

namespace Search.Regular

theorem abs_floor_le (h : s.Regular) : |⌊s.remainder.toRat⌋| ≤ 2 ^ 53 := by
  obtain ⟨hlow, hhigh⟩ := abs_le.mp h.size
  have hfloor := Int.floor_le s.remainder.toRat
  have hlt := Int.lt_floor_add_one s.remainder.toRat
  have hbound : |(⌊s.remainder.toRat⌋ : ℚ)| ≤ 2 ^ 53 := by
    rw [abs_le]
    constructor <;> linarith
  exact_mod_cast hbound

/-- The next denominator is positive. -/
theorem nextDen_pos (h : s.Regular) : 0 < s.nextDen ⌊s.remainder.toRat⌋ := by
  rw [nextDen]
  rcases h.order with ⟨hden, hprevious⟩ | ⟨hden, hprevious, hone⟩
  · rw [hden, hprevious]
    omega
  · have hfloor : 1 ≤ ⌊s.remainder.toRat⌋ := Int.le_floor.mpr (by exact_mod_cast hone)
    have := mul_pos (zero_lt_one.trans_le hfloor) (zero_lt_one.trans_le hden)
    omega

/-- The next convergent is a neighbour of the last one. -/
theorem abs_cross (h : s.Regular) (n : ℤ) :
    |s.nextNum n * s.den - s.num * s.nextDen n| = 1 := by
  rw [abs_sub_comm, s.abs_determinant_next, h.determinant]

/-- So it is in lowest terms. -/
theorem isCoprime_next (h : s.Regular) (n : ℤ) : IsCoprime (s.nextNum n) (s.nextDen n) := by
  have hcross := h.abs_cross n
  rw [mul_comm] at hcross
  exact isCoprime_of_cross hcross

/-- **What one turn keeps.** -/
theorem advance (h : s.Regular) (hleft : s.left.le leastRemainder = false) :
    (s.advance ⌊s.remainder.toRat⌋).Regular := by
  obtain ⟨hfinite, hge, -⟩ :=
    next_remainder_spec (n := ⌊s.remainder.toRat⌋) h.finite h.abs_floor_le hleft
  have hle := next_remainder_le (n := ⌊s.remainder.toRat⌋) h.finite h.abs_floor_le hleft
  rw [← abs_of_pos (zero_lt_one.trans_le hge)] at hle
  have hden : 0 ≤ s.den := by
    rcases h.order with ⟨hden, -⟩ | ⟨hden, -⟩ <;> omega
  exact {
    determinant := by
      show |s.nextNum _ * s.den - s.num * s.nextDen _| = 1
      exact h.abs_cross _
    order := by
      have hpos := h.nextDen_pos
      right
      show 1 ≤ s.nextDen _ ∧ 0 ≤ s.den ∧ _
      exact ⟨hpos, hden, hge⟩
    finite := hfinite
    size := hle }

/-- **What a turn finds.** -/
theorem finding (h : s.Regular) {p q : ℤ} (hturn : s.turn w x = .found p q) : Finding w x p q := by
  have hcases := s.turnsTo_turn w x
  rw [hturn, saturated_floor w h.finite h.abs_floor_le] at hcases
  cases hcases with
  | found hnum hle hclose => exact ⟨h.isCoprime_next _, h.nextDen_pos, hle, hnum, hclose⟩

theorem next (h : s.Regular) {s' : Search} (hturn : s.turn w x = .next s') : s'.Regular := by
  have hcases := s.turnsTo_turn w x
  rw [saturated_floor w h.finite h.abs_floor_le] at hcases
  generalize s.turn w x = turn at hcases hturn
  cases hcases with
  | found => cases hturn
  | refused => cases hturn
  | next hleft =>
    rw [← Turn.next.inj hturn]
    exact h.advance hleft

/-- **What the whole search finds**, after any number of turns. -/
theorem finding_of_run {p q : ℤ} :
    ∀ (turns : ℕ) {s : Search}, s.Regular → s.run w x turns = .found p q → Finding w x p q
  | 0, _, _, hrun => nomatch hrun
  | turns + 1, s, h, hrun => by
    rw [run] at hrun
    cases hturn : s.turn w x with
    | found num den =>
      rw [hturn] at hrun
      cases hrun
      exact h.finding hturn
    | refused =>
      rw [hturn] at hrun
      cases hrun
    | next s' =>
      rw [hturn] at hrun
      exact finding_of_run turns (h.next hturn) hrun

end Search.Regular

end Turns

/-! ## What is recognised -/

/-- The fraction stands for the number: it is in lowest terms, its denominator is within the limit,
it is as near as nine roundings, and it is zero for zero alone. -/
structure Represents (x : Binary64) (p q : ℤ) : Prop where
  coprime : IsCoprime p q
  one_le : 1 ≤ q
  le : q ≤ 1000
  near : |x.toRat - p / q| ≤ 9 / 2 ^ 52 * max |x.toRat| |(p : ℚ) / q|
  zero_iff : p = 0 ↔ x.isZero = true

section Recognised

variable {x : Binary64} {p q : ℤ} {r : ℚ}

theorem abs_le_of_lt_eq_false (hx : x.isFinite = true) (h : maxMagnitude.lt x.abs = false) :
    |x.toRat| ≤ 10 ^ 9 := by
  obtain ⟨hfinite, hvalue⟩ := toRat_maxMagnitude
  rw [← Bool.not_eq_true, lt_iff hfinite (isFinite_abs_iff.mpr hx), toRat_abs, not_lt, hvalue] at h
  exact h

namespace Finding

theorem near (h : Finding .word x p q) (hx : x.isFinite = true) (hx' : |x.toRat| ≤ 10 ^ 9)
    (hne : p ≠ 0) : |x.toRat - p / q| ≤ 9 / 2 ^ 52 * max |x.toRat| |(p : ℚ) / q| := by
  obtain ⟨-, hquotient, hclose⟩ :=
    abs_sub_quotient_le hx hx' (abs_le_of_checked_word h.checked) hne h.pos h.le h.isClose
  have hlow := one_div_le_abs_div hne h.pos h.le
  have hhalf := halfUnit_le
  have hpos := halfUnit_pos
  have htriangle := abs_sub_le x.toRat (ofInt p / ofInt q).toRat ((p : ℚ) / q)
  have hsize := abs_sub_abs_le_abs_sub (ofInt p / ofInt q).toRat ((p : ℚ) / q)
  have hleft := le_max_left |x.toRat| |(p : ℚ) / q|
  have hright := le_max_right |x.toRat| |(p : ℚ) / q|
  have hmax : max |x.toRat| |(ofInt p / ofInt q).toRat| ≤
      max |x.toRat| |(p : ℚ) / q| * (1 + 1 / 2 ^ 53) + halfUnit := by
    refine max_le ?_ ?_ <;> linarith [abs_nonneg x.toRat]
  generalize max |x.toRat| |(ofInt p / ofInt q).toRat| = M' at hclose hmax
  generalize max |x.toRat| |(p : ℚ) / q| = M at *
  norm_num at hclose hquotient hhalf hlow ⊢
  linarith

/-- An integer is found nearer: its quotient is not rounded. -/
theorem near_of_one (h : Finding .word x p 1) (hx : x.isFinite = true)
    (hx' : |x.toRat| ≤ 10 ^ 9) (hne : p ≠ 0) :
    |x.toRat - p| ≤ 8 / 2 ^ 52 * max |x.toRat| |(p : ℚ)| := by
  obtain ⟨hp, -, hclose⟩ :=
    abs_sub_quotient_le hx hx' (abs_le_of_checked_word h.checked) hne h.pos h.le h.isClose
  have hvalue : (ofInt p).toRat = p := (isInteger_ofInt p).toRat_eq hp
  have hnearest := (isNearest_quotient hp h.pos h.le).1
  rw [Int.cast_one, div_one, ← hvalue] at hnearest
  rw [hnearest.toRat_eq ((isInteger_ofInt p).isFinite (abs_le_two_pow_60 hp)), hvalue] at hclose
  refine hclose.trans_eq ?_
  norm_num

theorem eq_zero_iff (h : Finding .word x p q) (hx : x.isFinite = true)
    (hx' : |x.toRat| ≤ 10 ^ 9) : p = 0 ↔ x.isZero = true := by
  constructor
  · rintro rfl
    have hquotient : (ofInt 0 / ofInt q).toRat = 0 ∧ (ofInt 0 / ofInt q).isFinite = true := by
      have hnearest := (isNearest_quotient (a := 0) (by norm_num) h.pos h.le).1
      have hzero : ((0 : ℤ) : ℚ) / q = (zero false).toRat := by
        rw [Int.cast_zero, zero_div]
        exact (toRat_of_isZero (by decide)).symm
      refine ⟨?_, hnearest.finite⟩
      rw [hzero] at hnearest
      rw [hnearest.toRat_eq rfl, toRat_of_isZero (by decide)]
    exact isZero_of_toRat_eq_zero hx (toRat_eq_zero_of_isClose hx hquotient.2
      (hx'.trans (by norm_num)) hquotient.1 h.isClose)
  · intro hzero
    by_contra hne
    have hnear := h.near hx hx' hne
    have hlow := one_div_le_abs_div hne h.pos h.le
    rw [toRat_of_isZero hzero, abs_sub_comm, sub_zero, abs_zero,
      max_eq_right (abs_nonneg _)] at hnear
    linarith

theorem represents (h : Finding .word x p q) (hx : x.isFinite = true)
    (hx' : |x.toRat| ≤ 10 ^ 9) : Represents x p q where
  coprime := h.coprime
  one_le := h.pos
  le := h.le
  near := by
    by_cases hne : p = 0
    · have hzero := (h.eq_zero_iff hx hx').mp hne
      rw [hne, Int.cast_zero, zero_div, toRat_of_isZero hzero, sub_zero, abs_zero]
      positivity
    · exact h.near hx hx' hne
  zero_iff := h.eq_zero_iff hx hx'

end Finding

/-- A recognised fraction is what the search found, term by term. -/
theorem exists_finding (h : simpleFraction? x = some r) :
    x.isFinite = true ∧ |x.toRat| ≤ 10 ^ 9 ∧ ∃ p q : ℤ,
      (Search.start x).run .word x 32 = .found p q ∧ Finding .word x p q ∧
        r.num = p ∧ (r.den : ℤ) = q := by
  unfold simpleFraction? at h
  split at h
  next => cases h
  next hguard =>
    rw [Bool.not_eq_true, Bool.or_eq_false_iff, Bool.not_eq_false'] at hguard
    obtain ⟨hx, hmagnitude⟩ := hguard
    have hx' := abs_le_of_lt_eq_false hx hmagnitude
    split at h
    next p q hrun =>
      have hfinding := (regular_start hx hx').finding_of_run 32 hrun
      obtain ⟨hnum, hden⟩ := num_den_of_isCoprime hfinding.pos hfinding.coprime
      have hr : r = (p : ℚ) / q := by
        rw [← Option.some.inj h, Rat.divInt_eq_div]
      exact ⟨hx, hx', p, q, hrun, hfinding, hr ▸ hnum, hr ▸ hden⟩
    next => cases h

/-- **Recognised fractions are sound.** Within the limits of the search no convergent with a zero
denominator is ever found; and a number is recognised as a fraction only if it is within these
limits, the last convergent was in lowest terms already, and it stands for the number. -/
theorem simpleFraction_sound (x : Binary64) :
    (x.isFinite = true → maxMagnitude.lt x.abs = false → ∀ (turns : ℕ) (p q : ℤ),
        (Search.start x).run .word x turns = .found p q → q ≠ 0) ∧
      ∀ r, simpleFraction? x = some r → x.isFinite = true ∧ |x.toRat| ≤ 10 ^ 9 ∧
        ∃ p q : ℤ, (Search.start x).run .word x 32 = .found p q ∧
          r.num = p ∧ (r.den : ℤ) = q ∧ Represents x p q := by
  constructor
  · intro hx hmagnitude turns p q hrun
    have hx' := abs_le_of_lt_eq_false hx hmagnitude
    exact ((regular_start hx hx').finding_of_run turns hrun).pos.ne'
  · intro r hr
    obtain ⟨hx, hx', p, q, hrun, hfinding, hnum, hden⟩ := exists_finding hr
    exact ⟨hx, hx', p, q, hrun, hnum, hden, hfinding.represents hx hx'⟩

/-- The sum of the numbers nearest to one tenth and to one fifth stands for three tenths. -/
theorem simpleFraction_sound_three_tenths :
    let x : Binary64 := round false (mkRat 1 10) + round false (mkRat 1 5)
    simpleFraction? x = some (mkRat 3 10) ∧ x ≠ round false (mkRat 3 10) ∧
      ∃ p q : ℤ, (Search.start x).run .word x 32 = .found p q ∧ p = 3 ∧ q = 10 ∧
        Represents x p q := by
  have hfound : simpleFraction? (round false (mkRat 1 10) + round false (mkRat 1 5)) =
      some (mkRat 3 10) := by
    decide +kernel
  obtain ⟨-, -, p, q, hrun, hnum, hden, hrepresents⟩ := (simpleFraction_sound _).2 _ hfound
  refine ⟨hfound, by decide +kernel, p, q, hrun, ?_, ?_, hrepresents⟩
  · exact hnum.symm.trans (by decide)
  · exact hden.symm.trans (by decide)

end Recognised

end QuadraticSolver.Fraction
