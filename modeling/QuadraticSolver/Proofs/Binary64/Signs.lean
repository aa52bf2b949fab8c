import QuadraticSolver.Proofs.Binary64.Arithmetic

/-!
# The signs of results

Rounding is the same on both sides of zero, so a sign goes through a product and
a quotient unchanged, for infinities, zeros and "not a number" as well
(`Binary64.neg_mul`, `Binary64.neg_div`). Through a sum it goes but for one
thing: an exact zero is positive on both sides. So opposites sum up to the
opposite, up to the sign of a zero (`unsignZero_neg_add_neg`).

That sign is what `unsignZero` removes. No division brings it back: the quotients
of numbers that agree up to the sign of a zero agree in the same way
(`unsignZero_div_congr`).
-/

namespace QuadraticSolver.Binary64

/-- Two changes of the sign are none. -/
protected theorem neg_neg_eq (x : Binary64) : - -x = x :=
  neg_neg x

/-! ## Products -/

protected theorem mul_comm (x y : Binary64) : x * y = y * x := by
  show mul x y = mul y x
  cases x with
  | nan => cases y <;> rfl
  | infinity s =>
    cases y with
    | nan => rfl
    | infinity t => cases s <;> cases t <;> rfl
    | finite t n => cases s <;> cases t <;> simp [mul, isZero, isNegative]
  | finite s m =>
    cases y with
    | nan => rfl
    | infinity t => cases s <;> cases t <;> simp [mul, isZero, isNegative]
    | finite t n => rw [mul_finite, mul_finite, mul_comm, bne_comm]

/-- **The sign of a factor is one of the product.** -/
protected theorem neg_mul (x y : Binary64) : -x * y = -(x * y) := by
  show mul (neg x) y = neg (mul x y)
  cases x with
  | nan => cases y <;> rfl
  | infinity s =>
    cases y with
    | nan => rfl
    | infinity t => cases s <;> cases t <;> rfl
    | finite t n => by_cases hn : n.mantissa = 0 <;> simp [neg, mul, isZero, isNegative, hn]
  | finite s m =>
    cases y with
    | nan => rfl
    | infinity t => by_cases hm : m.mantissa = 0 <;> simp [neg, mul, isZero, isNegative, hm]
    | finite t n =>
      have hround := neg_round (s != t) ((finite s m).toRat * (finite t n).toRat)
      have hvalue : (finite (!s) m).toRat = -(finite s m).toRat := toRat_neg (finite s m)
      show mul (finite (!s) m) (finite t n) = -(mul (finite s m) (finite t n))
      rw [mul_finite, mul_finite, hround, hvalue, neg_mul, Bool.not_bne]

protected theorem mul_neg (x y : Binary64) : x * -y = -(x * y) := by
  rw [Binary64.mul_comm, Binary64.neg_mul, Binary64.mul_comm]

/-- One times a finite number is the number, also where it is a zero. -/
theorem ofInt_one_mul {x : Binary64} (hx : x.isFinite = true) : ofInt 1 * x = x := by
  obtain ⟨s, m, rfl⟩ := exists_of_isFinite hx
  obtain ⟨l, hl⟩ := exists_units_eq_abs (k := 1) (by decide)
  have hone : ofInt 1 = finite false l := by
    rw [ofInt, round_eq_finite false hl, roundSign_of_pos (by norm_num)]
  have hvalue : (finite false l).toRat = 1 := by
    rw [← hone, toRat_ofInt (by decide), Int.cast_one]
  have hnonneg : (0 : ℚ) ≤ m.units / unitsPerOne := by positivity
  rw [hone]
  show mul (finite false l) (finite s m) = finite s m
  rw [mul_finite, hvalue, one_mul, Bool.false_bne, round_eq_finite s (abs_toRat_finite s m),
    toRat_finite, roundSign_signFactor_mul s hnonneg]

/-- And minus one times a finite number is the opposite. -/
theorem ofInt_neg_one_mul {x : Binary64} (hx : x.isFinite = true) : ofInt (-1) * x = -x := by
  have hone : (ofInt 1).isZero = false := by decide +kernel
  rw [ofInt_neg (by decide), hone, if_neg Bool.false_ne_true, Binary64.neg_mul, ofInt_one_mul hx]

/-! ## Quotients -/

/-- **The sign of the dividend is one of the quotient.** -/
protected theorem neg_div (x y : Binary64) : -x / y = -(x / y) := by
  show div (neg x) y = neg (div x y)
  cases x with
  | nan => cases y <;> rfl
  | infinity s => cases y <;> simp [neg, div]
  | finite s m =>
    cases y with
    | nan => rfl
    | infinity t => simp [neg, div, zero]
    | finite t n =>
      by_cases hn : n.mantissa = 0
      · by_cases hm : m.mantissa = 0 <;> simp [neg, div, hn, hm]
      · have hround := neg_round (s != t) ((finite s m).toRat / (finite t n).toRat)
        have hvalue : (finite (!s) m).toRat = -(finite s m).toRat := toRat_neg (finite s m)
        show div (finite (!s) m) (finite t n) = -(div (finite s m) (finite t n))
        rw [div_finite _ _ _ _ hn, div_finite _ _ _ _ hn, hround, hvalue, neg_div, Bool.not_bne]

protected theorem neg_div_neg (x y : Binary64) : -x / -y = x / y := by
  show div (neg x) (neg y) = div x y
  cases x with
  | nan => cases y <;> rfl
  | infinity s => cases y <;> simp [neg, div]
  | finite s m =>
    cases y with
    | nan => rfl
    | infinity t => simp [neg, div]
    | finite t n =>
      by_cases hn : n.mantissa = 0
      · by_cases hm : m.mantissa = 0 <;> simp [neg, div, hn, hm]
      · have hdividend : (finite (!s) m).toRat = -(finite s m).toRat := toRat_neg (finite s m)
        have hdivisor : (finite (!t) n).toRat = -(finite t n).toRat := toRat_neg (finite t n)
        show div (finite (!s) m) (finite (!t) n) = div (finite s m) (finite t n)
        rw [div_finite _ _ _ _ hn, div_finite _ _ _ _ hn, hdividend, hdivisor, neg_div_neg_eq,
          Bool.not_bne_not]

/-- The sign of the divisor is one of the quotient. -/
protected theorem div_neg (x y : Binary64) : x / -y = -(x / y) := by
  conv_lhs => rw [← x.neg_neg_eq]
  rw [Binary64.neg_div_neg, Binary64.neg_div]

/-! ## The sign of a zero -/

/-- The number, without a sign where it is zero. -/
def unsignZero (x : Binary64) : Binary64 :=
  if x.isZero then zero false else x

section UnsignZero

variable {x y : Binary64}

theorem isZero_neg (x : Binary64) : (-x).isZero = x.isZero := by
  cases x <;> rfl

theorem unsignZero_of_isZero (h : x.isZero = true) : x.unsignZero = zero false :=
  if_pos h

theorem unsignZero_of_not_isZero (h : x.isZero = false) : x.unsignZero = x :=
  if_neg (by rw [h]; decide)

@[simp]
theorem isFinite_unsignZero (x : Binary64) : x.unsignZero.isFinite = x.isFinite := by
  cases hx : x.isZero with
  | true =>
    rw [unsignZero_of_isZero hx]
    cases x with
    | finite s m => rfl
    | _ => cases hx
  | false => rw [unsignZero_of_not_isZero hx]

@[simp]
theorem unsignZero_unsignZero (x : Binary64) : x.unsignZero.unsignZero = x.unsignZero := by
  cases hx : x.isZero with
  | true =>
    rw [unsignZero_of_isZero hx]
    rfl
  | false => rw [unsignZero_of_not_isZero hx, unsignZero_of_not_isZero hx]

/-- Numbers that agree up to the sign of a zero are equal, or they are zeros. -/
theorem eq_or_isZero_of_unsignZero_eq (h : x.unsignZero = y.unsignZero) :
    x = y ∨ x.isZero = true ∧ y.isZero = true := by
  cases hx : x.isZero with
  | true =>
    cases hy : y.isZero with
    | true => exact Or.inr ⟨rfl, rfl⟩
    | false =>
      rw [unsignZero_of_isZero hx, unsignZero_of_not_isZero hy] at h
      rw [← h] at hy
      cases hy
  | false =>
    cases hy : y.isZero with
    | true =>
      rw [unsignZero_of_not_isZero hx, unsignZero_of_isZero hy] at h
      rw [h] at hx
      cases hx
    | false =>
      rw [unsignZero_of_not_isZero hx, unsignZero_of_not_isZero hy] at h
      exact Or.inl h

theorem unsignZero_neg_congr (h : x.unsignZero = y.unsignZero) :
    (-x).unsignZero = (-y).unsignZero := by
  rcases eq_or_isZero_of_unsignZero_eq h with rfl | ⟨hx, hy⟩
  · rfl
  · rw [unsignZero_of_isZero ((isZero_neg x).trans hx),
      unsignZero_of_isZero ((isZero_neg y).trans hy)]

theorem isZero_round_zero (z : Bool) : (round z 0).isZero = true := by
  have hround := round_int (k := 0) (z := z) (by decide)
  rw [Int.cast_zero] at hround
  exact isZero_of_toRat_eq_zero hround.1 hround.2

/-- What sign a zero gets is the only choice in a rounding. -/
theorem unsignZero_round_congr (z z' : Bool) (q : ℚ) :
    (round z q).unsignZero = (round z' q).unsignZero := by
  by_cases hq : q = 0
  · rw [hq, unsignZero_of_isZero (isZero_round_zero z), unsignZero_of_isZero (isZero_round_zero z')]
  · rw [round_congr fun h => absurd h hq]

/-- **Opposites sum up to the opposite**, up to the sign of a zero. -/
theorem unsignZero_neg_add_neg (x y : Binary64) :
    (-x + -y).unsignZero = (-(x + y)).unsignZero := by
  show (add (neg x) (neg y)).unsignZero = (neg (add x y)).unsignZero
  cases x with
  | nan => cases y <;> rfl
  | infinity s =>
    cases y with
    | nan => rfl
    | infinity t => cases s <;> cases t <;> rfl
    | finite t n => rfl
  | finite s m =>
    cases y with
    | nan => rfl
    | infinity t => rfl
    | finite t n =>
      have hround := neg_round (s && t) ((finite s m).toRat + (finite t n).toRat)
      have hleft : (finite (!s) m).toRat = -(finite s m).toRat := toRat_neg (finite s m)
      have hright : (finite (!t) n).toRat = -(finite t n).toRat := toRat_neg (finite t n)
      show (add (finite (!s) m) (finite (!t) n)).unsignZero =
        (-(add (finite s m) (finite t n))).unsignZero
      rw [add_finite, add_finite, hround, hleft, hright, neg_add]
      exact unsignZero_round_congr _ _ _

/-- **A division does not see the sign of a zero** that it divides, but for the sign of the zero
that comes out. -/
theorem unsignZero_div_congr (h : x.unsignZero = y.unsignZero) (d : Binary64) :
    (x / d).unsignZero = (y / d).unsignZero := by
  rcases eq_or_isZero_of_unsignZero_eq h with rfl | ⟨hx, hy⟩
  · rfl
  · cases x with
    | finite s m =>
      cases y with
      | finite s' m' =>
        have hm : m.mantissa = 0 := of_decide_eq_true hx
        have hm' : m'.mantissa = 0 := of_decide_eq_true hy
        show (div (finite s m) d).unsignZero = (div (finite s' m') d).unsignZero
        cases d with
        | nan => rfl
        | infinity t => rfl
        | finite t n =>
          by_cases hn : n.mantissa = 0
          · simp [div, hn, hm, hm']
          · rw [div_finite _ _ _ _ hn, div_finite _ _ _ _ hn, toRat_of_isZero hx,
              toRat_of_isZero hy]
            exact unsignZero_round_congr _ _ _
      | _ => cases hy
    | _ => cases hx

end UnsignZero

end QuadraticSolver.Binary64
