import QuadraticSolver.Binary64.Rounding
import QuadraticSolver.Proofs.Exact.HalfEven

/-!
# The magnitude nearest to a quotient

`Magnitude.nearest?` rounds a quotient of whole numbers of units to 53 bits.
What it answers depends on the quotient alone (`nearest?_congr`), is the
quotient itself where that is a magnitude (`nearest?_units`), and is off by at
most half a step elsewhere (`abs_units_sub_le`), and no magnitude is nearer
(`abs_units_sub_le_abs`). It answers nothing where the quotient is past the
greatest shift (`nearest?_eq_none`), and zero below half a unit
(`nearest?_eq_zero`).
-/

namespace QuadraticSolver.Magnitude

/-! ## Fields and units -/

theorem units_eq (m : Magnitude) : m.units = m.mantissa * 2 ^ m.shift := by
  simp only [units, Nat.shiftLeft_eq]

/-- Zero is written in one way. -/
theorem eq_zero_of_mantissa {m : Magnitude} (hm : m.mantissa = 0) : m = zero := by
  obtain ⟨mantissa, shift, hcanonical⟩ := m
  obtain rfl : mantissa = 0 := hm
  obtain rfl : shift = 0 := hcanonical.2.2.resolve_right (by decide)
  rfl

/-- The fields of a magnitude give the magnitude back. -/
theorem ofFields?_fields (m : Magnitude) : ofFields? m.mantissa m.shift = some m :=
  dif_pos m.canonical

theorem fields_of_ofFields? {mantissa shift : ℕ} {m : Magnitude}
    (h : ofFields? mantissa shift = some m) : m.mantissa = mantissa ∧ m.shift = shift := by
  unfold ofFields? at h
  split at h
  · cases h
    exact ⟨rfl, rfl⟩
  · cases h

theorem ofFields?_eq_none {mantissa shift : ℕ} (h : 2045 < shift) :
    ofFields? mantissa shift = none :=
  dif_neg fun hc => absurd hc.2.1 (Nat.not_le_of_lt h)

/-- A mantissa of at most 53 bits at any shift in range is a magnitude: where the leading bit is
missing, it moves left until it is there or the shift is spent. -/
theorem exists_units_eq_of_lt : ∀ (shift : ℕ) {k : ℕ}, k < 2 ^ 53 → shift ≤ 2045 →
    ∃ m : Magnitude, m.units = k * 2 ^ shift
  | 0, k, hk, _ => ⟨⟨k, 0, hk, by decide, Or.inl rfl⟩, units_eq _⟩
  | shift + 1, k, hk, hshift => by
    by_cases hnormal : 2 ^ 52 ≤ k
    · exact ⟨⟨k, shift + 1, hk, hshift, Or.inr hnormal⟩, units_eq _⟩
    · obtain ⟨m, hm⟩ := exists_units_eq_of_lt shift (k := k * 2) (by omega) (by omega)
      refine ⟨m, ?_⟩
      rw [hm, Nat.pow_succ', Nat.mul_assoc]

/-- The same with `2 ^ 53` itself, which is a mantissa at the next shift. -/
theorem exists_units_eq {k shift : ℕ} (hk : k ≤ 2 ^ 53) (hshift : shift < 2045) :
    ∃ m : Magnitude, m.units = k * 2 ^ shift := by
  rcases Nat.lt_or_eq_of_le hk with hlt | rfl
  · exact exists_units_eq_of_lt shift hlt hshift.le
  · obtain ⟨m, hm⟩ := exists_units_eq_of_lt (shift + 1) (k := 2 ^ 52) (by decide) hshift
    refine ⟨m, ?_⟩
    rw [hm, ← Nat.pow_add, ← Nat.pow_add, Nat.add_left_comm 52 shift 1, Nat.add_comm shift]

/-! ## The quotient decides -/

theorem nearest?_mul_mul {k : ℕ} (h : 0 < k) (num den : ℕ) :
    nearest? (k * num) (k * den) = nearest? num den := by
  have hquotient : k * num / (k * den) = num / den := Nat.mul_div_mul_left num den h
  unfold nearest?
  dsimp only
  rw [hquotient, Nat.shiftLeft_eq, Nat.mul_assoc, ← Nat.shiftLeft_eq, halfEven_mul_mul h]

/-- Equal quotients have the same nearest magnitude. -/
theorem nearest?_congr {num den num' den' : ℕ} (h : 0 < den) (h' : 0 < den')
    (heq : num * den' = num' * den) : nearest? num den = nearest? num' den' := by
  calc nearest? num den
      = nearest? (den' * num) (den' * den) := (nearest?_mul_mul h' num den).symm
    _ = nearest? (den * num') (den * den') := by
      rw [Nat.mul_comm den' num, heq, Nat.mul_comm num' den, Nat.mul_comm den' den]
    _ = nearest? num' den' := nearest?_mul_mul h num' den'

/-! ## On a magnitude -/

/-- The shift that `nearest?` picks: the quotient has 53 bits there, or fewer at the least shift. -/
theorem log2_div_sub {num den shift : ℕ} (hden : 0 < den)
    (hlow : shift = 0 ∨ 2 ^ 52 * (2 ^ shift * den) ≤ num)
    (hhigh : num < 2 ^ 53 * (2 ^ shift * den)) : (num / den).log2 - 52 = shift := by
  have habove : num / den < 2 ^ (53 + shift) := by
    rw [Nat.div_lt_iff_lt_mul hden, Nat.pow_add, Nat.mul_assoc]
    exact hhigh
  rcases hlow with rfl | hlow
  · have hlog : (num / den).log2 < 53 := by
      rcases Nat.eq_zero_or_pos (num / den) with hzero | hpos
      · rw [hzero]
        decide
      · exact (Nat.log2_lt hpos.ne').mpr habove
    omega
  · have hbelow : 2 ^ (52 + shift) ≤ num / den := by
      rw [Nat.le_div_iff_mul_le hden, Nat.pow_add, Nat.mul_assoc]
      exact hlow
    have hne : num / den ≠ 0 := ((Nat.two_pow_pos _).trans_le hbelow).ne'
    have hlog : (num / den).log2 = 52 + shift := by
      rw [Nat.log2_eq_iff hne]
      exact ⟨hbelow, by rwa [Nat.add_right_comm]⟩
    omega

/-- The shift that `nearest?` picks for a magnitude is the magnitude's own. -/
theorem log2_units_sub (m : Magnitude) : m.units.log2 - 52 = m.shift := by
  obtain ⟨hlt, -, hnormal⟩ := m.canonical
  have hunits : m.units / 1 = m.units := Nat.div_one _
  rw [← hunits]
  apply log2_div_sub Nat.one_pos
  · rw [units_eq, Nat.mul_one]
    exact hnormal.imp_right (Nat.mul_le_mul_right _)
  · rw [units_eq, Nat.mul_one]
    exact Nat.mul_lt_mul_of_pos_right hlt (Nat.two_pow_pos _)

/-- At the magnitude's own shift, its mantissa tells it. -/
theorem nearest?_of_shift {m : Magnitude} {num den : ℕ} (hshift : (num / den).log2 - 52 = m.shift)
    (hmantissa : halfEven num (den * 2 ^ m.shift) = m.mantissa) : nearest? num den = some m := by
  have hcarry : m.mantissa ≠ 9007199254740992 := Nat.ne_of_lt m.canonical.1
  unfold nearest?
  dsimp only
  rw [hshift, Nat.shiftLeft_eq, hmantissa, if_neg hcarry, ofFields?_fields]

/-- One shift below, a carry leads to the least mantissa of the magnitude's shift. -/
theorem nearest?_of_carry {m : Magnitude} {num den shift : ℕ}
    (hshift : (num / den).log2 - 52 = shift)
    (hcarry : halfEven num (den * 2 ^ shift) = 2 ^ 53) (hm : m.mantissa = 2 ^ 52)
    (hm' : m.shift = shift + 1) : nearest? num den = some m := by
  have hfields := ofFields?_fields m
  unfold nearest?
  dsimp only
  rw [hshift, Nat.shiftLeft_eq, hcarry, ← hm', if_pos (by decide)]
  rwa [hm] at hfields

/-- **Rounding leaves the numbers of the format alone.** -/
theorem nearest?_units (m : Magnitude) {den : ℕ} (h : 0 < den) :
    nearest? (m.units * den) den = some m := by
  have hone : nearest? (m.units * den) den = nearest? m.units 1 :=
    nearest?_congr h Nat.one_pos (Nat.mul_one _)
  rw [hone]
  apply nearest?_of_shift
  · rw [Nat.div_one, log2_units_sub]
  · rw [Nat.one_mul, units_eq, halfEven_mul_right _ (Nat.two_pow_pos _)]

/-! ## Beside a magnitude -/

/-- What `nearest?` answers, in units: the carry into a 54th bit changes the fields and leaves the
value. -/
theorem units_of_nearest? {num den : ℕ} {m : Magnitude} (h : nearest? num den = some m) :
    m.units = halfEven num (den * 2 ^ ((num / den).log2 - 52)) * 2 ^ ((num / den).log2 - 52) := by
  unfold nearest? at h
  dsimp only at h
  rw [Nat.shiftLeft_eq] at h
  rw [units_eq]
  split at h
  next hcarry =>
    obtain ⟨hm, hs⟩ := fields_of_ofFields? h
    rw [hm, hs, hcarry, Nat.pow_succ', ← Nat.mul_assoc]
  next =>
    obtain ⟨hm, hs⟩ := fields_of_ofFields? h
    rw [hm, hs]

/-- The step between the magnitudes around a quotient is one unit, or at most the
`2 ^ -52`-th part of the quotient. -/
theorem step_eq_one_or_le (num : ℕ) {den : ℕ} (h : 0 < den) :
    2 ^ ((num / den).log2 - 52) = 1 ∨ 2 ^ ((num / den).log2 - 52) * 2 ^ 52 * den ≤ num := by
  by_cases hlog : (num / den).log2 ≤ 52
  · left
    rw [Nat.sub_eq_zero_of_le hlog, Nat.pow_zero]
  · right
    have hne : num / den ≠ 0 := by
      intro hzero
      rw [hzero] at hlog
      exact hlog (by decide)
    have hpow : 2 ^ (num / den).log2 ≤ num / den := Nat.log2_self_le hne
    rw [← Nat.pow_add, Nat.sub_add_cancel (by omega)]
    exact (Nat.le_div_iff_mul_le h).mp hpow

/-- Half a step, where the quotient has 53 bits before the point. -/
theorem step_div_two_le {num den step : ℕ} (h : 0 < den) (hle : step * 2 ^ 52 * den ≤ num) :
    (step : ℚ) / 2 ≤ (num / den : ℚ) / 2 ^ 53 := by
  have hpos : (0 : ℚ) < den := by exact_mod_cast h
  have hle' : (step : ℚ) * 2 ^ 52 * den ≤ num := by exact_mod_cast hle
  rw [div_div, le_div_iff₀ (by positivity)]
  linarith

/-- What `nearest?` answers is within half a step, and no number of steps is nearer. -/
theorem abs_units_sub_le_step {num den : ℕ} (hden : 0 < den) {m : Magnitude}
    (h : nearest? num den = some m) :
    |(m.units : ℚ) - num / den| ≤ (2 ^ ((num / den).log2 - 52) : ℕ) / 2 ∧
      ∀ k : ℕ, |(m.units : ℚ) - num / den| ≤
        |((k * 2 ^ ((num / den).log2 - 52) : ℕ) : ℚ) - num / den| := by
  have hunits := units_of_nearest? h
  have hpos : 0 < 2 ^ ((num / den).log2 - 52) := Nat.two_pow_pos _
  generalize 2 ^ ((num / den).log2 - 52) = step at hunits hpos ⊢
  have hstep : (0 : ℚ) < step := by exact_mod_cast hpos
  have hscaled : (num : ℚ) / (den * step : ℕ) * step = num / den := by
    push_cast
    field_simp
  have hfactor : ∀ n : ℕ, ((n * step : ℕ) : ℚ) - num / den =
      (n - num / (den * step : ℕ)) * step := by
    intro n
    rw [Nat.cast_mul, sub_mul, hscaled]
  have hden_step := Nat.mul_pos hden hpos
  rw [hunits, hfactor, abs_mul, abs_of_pos hstep]
  refine ⟨?_, fun k => ?_⟩
  · have hhalf := mul_le_mul_of_nonneg_right (abs_halfEven_sub_le_half num hden_step) hstep.le
    linarith
  · rw [hfactor, abs_mul, abs_of_pos hstep]
    exact mul_le_mul_of_nonneg_right (abs_halfEven_sub_le num k hden_step) hstep.le

/-- The error of a nearest magnitude: the `2 ^ -53`-th part of the quotient and half a unit. -/
theorem abs_units_sub_le {num den : ℕ} (hden : 0 < den) {m : Magnitude}
    (h : nearest? num den = some m) :
    |(m.units : ℚ) - num / den| ≤ (num / den : ℚ) / 2 ^ 53 + 1 / 2 := by
  have hhalf := (abs_units_sub_le_step hden h).1
  have hpos : (0 : ℚ) < den := by exact_mod_cast hden
  rcases step_eq_one_or_le num hden with hone | hle
  · have : (0 : ℚ) ≤ (num / den : ℚ) / 2 ^ 53 := by positivity
    rw [hone, Nat.cast_one] at hhalf
    linarith
  · have := step_div_two_le hden hle
    linarith

/-- Where the quotient has 53 bits before the point, no half unit is lost. -/
theorem abs_units_sub_le_of_normal {num den : ℕ} (hden : 0 < den) (hnormal : 2 ^ 52 * den ≤ num)
    {m : Magnitude} (h : nearest? num den = some m) :
    |(m.units : ℚ) - num / den| ≤ (num / den : ℚ) / 2 ^ 53 := by
  refine (abs_units_sub_le_step hden h).1.trans (step_div_two_le hden ?_)
  rcases step_eq_one_or_le num hden with hone | hle
  · rwa [hone, Nat.one_mul]
  · exact hle

/-- **No magnitude is nearer to the quotient** than the one that `nearest?` answers. -/
theorem abs_units_sub_le_abs {num den : ℕ} (hden : 0 < den) {m : Magnitude}
    (h : nearest? num den = some m) (l : Magnitude) :
    |(m.units : ℚ) - num / den| ≤ |(l.units : ℚ) - num / den| := by
  have hmultiple := (abs_units_sub_le_step hden h).2
  by_cases hshift : (num / den).log2 - 52 ≤ l.shift
  · have hunits : l.units = l.mantissa * 2 ^ (l.shift - ((num / den).log2 - 52)) *
        2 ^ ((num / den).log2 - 52) := by
      rw [Nat.mul_assoc, ← Nat.pow_add, Nat.sub_add_cancel hshift, units_eq]
    rw [hunits]
    exact hmultiple _
  · -- below the least magnitude with 53 bits at this shift, which is nearer and is no nearest one
    have hpos : (0 : ℚ) < den := by exact_mod_cast hden
    have hbelow : l.units ≤ 2 ^ 52 * 2 ^ ((num / den).log2 - 52) := by
      calc l.units = l.mantissa * 2 ^ l.shift := units_eq l
        _ ≤ 2 ^ 53 * 2 ^ l.shift := Nat.mul_le_mul_right _ l.canonical.1.le
        _ = 2 ^ 52 * 2 ^ (l.shift + 1) := by ring
        _ ≤ _ := Nat.mul_le_mul_left _ (Nat.pow_le_pow_right (by decide) (by omega))
    have habove : 2 ^ 52 * 2 ^ ((num / den).log2 - 52) * den ≤ num := by
      rcases step_eq_one_or_le num hden with hone | hle
      · rw [Nat.pow_eq_one] at hone
        omega
      · rwa [Nat.mul_comm (2 ^ 52)]
    have hbelow' : (l.units : ℚ) ≤ (2 ^ 52 * 2 ^ ((num / den).log2 - 52) : ℕ) := by
      exact_mod_cast hbelow
    have habove' : ((2 ^ 52 * 2 ^ ((num / den).log2 - 52) : ℕ) : ℚ) ≤ num / den := by
      rw [le_div_iff₀ hpos]
      exact_mod_cast habove
    have hle := hmultiple (2 ^ 52)
    have hbelow : ((2 ^ 52 * 2 ^ ((num / den).log2 - 52) : ℕ) : ℚ) - num / den ≤ 0 := by linarith
    rw [abs_of_nonpos hbelow] at hle
    rw [abs_of_nonpos (by linarith : (l.units : ℚ) - num / den ≤ 0)]
    linarith

/-! ## Past the greatest, below the least -/

/-- A quotient that is not too great has a nearest magnitude. -/
theorem exists_nearest? {num den : ℕ} (h : (num / den).log2 ≤ 2096) :
    ∃ m, nearest? num den = some m := by
  have hle := div_le_halfEven num (den * 2 ^ ((num / den).log2 - 52))
  have hge := halfEven_le_div_succ num (den * 2 ^ ((num / den).log2 - 52))
  rw [← Nat.div_div_eq_div_mul] at hle hge
  have hlow : (num / den).log2 - 52 = 0 ∨
      2 ^ 52 ≤ num / den / 2 ^ ((num / den).log2 - 52) := by
    by_cases hlog : (num / den).log2 ≤ 52
    · exact .inl (Nat.sub_eq_zero_of_le hlog)
    · right
      have hne : num / den ≠ 0 := by
        intro hzero
        rw [hzero] at hlog
        exact hlog (by decide)
      rw [Nat.le_div_iff_mul_le (Nat.two_pow_pos _), ← Nat.pow_add,
        Nat.add_sub_cancel' (Nat.le_of_not_le hlog)]
      exact Nat.log2_self_le hne
  have hhigh : num / den / 2 ^ ((num / den).log2 - 52) < 2 ^ 53 := by
    rw [Nat.div_lt_iff_lt_mul (Nat.two_pow_pos _), ← Nat.pow_add]
    exact Nat.lt_log2_self.trans_le (Nat.pow_le_pow_right (by decide) (by omega))
  unfold nearest?
  dsimp only
  rw [Nat.shiftLeft_eq]
  split
  next => exact ⟨_, dif_pos ⟨by decide, by omega, .inr (by decide)⟩⟩
  next hne => exact ⟨_, dif_pos ⟨by omega, by omega, by omega⟩⟩

/-- A quotient too great for every shift overflows. -/
theorem nearest?_eq_none {num den : ℕ} (h : 2098 ≤ (num / den).log2) : nearest? num den = none := by
  unfold nearest?
  dsimp only
  split
  · exact ofFields?_eq_none (by omega)
  · exact ofFields?_eq_none (by omega)

/-- A quotient below one half is nearer to zero than to any other magnitude. -/
theorem nearest?_eq_zero {num den : ℕ} (h : 2 * num < den) : nearest? num den = some zero := by
  have hquotient : num / den = 0 := Nat.div_eq_of_lt (by omega)
  have hrounded : halfEven num den = 0 := by
    unfold halfEven
    dsimp only
    rw [Nat.mod_eq_of_lt (by omega), if_pos h, hquotient]
  have hlog : Nat.log2 0 - 52 = 0 := by decide
  unfold nearest?
  dsimp only
  rw [hquotient, hlog, Nat.shiftLeft_zero, hrounded]
  rfl

end QuadraticSolver.Magnitude
