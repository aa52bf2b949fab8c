import QuadraticSolver.Proofs.Binary64.Order

/-!
# Differences and steps

A finite number is a whole number of steps of its shift, and a number with a
smaller shift is at most `2 ^ 53` of its own steps. Two things follow. A
difference that is no greater than either number has few enough steps to be a
number of the format itself, so it is not rounded (`round_sub_exact`). And a
number that is greater than another is greater by at least the `2 ^ -53`-th part
of itself (`toRat_le_mul_sub`). A number that is not too small stays in the format
when it is divided by a power of two (`round_div_two_pow`).
-/

namespace QuadraticSolver

namespace Magnitude

variable {m n : Magnitude}

theorem units_lt (m : Magnitude) : m.units < 2 ^ 53 * 2 ^ m.shift := by
  rw [units_eq]
  exact Nat.mul_lt_mul_of_pos_right m.canonical.1 (Nat.two_pow_pos _)

theorem two_pow_dvd_units {k : ℕ} (h : k ≤ m.shift) : 2 ^ k ∣ m.units := by
  rw [units_eq]
  exact (Nat.pow_dvd_pow 2 h).mul_left _

/-- A whole number of steps that is at most a magnitude with these steps is a magnitude. -/
theorem exists_units_eq_of_dvd {d shift : ℕ} (hdvd : 2 ^ shift ∣ d) (hle : d ≤ m.units)
    (hshift : m.shift = shift) : ∃ l : Magnitude, l.units = d := by
  obtain ⟨k, rfl⟩ := hdvd
  rw [Nat.mul_comm] at hle ⊢
  have hlt : k < 2 ^ 53 := by
    have := hle.trans_lt m.units_lt
    rw [hshift] at this
    exact Nat.lt_of_mul_lt_mul_right this
  exact exists_units_eq_of_lt shift hlt (hshift ▸ m.canonical.2.1)

/-- A whole number of the finer steps of two magnitudes that is at most either of them is a
magnitude. -/
theorem exists_units_eq_of_le {d : ℕ} (hm : d ≤ m.units) (hn : d ≤ n.units)
    (hdvd : 2 ^ min m.shift n.shift ∣ d) : ∃ l : Magnitude, l.units = d := by
  rcases Nat.le_total m.shift n.shift with h | h
  · rw [Nat.min_eq_left h] at hdvd
    exact exists_units_eq_of_dvd hdvd hm rfl
  · rw [Nat.min_eq_right h] at hdvd
    exact exists_units_eq_of_dvd hdvd hn rfl

/-- **The gap between two magnitudes** is at least the `2 ^ -53`-th part of the greater one. -/
theorem units_le_mul_sub (h : n.units < m.units) : m.units ≤ 2 ^ 53 * (m.units - n.units) := by
  by_cases hshift : m.shift ≤ n.shift
  · -- both are whole numbers of the steps of the greater one, so they are a step apart
    have hdvd : 2 ^ m.shift ∣ m.units - n.units :=
      Nat.dvd_sub (two_pow_dvd_units le_rfl) (two_pow_dvd_units hshift)
    calc m.units ≤ 2 ^ 53 * 2 ^ m.shift := m.units_lt.le
      _ ≤ 2 ^ 53 * (m.units - n.units) :=
        Nat.mul_le_mul_left _ (Nat.le_of_dvd (Nat.sub_pos_of_lt h) hdvd)
  · have hnormal : 2 ^ 52 ≤ m.mantissa := m.canonical.2.2.resolve_left (by omega)
    have hlow : 2 ^ 53 * 2 ^ n.shift ≤ m.units := by
      calc 2 ^ 53 * 2 ^ n.shift = 2 ^ 52 * 2 ^ (n.shift + 1) := by ring
        _ ≤ m.mantissa * 2 ^ m.shift :=
          Nat.mul_le_mul hnormal (Nat.pow_le_pow_right (by decide) (by omega))
        _ = m.units := m.units_eq.symm
    have hhigh : n.units ≤ (2 ^ 53 - 1) * 2 ^ n.shift := by
      rw [units_eq]
      exact Nat.mul_le_mul_right _ (Nat.le_sub_one_of_lt n.canonical.1)
    generalize 2 ^ n.shift = step at hlow hhigh
    omega

end Magnitude

namespace Binary64

variable {x y : Binary64} {z : Bool}

/-- A finite number is an integer number of units. -/
theorem exists_toRat_eq_div (hx : x.isFinite = true) :
    ∃ (m : Magnitude) (k : ℤ), k.natAbs = m.units ∧ x.toRat = k / unitsPerOne := by
  obtain ⟨s, m, rfl⟩ := exists_of_isFinite hx
  refine ⟨m, if s then -m.units else m.units, ?_, ?_⟩
  · cases s <;> simp
  · rw [toRat_finite]
    cases s <;> simp [signFactor, neg_div]

/-- A finite number that is not zero is at least one unit away from it. -/
theorem two_mul_halfUnit_le (hx : x.isFinite = true) (hne : x.toRat ≠ 0) :
    2 * halfUnit ≤ |x.toRat| := by
  have hU : (0 : ℚ) < unitsPerOne := by exact_mod_cast unitsPerOne_pos
  obtain ⟨s, m, rfl⟩ := exists_of_isFinite hx
  have hpos := abs_pos.mpr hne
  rw [abs_toRat_finite] at hpos ⊢
  have hone : (1 : ℚ) ≤ m.units := by
    have hunits : (0 : ℚ) < m.units := by
      rw [← div_mul_cancel₀ (m.units : ℚ) hU.ne']
      exact mul_pos hpos hU
    exact_mod_cast hunits
  calc 2 * halfUnit = 1 / unitsPerOne := by
        unfold halfUnit
        field_simp
    _ ≤ m.units / unitsPerOne := div_le_div_of_nonneg_right hone hU.le

/-- **A small difference is exact.** -/
theorem round_sub_exact (hx : x.isFinite = true) (hy : y.isFinite = true)
    (h : |x.toRat - y.toRat| ≤ |x.toRat|) (h' : |x.toRat - y.toRat| ≤ |y.toRat|) :
    (round z (x.toRat - y.toRat)).isFinite = true ∧
      (round z (x.toRat - y.toRat)).toRat = x.toRat - y.toRat := by
  have hU : (0 : ℚ) < unitsPerOne := by exact_mod_cast unitsPerOne_pos
  obtain ⟨m, k, hk, hxk⟩ := exists_toRat_eq_div hx
  obtain ⟨n, l, hl, hyl⟩ := exists_toRat_eq_div hy
  have habs : ∀ i : ℤ, |(i : ℚ) / unitsPerOne| = (i.natAbs : ℕ) / unitsPerOne := by
    intro i
    rw [abs_div, abs_of_pos hU, Nat.cast_natAbs, Int.cast_abs]
  have hdiff : x.toRat - y.toRat = ((k - l : ℤ) : ℚ) / unitsPerOne := by
    rw [hxk, hyl, Int.cast_sub, sub_div]
  rw [hdiff, habs] at h h'
  have hm : (k - l).natAbs ≤ m.units := by
    rw [hxk, habs, div_le_div_iff_of_pos_right hU, hk] at h
    exact_mod_cast h
  have hn : (k - l).natAbs ≤ n.units := by
    rw [hyl, habs, div_le_div_iff_of_pos_right hU, hl] at h'
    exact_mod_cast h'
  have hdvd : 2 ^ min m.shift n.shift ∣ (k - l).natAbs := by
    have hdvdk : 2 ^ min m.shift n.shift ∣ k.natAbs :=
      hk ▸ Magnitude.two_pow_dvd_units (Nat.min_le_left _ _)
    have hdvdl : 2 ^ min m.shift n.shift ∣ l.natAbs :=
      hl ▸ Magnitude.two_pow_dvd_units (Nat.min_le_right _ _)
    exact Int.natCast_dvd.mp (dvd_sub (Int.natCast_dvd.mpr hdvdk) (Int.natCast_dvd.mpr hdvdl))
  obtain ⟨d, hd⟩ := Magnitude.exists_units_eq_of_le hm hn hdvd
  have hunits : |x.toRat - y.toRat| = d.units / unitsPerOne := by
    rw [hdiff, habs, hd]
  rw [round_eq_finite z hunits]
  exact ⟨rfl, by rw [toRat_finite, ← hunits, signFactor_roundSign]⟩

/-- **A greater number is greater by a part of itself.** -/
theorem toRat_le_mul_sub (hx : x.isFinite = true) (hy : y.isFinite = true)
    (h : y.toRat < x.toRat) : x.toRat ≤ 2 ^ 53 * (x.toRat - y.toRat) := by
  have hU : (0 : ℚ) < unitsPerOne := by exact_mod_cast unitsPerOne_pos
  by_cases hpos : 0 < y.toRat
  · obtain ⟨s, m, rfl⟩ := exists_of_isFinite hx
    obtain ⟨t, n, rfl⟩ := exists_of_isFinite hy
    have hm := abs_toRat_finite s m
    have hn := abs_toRat_finite t n
    rw [abs_of_pos (hpos.trans h)] at hm
    rw [abs_of_pos hpos] at hn
    rw [hm, hn] at h ⊢
    have hlt : n.units < m.units := by
      exact_mod_cast (div_lt_div_iff_of_pos_right hU).mp h
    have hgap : (m.units : ℚ) ≤ 2 ^ 53 * (m.units - n.units) := by
      have := Magnitude.units_le_mul_sub hlt
      zify [hlt.le] at this
      exact_mod_cast this
    rw [← sub_div, ← mul_div_assoc]
    exact div_le_div_of_nonneg_right hgap hU.le
  · linarith

/-- A number that is not too small, divided by a power of two. -/
theorem round_div_two_pow {j : ℕ} (hj : j ≤ 100) (hx : x.isFinite = true)
    (h : 1 / 2 ^ 20 ≤ |x.toRat|) :
    (round z (x.toRat / 2 ^ j)).isFinite = true ∧
      (round z (x.toRat / 2 ^ j)).toRat = x.toRat / 2 ^ j := by
  have hU : (0 : ℚ) < unitsPerOne := by exact_mod_cast unitsPerOne_pos
  obtain ⟨s, m, rfl⟩ := exists_of_isFinite hx
  have hshift : j ≤ m.shift := by
    by_contra hlt
    have hunits : m.units < 2 ^ 153 := by
      calc m.units < 2 ^ 53 * 2 ^ m.shift := m.units_lt
        _ ≤ 2 ^ 53 * 2 ^ 100 :=
          Nat.mul_le_mul_left _ (Nat.pow_le_pow_right (by decide) (by omega))
        _ = 2 ^ 153 := by rw [← Nat.pow_add]
    have hone : 2 ^ 173 ≤ unitsPerOne := two_pow_le_unitsPerOne (by decide)
    have hunits' : (m.units : ℚ) < 2 ^ 153 := by exact_mod_cast hunits
    have hone' : (2 : ℚ) ^ 173 ≤ unitsPerOne := by exact_mod_cast hone
    rw [abs_toRat_finite, le_div_iff₀ hU] at h
    linarith
  obtain ⟨n, hn⟩ := Magnitude.exists_units_eq_of_lt (m.shift - j) m.canonical.1
    ((Nat.sub_le _ _).trans m.canonical.2.1)
  have hunits : (m.units : ℚ) = n.units * 2 ^ j := by
    have : m.units = n.units * 2 ^ j := by
      rw [hn, Nat.mul_assoc, ← Nat.pow_add, Nat.sub_add_cancel hshift, Magnitude.units_eq]
    exact_mod_cast this
  have habs : |(finite s m).toRat / 2 ^ j| = n.units / unitsPerOne := by
    rw [abs_div, abs_toRat_finite, abs_of_pos (by positivity : (0 : ℚ) < 2 ^ j), hunits]
    field_simp
  rw [round_eq_finite z habs]
  exact ⟨rfl, by rw [toRat_finite _ n, ← habs, signFactor_roundSign]⟩

end Binary64

end QuadraticSolver
