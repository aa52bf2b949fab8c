import QuadraticSolver.Proofs.Decimal.Interval

/-!
# The shortest numeral reads back

Whatever grid the search stops at, its point lies in the interval of the
magnitude, so the numeral rounds to the magnitude again (`round_shortest`).
That the search stops at all is the finest grid's doing: its step is less than
a quarter of a unit, and no interval is that narrow.
-/

namespace QuadraticSolver

/-- The value of a numeral without its sign. -/
def Decimal.distance (d : Decimal) : ℚ :=
  d.significand / (10 ^ d.places : ℕ)

/-! ## Points of a grid -/

namespace RoundingInterval

variable {i : RoundingInterval} {g : DecimalGrid} {k : ℕ}

theorem holds_of_pointOn? (h : i.pointOn? g = some k) : i.holds g k = true := by
  unfold pointOn? at h
  dsimp only at h
  split at h
  next => cases h
  next =>
    split at h
    next hbelow habove =>
      obtain rfl := Option.some.inj h
      split
      · exact hbelow
      · exact habove
    next hbelow _ =>
      obtain rfl := Option.some.inj h
      exact hbelow
    next _ habove =>
      obtain rfl := Option.some.inj h
      exact habove
    next => cases h

/-- A grid finer than a quarter of a unit has a point in the interval: the one just below the
value. -/
theorem pointOn?_isSome (hpassed : i.isPassedBy g = false) (hfine : g.stepNum < g.stepDen)
    (hlow : i.low < i.value) (hhigh : i.value < i.high) : (i.pointOn? g).isSome := by
  have hbelow : i.holds g (i.value * g.stepDen / g.stepNum) = true := by
    have hstep : 0 < g.stepNum :=
      Nat.mul_pos (Nat.mul_pos (by decide) unitsPerOne_pos) (Nat.pow_pos (by decide))
    have hle := Nat.div_mul_le_self (i.value * g.stepDen) g.stepNum
    have hlt := Nat.lt_div_mul_add hstep (a := i.value * g.stepDen)
    have hleft : (i.low + 1) * g.stepDen ≤ i.value * g.stepDen := Nat.mul_le_mul_right _ hlow
    have hright : (i.value + 1) * g.stepDen ≤ i.high * g.stepDen := Nat.mul_le_mul_right _ hhigh
    rw [Nat.succ_mul] at hleft hright
    rw [holds_iff]
    unfold Contains
    split
    · omega
    · omega
  unfold pointOn?
  rw [hpassed, if_neg (by decide)]
  dsimp only
  rw [hbelow]
  cases i.holds g (i.value * g.stepDen / g.stepNum + 1) <;> rfl

end RoundingInterval

namespace Magnitude

variable {m : Magnitude}

/-- A magnitude lies inside its interval, the least one too. -/
theorem interval_low_lt (hm : m.mantissa ≠ 0) : m.interval.low < 4 * m.units := by
  have hunits : 0 < m.units := by
    rw [units_eq]
    exact Nat.mul_pos (Nat.pos_of_ne_zero hm) (Nat.two_pow_pos _)
  rw [interval_low]
  exact Nat.sub_lt (by omega) (Nat.mul_pos m.gapBelow_pos (Nat.two_pow_pos _))

theorem lt_interval_high (m : Magnitude) : 4 * m.units < m.interval.high := by
  have hstep : 0 < 2 ^ m.shift := Nat.two_pow_pos _
  rw [interval_high]
  omega

/-- The finest grid has a point in the interval of every magnitude but zero. -/
theorem pointOn?_finest (hm : m.mantissa ≠ 0) : (m.interval.pointOn? ⟨324⟩).isSome := by
  have hfine : (⟨324⟩ : DecimalGrid).stepNum < (⟨324⟩ : DecimalGrid).stepDen := by
    decide +kernel
  refine RoundingInterval.pointOn?_isSome ?_ hfine (interval_low_lt hm) m.lt_interval_high
  simp only [RoundingInterval.isPassedBy, decide_eq_false_iff_not]
  omega

/-- The search stops, at the finest grid if not before, and at a point in the interval. -/
theorem exists_numeral_of_ne_zero (hm : m.mantissa ≠ 0) (negative : Bool) :
    ∃ g k, m.interval.holds g k = true ∧ m.shortest negative = g.numeral negative k := by
  have hmem : (⟨324⟩ : DecimalGrid) ∈ decimalGrids :=
    List.mem_map.mpr ⟨633, List.mem_range.mpr (by decide), rfl⟩
  have hfound : (m.interval.shortest? negative decimalGrids).isSome :=
    List.findSome?_isSome_iff.mpr ⟨⟨324⟩, hmem, by rw [Option.isSome_map, pointOn?_finest hm]⟩
  obtain ⟨d, hd⟩ := Option.isSome_iff_exists.mp hfound
  obtain ⟨g, -, hg⟩ := List.exists_of_findSome?_eq_some hd
  obtain ⟨k, hk, hnumeral⟩ := Option.map_eq_some_iff.mp hg
  refine ⟨g, k, RoundingInterval.holds_of_pointOn? hk, ?_⟩
  rw [shortest, if_neg hm, hd, Option.getD_some, hnumeral]

theorem negative_shortest (m : Magnitude) (negative : Bool) :
    (m.shortest negative).negative = negative := by
  by_cases hm : m.mantissa = 0
  · rw [shortest, if_pos hm]
  · obtain ⟨g, k, -, hnumeral⟩ := exists_numeral_of_ne_zero hm negative
    rw [hnumeral]
    rfl

end Magnitude

namespace Binary64

/-- A numeral under a sign is rounded as its quotient of units. -/
theorem round_distance (s : Bool) (d : Decimal) :
    round s (signFactor s * d.distance) =
      ofUnits s (d.significand * unitsPerOne) (Nat.pow 10 d.places) :=
  round_signFactor_mul_div s d.significand (Nat.pow_pos (by decide))

/-- Every point in the interval rounds to the magnitude, under either sign. -/
theorem round_distance_of_holds {m : Magnitude} {g : DecimalGrid} {k : ℕ}
    (h : m.interval.holds g k = true) (s negative : Bool) :
    round s (signFactor s * (g.numeral negative k).distance) = finite s m := by
  have hden : 0 < g.stepDen := Nat.pow_pos (by decide)
  have hnearest := Magnitude.nearest?_of_contains hden ((RoundingInterval.holds_iff _ _ _).mp h)
  have hquarters : (g.numeral negative k).significand * unitsPerOne * (4 * g.stepDen) =
      k * g.stepNum * g.stepDen := by
    show k * Nat.pow 10 (-g.exponent).toNat * unitsPerOne * (4 * g.stepDen) =
      k * (4 * unitsPerOne * Nat.pow 10 (-g.exponent).toNat) * g.stepDen
    ring
  rw [round_distance]
  apply ofUnits_of_nearest?
  exact (Magnitude.nearest?_congr hden (Nat.mul_pos (by decide) hden) hquarters).trans hnearest

/-- **The shortest numeral reads back**: its value, under either sign, rounds to the magnitude. -/
theorem round_shortest (s negative : Bool) (m : Magnitude) :
    round s (signFactor s * (m.shortest negative).distance) = finite s m := by
  by_cases hm : m.mantissa = 0
  · rw [Magnitude.shortest, if_pos hm, Magnitude.eq_zero_of_mantissa hm, round_distance,
      Nat.zero_mul, ofUnits_eq_zero s (Nat.pow_pos (by decide))]
    rfl
  · obtain ⟨g, k, hk, hnumeral⟩ := Magnitude.exists_numeral_of_ne_zero hm negative
    rw [hnumeral, round_distance_of_holds hk]

end Binary64

end QuadraticSolver
