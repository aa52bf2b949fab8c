import QuadraticSolver.Proofs.Binary64.Order
import QuadraticSolver.Proofs.Decimal.Canonical
import QuadraticSolver.Proofs.Decimal.Literal
import QuadraticSolver.Proofs.Decimal.Trimming
import QuadraticSolver.Proofs.Exact.HalfEven

/-!
# The text of a rounded number

`Binary64.fixedText` is the canonical writing of the nearest multiple of
`10 ^ -places` (`fixedText_law`). Three notions say what that is, and none of
them refers to how the text is made:

- `NearestInPlaces`: no other multiple is nearer to the exact value, and of two
  that are equally near the even one is meant. There is one at most, and a
  greater value has no smaller one (`NearestInPlaces.mono`).
- `Positional`: the parts of a text, with the value that they have by place.
- `Positional.Canonical`: digits only, no superfluous zero at either end, a
  point only where the value is no integer, and no sign on zero.

So two numbers share a text exactly if they round to the same multiple, and the
texts, read back, are in the order of the numbers. An integer is shown where the
number is within half a unit of the last place of it (`fixed_eq_ofInt_iff`). The
places are not bounded by any law here.
-/

namespace QuadraticSolver

/-! ## The nearest multiple -/

/-- Of all multiples of `10 ^ -places` the `k`-th is nearest to the value, and of two that are
equally near it is the even one. -/
structure NearestInPlaces (places : ℕ) (q : ℚ) (k : ℤ) : Prop where
  near : ∀ j : ℤ, |q - k / 10 ^ places| ≤ |q - j / 10 ^ places|
  even : ∀ j : ℤ, j ≠ k → |q - j / 10 ^ places| = |q - k / 10 ^ places| → Even k

namespace NearestInPlaces

variable {places : ℕ} {q r : ℚ} {k l : ℤ}

/-- The distance to a multiple, counted in units of the last place. -/
theorem abs_sub_div (places : ℕ) (q : ℚ) (k : ℤ) :
    |q - k / 10 ^ places| = |10 ^ places * q - k| / 10 ^ places := by
  have hten : (0 : ℚ) < 10 ^ places := by positivity
  have hsplit : q - k / 10 ^ places = (10 ^ places * q - k) / 10 ^ places := by
    rw [sub_div, mul_div_cancel_left₀ _ hten.ne']
  rw [hsplit, abs_div, abs_of_pos hten]

/-- Different integers are one apart at least. -/
theorem one_le_abs_sub_add (q : ℚ) (h : l ≠ k) : 1 ≤ |q - l| + |q - k| := by
  have hapart : (1 : ℚ) ≤ |(l : ℚ) - k| := by
    exact_mod_cast Int.one_le_abs (sub_ne_zero.mpr h)
  have htriangle := abs_sub_le (l : ℚ) q k
  rw [abs_sub_comm (l : ℚ) q] at htriangle
  exact hapart.trans htriangle

/-- Within half a unit of the last place, and even where it is just half a unit, is enough. -/
theorem of_le_half (hhalf : |10 ^ places * q - k| ≤ 1 / 2)
    (heven : |10 ^ places * q - k| = 1 / 2 → Even k) : NearestInPlaces places q k where
  near := by
    intro j
    rw [abs_sub_div, abs_sub_div]
    refine div_le_div_of_nonneg_right ?_ (by positivity)
    by_cases hj : j = k
    · rw [hj]
    · linarith [one_le_abs_sub_add (10 ^ places * q) hj]
  even := by
    intro j hj htie
    have hten : (10 : ℚ) ^ places ≠ 0 := by positivity
    rw [abs_sub_div, abs_sub_div, div_left_inj' hten] at htie
    refine heven (le_antisymm hhalf ?_)
    linarith [one_le_abs_sub_add (10 ^ places * q) hj]

theorem near_scaled (h : NearestInPlaces places q k) (j : ℤ) :
    |10 ^ places * q - k| ≤ |10 ^ places * q - j| := by
  have hnear := h.near j
  rw [abs_sub_div, abs_sub_div] at hnear
  exact (div_le_div_iff_of_pos_right (by positivity)).mp hnear

/-- **A greater value has no smaller multiple.** -/
theorem mono (hk : NearestInPlaces places q k) (hl : NearestInPlaces places r l) (h : q ≤ r) :
    k ≤ l := by
  by_contra hlt
  rw [not_le] at hlt
  have hlt' : (l : ℚ) < k := by exact_mod_cast hlt
  have hscaled : 10 ^ places * q ≤ 10 ^ places * r := mul_le_mul_of_nonneg_left h (by positivity)
  -- both values are at the middle of the two multiples, and each of these is even
  have hlow : (k : ℚ) + l ≤ 2 * (10 ^ places * q) := by
    apply Binary64.add_le_two_mul_of_abs_sub_le hlt'
    rw [abs_sub_comm, abs_sub_comm (l : ℚ)]
    exact hk.near_scaled l
  have hhigh : 2 * (10 ^ places * r) ≤ (k : ℚ) + l := by
    apply Binary64.two_mul_le_add_of_abs_sub_le hlt'
    rw [abs_sub_comm, abs_sub_comm (k : ℚ)]
    exact hl.near_scaled k
  have hmiddle : 2 * (10 ^ places * q) = (k : ℚ) + l := by linarith
  have hsame : 10 ^ places * q = 10 ^ places * r := by linarith
  obtain rfl : q = r := mul_left_cancel₀ (by positivity) hsame
  have htie : |q - k / 10 ^ places| = |q - l / 10 ^ places| :=
    le_antisymm (hk.near l) (hl.near k)
  have hevenk := hk.even l hlt.ne htie.symm
  have hevenl := hl.even k hlt.ne' htie
  obtain ⟨a, rfl⟩ := hevenk
  obtain ⟨b, rfl⟩ := hevenl
  -- so there is a multiple between them, and it is nearer
  have hbetween := hk.near_scaled (b + b + 1)
  push_cast at hmiddle hbetween hlt'
  have hgap : (b : ℚ) + 1 ≤ a := by
    have hgap' : b + 1 ≤ a := by omega
    exact_mod_cast hgap'
  rw [abs_of_nonpos (by linarith), abs_of_nonneg (by linarith)] at hbetween
  linarith

/-- An integer is a multiple itself, whatever the places. -/
theorem intCast (places : ℕ) (n : ℤ) : NearestInPlaces places n (n * 10 ^ places) := by
  have hexact : |10 ^ places * (n : ℚ) - ((n * 10 ^ places : ℤ) : ℚ)| = 0 := by
    push_cast
    rw [mul_comm, sub_self, abs_zero]
  apply of_le_half
  · rw [hexact]
    norm_num
  · intro htie
    rw [hexact] at htie
    norm_num at htie

/-- There is one nearest multiple at most. -/
theorem unique (hk : NearestInPlaces places q k) (hl : NearestInPlaces places q l) : k = l :=
  le_antisymm (hk.mono hl le_rfl) (hl.mono hk le_rfl)

end NearestInPlaces

/-! ## Rounded numbers -/

namespace Magnitude

variable {places : ℕ} {s : Bool} {m : Magnitude} {n : ℤ}

/-- The multiple that a number is rounded to, under its sign. -/
def signedInPlaces (places : ℕ) (s : Bool) (m : Magnitude) : ℤ :=
  if s then -m.inPlaces places else m.inPlaces places

theorem cast_signedInPlaces (places : ℕ) (s : Bool) (m : Magnitude) :
    (m.signedInPlaces places s : ℚ) = Binary64.signFactor s * m.inPlaces places := by
  unfold signedInPlaces
  cases s <;> simp [Binary64.signFactor]

/-- The distance to that multiple is the one of the quotient that is rounded. -/
theorem abs_sub_signedInPlaces (places : ℕ) (s : Bool) (m : Magnitude) :
    |10 ^ places * (Binary64.finite s m).toRat - m.signedInPlaces places s| =
      |(m.inPlaces places : ℚ) - (m.units * 10 ^ places : ℕ) / unitsPerOne| := by
  have hsplit : 10 ^ places * (Binary64.finite s m).toRat - m.signedInPlaces places s =
      -(Binary64.signFactor s *
        (m.inPlaces places - (m.units * 10 ^ places : ℕ) / unitsPerOne)) := by
    rw [Binary64.toRat_finite, cast_signedInPlaces]
    push_cast
    ring
  rw [hsplit, abs_neg, abs_mul, Binary64.abs_signFactor, one_mul]

/-- A rounded number is within half a unit of its last place. -/
theorem abs_sub_signedInPlaces_le (places : ℕ) (s : Bool) (m : Magnitude) :
    |10 ^ places * (Binary64.finite s m).toRat - m.signedInPlaces places s| ≤ 1 / 2 := by
  rw [abs_sub_signedInPlaces]
  exact abs_halfEven_sub_le_half (m.units * 10 ^ places) unitsPerOne_pos

/-- **The multiple that a number is rounded to is the nearest.** -/
theorem nearestInPlaces (places : ℕ) (s : Bool) (m : Magnitude) :
    NearestInPlaces places (Binary64.finite s m).toRat (m.signedInPlaces places s) := by
  apply NearestInPlaces.of_le_half (abs_sub_signedInPlaces_le places s m)
  intro htie
  rw [abs_sub_signedInPlaces] at htie
  have heven : Even (m.inPlaces places : ℤ) :=
    (Int.even_coe_nat _).mpr (even_halfEven unitsPerOne_pos htie)
  unfold signedInPlaces
  split
  · exact heven.neg
  · exact heven

theorem canonical_fixed (places : ℕ) (s : Bool) (m : Magnitude) :
    (m.fixed places s).Canonical :=
  Decimal.canonical_trimmed _

theorem places_fixed_le (places : ℕ) (s : Bool) (m : Magnitude) :
    (m.fixed places s).places ≤ places :=
  Decimal.places_le_of_distance_eq (canonical_fixed places s m)
    (Decimal.distance_trimmed ⟨s, m.inPlaces places, places⟩)

/-- What a rounded number stands for. -/
theorem toRat_fixed (places : ℕ) (s : Bool) (m : Magnitude) :
    (m.fixed places s).toRat = m.signedInPlaces places s / 10 ^ places := by
  rw [fixed, Decimal.toRat_trimmed, Decimal.toRat_eq, cast_signedInPlaces, mul_div_assoc]
  unfold Decimal.distance
  push_cast
  rfl

/-- An integer is shown where the number is rounded to it. -/
theorem fixed_eq_ofInt_iff_signedInPlaces :
    m.fixed places s = Decimal.ofInt n ↔ m.signedInPlaces places s = n * 10 ^ places := by
  have hten : (10 : ℚ) ^ places ≠ 0 := by positivity
  have hvalue : (m.fixed places s).toRat = (Decimal.ofInt n).toRat ↔
      m.signedInPlaces places s = n * 10 ^ places := by
    rw [toRat_fixed, Decimal.toRat_ofInt, div_eq_iff hten]
    norm_cast
  rw [← hvalue]
  constructor
  · intro h
    rw [h]
  · exact (canonical_fixed places s m).eq_of_toRat_eq (Decimal.canonical_ofInt n)

/-- **Where an integer is shown**: within half a unit of the last place of it. -/
theorem fixed_eq_ofInt_iff (hplaces : 0 < places) :
    m.fixed places s = Decimal.ofInt n ↔
      2 * 10 ^ places * |(Binary64.finite s m).toRat - n| ≤ 1 := by
  have hten : (0 : ℚ) < 10 ^ places := by positivity
  have hdistance : |10 ^ places * (Binary64.finite s m).toRat - ((n * 10 ^ places : ℤ) : ℚ)| =
      10 ^ places * |(Binary64.finite s m).toRat - n| := by
    push_cast
    rw [mul_comm (n : ℚ), ← mul_sub, abs_mul, abs_of_pos hten]
  rw [fixed_eq_ofInt_iff_signedInPlaces]
  constructor
  · intro h
    have hhalf := abs_sub_signedInPlaces_le places s m
    rw [h, hdistance] at hhalf
    linarith
  · intro h
    apply (m.nearestInPlaces places s).unique
    apply NearestInPlaces.of_le_half
    · rw [hdistance]
      linarith
    · -- a tie goes to the even multiple, and a multiple of ten is even
      intro _
      have heven : Even ((10 : ℤ) ^ places) := Even.pow_of_ne_zero (by decide) hplaces.ne'
      exact heven.mul_left n

end Magnitude

/-! ## Positional texts -/

/-- The parts of a text: a minus or none, the digits in front of the point and those behind it. -/
structure Positional where
  negative : Bool
  whole : List Char
  fraction : List Char

namespace Positional

/-- The text. Without digits behind it there is no point. -/
def characters (t : Positional) : List Char :=
  (if t.negative then ['-'] else []) ++ t.whole ++
    (if t.fraction = [] then [] else '.' :: t.fraction)

/-- The value by place. -/
def toRat (t : Positional) : ℚ :=
  Binary64.signFactor t.negative *
    (Nat.ofDigitChars 10 (t.whole ++ t.fraction) 0 / 10 ^ t.fraction.length)

/-- Nothing superfluous is written: no zero in front of the integer part or at the end of the
fraction, no point after an integer, no sign on zero. -/
structure Canonical (places : ℕ) (t : Positional) : Prop where
  digits : ∀ c ∈ t.whole ++ t.fraction, c.isDigit = true
  whole_ne_nil : t.whole ≠ []
  leading : t.whole = ['0'] ∨ t.whole.head? ≠ some '0'
  trailing : t.fraction.getLast? ≠ some '0'
  length_le : t.fraction.length ≤ places
  point : t.fraction = [] ↔ ∃ n : ℤ, t.toRat = n
  zero : t.toRat = 0 → t.characters = ['0']

end Positional

namespace Decimal

variable {places : ℕ} {d : Decimal}

/-- The parts of a numeral's text. -/
def positional (d : Decimal) : Positional :=
  ⟨d.negative, d.wholeDigits, d.fractionDigits⟩

theorem fractionDigits_eq_nil_iff : d.fractionDigits = [] ↔ d.places = 0 := by
  rw [← List.length_eq_zero_iff, length_fractionDigits]

theorem characters_positional (d : Decimal) : d.positional.characters = d.characters := by
  rw [characters_eq, unsigned_eq]
  show _ ++ d.wholeDigits ++ (if d.fractionDigits = [] then [] else '.' :: d.fractionDigits) = _
  rw [List.append_assoc]
  congr 1
  by_cases hplaces : d.places = 0
  · rw [if_pos (fractionDigits_eq_nil_iff.mpr hplaces), if_pos hplaces, List.append_nil]
  · rw [if_neg fun h => hplaces (fractionDigits_eq_nil_iff.mp h), if_neg hplaces]

theorem toRat_positional (d : Decimal) : d.positional.toRat = d.toRat := by
  show Binary64.signFactor d.negative *
    (Nat.ofDigitChars 10 (d.wholeDigits ++ d.fractionDigits) 0 / 10 ^ d.fractionDigits.length) = _
  rw [ofDigitChars_digits, length_fractionDigits, toRat_eq, distance, Nat.cast_pow, Nat.cast_ofNat]

/-- A canonical numeral without places is an integer, and no other is. -/
theorem Canonical.places_eq_zero_iff (hd : d.Canonical) :
    d.places = 0 ↔ ∃ n : ℤ, d.toRat = n := by
  constructor
  · intro hplaces
    refine ⟨if d.negative then -(d.significand : ℤ) else d.significand, ?_⟩
    rw [toRat_eq, distance, hplaces]
    cases d.negative <;> simp [Binary64.signFactor]
  · rintro ⟨n, hn⟩
    rw [hd.eq_of_toRat_eq (canonical_ofInt n) (hn.trans (toRat_ofInt n).symm)]
    rfl

/-- The last digit of a canonical numeral is not a zero. -/
theorem Canonical.getLast?_fractionDigits (hd : d.Canonical) :
    d.fractionDigits.getLast? ≠ some '0' := by
  obtain ⟨negative, significand, places⟩ := d
  cases places with
  | zero => simp [fractionDigits]
  | succ places =>
    have hlast := hd.last.resolve_left (Nat.succ_ne_zero places)
    rw [fractionDigits_succ, List.getLast?_concat, Ne, Option.some.injEq, Nat.digitChar_eq_zero]
    exact hlast

/-- **The text of a canonical numeral is canonical.** -/
theorem Canonical.positional (hd : d.Canonical) (hplaces : d.places ≤ places) :
    d.positional.Canonical places where
  digits := by
    intro c hc
    rcases List.mem_append.mp hc with hc | hc
    · exact isDigit_of_mem_wholeDigits hc
    · exact isDigit_of_mem_fractionDigits hc
  whole_ne_nil := d.wholeDigits_ne_nil
  leading := d.wholeDigits_leading
  trailing := hd.getLast?_fractionDigits
  length_le := d.length_fractionDigits.trans_le hplaces
  point := by
    rw [toRat_positional, ← hd.places_eq_zero_iff]
    exact fractionDigits_eq_nil_iff
  zero := by
    intro hzero
    rw [toRat_positional] at hzero
    have hnumeral : d = ofInt 0 := by
      apply hd.eq_of_toRat_eq (canonical_ofInt 0)
      rw [hzero, toRat_ofInt, Int.cast_zero]
    rw [characters_positional, hnumeral]
    rfl

/-- The text of a numeral is read as its value. -/
theorem toRat_literal (d : Decimal) : d.literal.toRat = d.toRat := by
  rw [Literal.toRat_eq, toRat_eq]
  simp [Literal.numerator, Literal.denominator, literal, distance]

end Decimal

/-! ## The text of a number -/

/-- In so many places the number is written as the `k`-th multiple of the last of them: it is the
nearest multiple and the only one, the text is the canonical text of its value, the padded text cut
at the end, and it is read back as that value. -/
structure Binary64.Writes (places : Places) (x : Binary64) (k : ℤ) : Prop where
  nearest : NearestInPlaces places.toNat x.toRat k
  only : ∀ j : ℤ, NearestInPlaces places.toNat x.toRat j → j = k
  canonical : ∃ t : Positional, t.Canonical places.toNat ∧ t.toRat = k / 10 ^ places.toNat ∧
    x.fixedText places = String.ofList t.characters
  trimmed : x.fixedText places = String.ofList (trimText (x.paddedFixed places.toNat))
  read : (Literal.read? (x.fixedText places).toList).map Literal.toRat =
    some ((k : ℚ) / 10 ^ places.toNat)

namespace Magnitude

theorem writes_finite (places : Places) (s : Bool) (m : Magnitude) :
    Binary64.Writes places (.finite s m) (m.signedInPlaces places.toNat s) where
  nearest := m.nearestInPlaces places.toNat s
  only := fun _ hj => hj.unique (m.nearestInPlaces places.toNat s)
  canonical := by
    refine ⟨(m.fixed places.toNat s).positional, ?_, ?_, ?_⟩
    · exact (canonical_fixed places.toNat s m).positional (places_fixed_le places.toNat s m)
    · rw [Decimal.toRat_positional, toRat_fixed]
    · rw [Decimal.characters_positional]
      rfl
  trimmed := Binary64.fixedText_eq_trimText places _
  read := by
    have htext : (Binary64.fixedText places (.finite s m)).toList =
        (m.fixed places.toNat s).characters := String.toList_ofList
    rw [htext, Decimal.read?_characters, Option.map_some, Decimal.toRat_literal, toRat_fixed]

end Magnitude

namespace Binary64

variable {places : Places} {x y : Binary64} {k l : ℤ}

/-- Two numbers share a text exactly if they round to the same multiple. -/
theorem fixedText_eq_iff (hx : x.isFinite = true) (hy : y.isFinite = true)
    (hk : Writes places x k) (hl : Writes places y l) :
    x.fixedText places = y.fixedText places ↔ k = l := by
  constructor
  · intro htext
    have hread := hk.read
    rw [htext, hl.read, Option.some.injEq, div_left_inj' (by positivity)] at hread
    exact_mod_cast hread.symm
  · rintro rfl
    obtain ⟨s, m, rfl⟩ := exists_of_isFinite hx
    obtain ⟨t, n, rfl⟩ := exists_of_isFinite hy
    have hm := hk.only _ (m.nearestInPlaces places.toNat s)
    have hn := hl.only _ (n.nearestInPlaces places.toNat t)
    have hnumeral : m.fixed places.toNat s = n.fixed places.toNat t := by
      apply (Magnitude.canonical_fixed places.toNat s m).eq_of_toRat_eq
        (Magnitude.canonical_fixed places.toNat t n)
      rw [Magnitude.toRat_fixed, Magnitude.toRat_fixed, hm, hn]
    exact congrArg Decimal.text hnumeral

/-- **A rounded number's text is the canonical writing of the nearest multiple**, so two numbers
share it exactly if they round to the same one, and the texts are in the order of the numbers. -/
theorem fixedText_law (places : Places) {x y : Binary64} (hx : x.isFinite = true)
    (hy : y.isFinite = true) :
    ∃ k l : ℤ, Writes places x k ∧ Writes places y l ∧
      (x.fixedText places = y.fixedText places ↔ k = l) ∧
      (x.toRat ≤ y.toRat → (k : ℚ) / 10 ^ places.toNat ≤ (l : ℚ) / 10 ^ places.toNat) := by
  obtain ⟨s, m, rfl⟩ := exists_of_isFinite hx
  obtain ⟨t, n, rfl⟩ := exists_of_isFinite hy
  have hk := m.writes_finite places s
  have hl := n.writes_finite places t
  refine ⟨_, _, hk, hl, fixedText_eq_iff hx hy hk hl, ?_⟩
  intro hle
  have hle' := hk.nearest.mono hl.nearest hle
  exact div_le_div_of_nonneg_right (by exact_mod_cast hle') (by positivity)

/-- The law at a tie and at a small negative number: `1 / 4` and `-1 / 100` in one place. -/
theorem fixedText_law_tie :
    let one : Places := ⟨1, by decide⟩
    (round false (1 / 4)).isFinite = true ∧ (round true (-1 / 100)).isFinite = true ∧
      (round false (1 / 4)).fixedText one = "0.2" ∧ (round true (-1 / 100)).fixedText one = "0" ∧
      ∃ k l : ℤ, Writes one (round false (1 / 4)) k ∧ Writes one (round true (-1 / 100)) l ∧
        ((round false (1 / 4)).fixedText one = (round true (-1 / 100)).fixedText one ↔ k = l) ∧
        ((round false (1 / 4)).toRat ≤ (round true (-1 / 100)).toRat →
          (k : ℚ) / 10 ^ 1 ≤ (l : ℚ) / 10 ^ 1) :=
  have hx : (round false (1 / 4)).isFinite = true := by decide +kernel
  have hy : (round true (-1 / 100)).isFinite = true := by decide +kernel
  ⟨hx, hy, by decide +kernel, by decide +kernel, fixedText_law ⟨1, by decide⟩ hx hy⟩

end Binary64

end QuadraticSolver
