import Mathlib
import QuadraticSolver.Decimal.Basic
import QuadraticSolver.Decimal.Literal

/-!
# The characters of a numeral

The characters without the sign are digits, and for a numeral with places a
point and exactly that many digits behind it. Read as one integer, the point
left out, the digits are the significand (`unsigned_spec`). So the text is read
back as the numeral (`read?_characters`), and no two numerals share a text.
-/

namespace QuadraticSolver

namespace Decimal

variable {width n : ℕ} {c : Char}

/-! ## Padded digits -/

theorem isDigit_of_mem_toDigits (hc : c ∈ Nat.toDigits 10 n) : c.isDigit = true :=
  Nat.isDigit_of_mem_toDigits (by decide) (by decide) hc

theorem isDigit_of_mem_paddedDigits (hc : c ∈ paddedDigits width n) : c.isDigit = true := by
  rcases List.mem_append.mp hc with hzero | hdigit
  · rw [List.eq_of_mem_replicate hzero]
    decide
  · exact isDigit_of_mem_toDigits hdigit

theorem ofDigitChars_paddedDigits (width n : ℕ) :
    Nat.ofDigitChars 10 (paddedDigits width n) 0 = n := by
  rw [paddedDigits, Nat.ofDigitChars_append, Nat.ofDigitChars_replicate_zero, Nat.mul_zero,
    Nat.ofDigitChars_ten_toDigits]

theorem length_paddedDigits (hwidth : 0 < width) (hn : n < 10 ^ width) :
    (paddedDigits width n).length = width := by
  have hlength : (Nat.toDigits 10 n).length ≤ width :=
    (Nat.length_toDigits_le_iff (by decide) hwidth).mpr hn
  rw [paddedDigits, List.length_append, List.length_replicate, Nat.sub_add_cancel hlength]

/-- One place more is one digit more at the end. -/
theorem paddedDigits_succ (hwidth : 0 < width) (n : ℕ) :
    paddedDigits (width + 1) n = paddedDigits width (n / 10) ++ [(n % 10).digitChar] := by
  unfold paddedDigits
  dsimp only
  by_cases hn : n < 10
  · obtain ⟨k, rfl⟩ := Nat.exists_eq_succ_of_ne_zero hwidth.ne'
    rw [Nat.toDigits_of_lt_base hn, Nat.div_eq_of_lt hn, Nat.mod_eq_of_lt hn]
    simp [Nat.toDigits_zero, List.replicate_succ']
  · rw [Nat.toDigits_of_base_le (by decide) (not_lt.mp hn), List.length_append,
      List.length_singleton, Nat.add_sub_add_right, List.append_assoc]

/-! ## The whole numeral -/

/-- The digits in front of the point. -/
def wholeDigits (d : Decimal) : List Char :=
  Nat.toDigits 10 (d.significand / 10 ^ d.places)

/-- The digits behind the point, one for each place. -/
def fractionDigits (d : Decimal) : List Char :=
  if d.places = 0 then [] else paddedDigits d.places (d.significand % 10 ^ d.places)

theorem unsigned_eq (d : Decimal) :
    d.unsigned =
      if d.places = 0 then d.wholeDigits else d.wholeDigits ++ '.' :: d.fractionDigits := by
  unfold unsigned fractionDigits
  by_cases hplaces : d.places = 0
  · simp only [hplaces, if_true]
    rw [wholeDigits, hplaces]
    rfl
  · simp only [hplaces, if_false]
    rfl

theorem wholeDigits_ne_nil (d : Decimal) : d.wholeDigits ≠ [] :=
  Nat.toDigits_ne_nil

theorem isDigit_of_mem_wholeDigits {d : Decimal} (hc : c ∈ d.wholeDigits) : c.isDigit = true :=
  isDigit_of_mem_toDigits hc

theorem isDigit_of_mem_fractionDigits {d : Decimal} (hc : c ∈ d.fractionDigits) :
    c.isDigit = true := by
  unfold fractionDigits at hc
  split at hc
  · exact absurd hc List.not_mem_nil
  · exact isDigit_of_mem_paddedDigits hc

theorem length_fractionDigits (d : Decimal) : d.fractionDigits.length = d.places := by
  unfold fractionDigits
  split
  next hplaces => exact hplaces.symm
  next hplaces =>
    exact length_paddedDigits (Nat.pos_of_ne_zero hplaces) (Nat.mod_lt _ (Nat.pow_pos (by decide)))

/-- The digits without the point are the significand. -/
theorem ofDigitChars_digits (d : Decimal) :
    Nat.ofDigitChars 10 (d.wholeDigits ++ d.fractionDigits) 0 = d.significand := by
  have hfraction : Nat.ofDigitChars 10 d.fractionDigits 0 = d.significand % 10 ^ d.places := by
    unfold fractionDigits
    split
    next hplaces =>
      rw [hplaces, Nat.pow_zero, Nat.mod_one]
      rfl
    next => exact ofDigitChars_paddedDigits _ _
  rw [Nat.ofDigitChars_append, Nat.ofDigitChars_eq_ofDigitChars_zero, length_fractionDigits,
    hfraction, wholeDigits, Nat.ofDigitChars_ten_toDigits, Nat.div_add_mod]

/-- No zero stands in front of the digits, unless it is the only one. -/
theorem head?_toDigits_ne_zero (hn : n ≠ 0) : (Nat.toDigits 10 n).head? ≠ some '0' := by
  induction n using Nat.strongRecOn with
  | ind n ih =>
    by_cases hlt : n < 10
    · rw [Nat.toDigits_of_lt_base hlt, List.head?_cons, Ne, Option.some.injEq,
        Nat.digitChar_eq_zero]
      exact hn
    · have hle : 10 ≤ n := not_lt.mp hlt
      rw [Nat.toDigits_of_base_le (by decide) hle,
        List.head?_append_of_ne_nil _ Nat.toDigits_ne_nil]
      exact ih (n / 10) (Nat.div_lt_self (by omega) (by decide)) (by omega)

/-- The digits in front of the point are those of an integer: a single zero, or none in front. -/
theorem wholeDigits_leading (d : Decimal) :
    d.wholeDigits = ['0'] ∨ d.wholeDigits.head? ≠ some '0' := by
  by_cases hzero : d.significand / 10 ^ d.places = 0
  · left
    rw [wholeDigits, hzero]
    rfl
  · exact Or.inr (head?_toDigits_ne_zero hzero)

theorem unsigned_ofInt (n : ℤ) : (ofInt n).unsigned = Nat.toDigits 10 n.natAbs := by
  show Nat.toDigits 10 (n.natAbs / Nat.pow 10 0) = _
  rw [show n.natAbs / Nat.pow 10 0 = n.natAbs from Nat.div_one _]

/-- **The characters of a numeral without its sign**: its digits are the significand, and the
places are the digits behind the point. -/
theorem unsigned_spec (d : Decimal) :
    ∃ whole fraction : List Char,
      d.unsigned = (if d.places = 0 then whole else whole ++ '.' :: fraction) ∧
      whole ≠ [] ∧ (∀ c ∈ whole, c.isDigit = true) ∧ (∀ c ∈ fraction, c.isDigit = true) ∧
      fraction.length = d.places ∧ Nat.ofDigitChars 10 (whole ++ fraction) 0 = d.significand :=
  ⟨d.wholeDigits, d.fractionDigits, d.unsigned_eq, d.wholeDigits_ne_nil,
    fun _ => isDigit_of_mem_wholeDigits, fun _ => isDigit_of_mem_fractionDigits,
    d.length_fractionDigits, d.ofDigitChars_digits⟩

end Decimal

/-! ## Reading -/

namespace Literal

section Digits

variable {whole rest : List Char}

theorem takeDigits_of_digits (h : ∀ c ∈ whole, c.isDigit = true) :
    takeDigits whole = (whole, []) := by
  simp only [takeDigits, List.takeWhile_eq_self_iff.mpr h, List.dropWhile_eq_nil_iff.mpr h]

theorem takeDigits_append_point (h : ∀ c ∈ whole, c.isDigit = true) :
    takeDigits (whole ++ '.' :: rest) = (whole, '.' :: rest) := by
  simp only [takeDigits, List.takeWhile_append_of_pos h, List.dropWhile_append_of_pos h]
  simp

end Digits

/-- The steps of the reader put together. -/
theorem read?_of_parts {s afterSign whole afterWhole fraction afterFraction : List Char}
    {negative : Bool} (hsign : takeSign s = (negative, afterSign))
    (hwhole : takeDigits afterSign = (whole, afterWhole))
    (hfraction : takeFraction afterWhole = (fraction, afterFraction)) :
    read? s =
      if whole = [] ∧ fraction = [] then none
      else (readPower? afterFraction).map fun power =>
        ⟨negative, Nat.ofDigitChars 10 (whole ++ fraction) 0, power - fraction.length⟩ := by
  unfold read?
  simp only [hsign, hwhole, hfraction]

end Literal

namespace Decimal

variable {c : Char}

/-- The literal that the text of the numeral is. -/
def literal (d : Decimal) : Literal :=
  ⟨d.negative, d.significand, -d.places⟩

theorem takeSign_characters (d : Decimal) :
    Literal.takeSign d.characters = (d.negative, d.unsigned) := by
  unfold characters
  cases hsign : d.negative with
  | true => rfl
  | false =>
    obtain ⟨whole, fraction, htext, hne, hwhole, -⟩ := d.unsigned_spec
    obtain ⟨c, tail, rfl⟩ := List.exists_cons_of_ne_nil hne
    have hc : c.isDigit = true := hwhole c List.mem_cons_self
    obtain ⟨rest, hrest⟩ : ∃ rest, d.unsigned = c :: rest := by
      rw [htext]
      split <;> exact ⟨_, rfl⟩
    show Literal.takeSign d.unsigned = (false, d.unsigned)
    rw [hrest]
    unfold Literal.takeSign
    split
    next heq =>
      obtain ⟨rfl, -⟩ := List.cons.inj heq
      cases hc
    next heq =>
      obtain ⟨rfl, -⟩ := List.cons.inj heq
      cases hc
    next => rfl

/-- **The text of a numeral is read back**, sign and places included. -/
theorem read?_characters (d : Decimal) : Literal.read? d.characters = some d.literal := by
  obtain ⟨whole, fraction, htext, hne, hwhole, hfraction, hlength, hvalue⟩ := d.unsigned_spec
  have hsign := d.takeSign_characters
  have hnot : ¬ (whole = [] ∧ fraction = []) := fun h => hne h.1
  by_cases hplaces : d.places = 0
  · obtain rfl : fraction = [] := List.length_eq_zero_iff.mp (hlength.trans hplaces)
    rw [htext, if_pos hplaces] at hsign
    rw [Literal.read?_of_parts hsign (Literal.takeDigits_of_digits hwhole) rfl, if_neg hnot, hvalue]
    simp [Literal.readPower?, literal, hplaces]
  · rw [htext, if_neg hplaces] at hsign
    rw [Literal.read?_of_parts hsign (Literal.takeDigits_append_point hwhole)
      (Literal.takeDigits_of_digits hfraction), if_neg hnot, hvalue, hlength]
    simp [Literal.readPower?, literal]

/-- So different numerals have different texts. -/
theorem text_injective : Function.Injective text := by
  intro d e h
  have hchars : d.characters = e.characters := String.ofList_injective h
  have hread := d.read?_characters
  rw [hchars, e.read?_characters, Option.some.injEq] at hread
  obtain ⟨negative, significand, places⟩ := d
  simp only [literal, Literal.mk.injEq] at hread
  obtain ⟨rfl, rfl, hplaces⟩ := hread
  obtain rfl : e.places = places := by omega
  rfl

theorem mem_unsigned (d : Decimal) (hc : c ∈ d.unsigned) : c.isDigit = true ∨ c = '.' := by
  obtain ⟨whole, fraction, htext, -, hwhole, hfraction, -⟩ := d.unsigned_spec
  rw [htext] at hc
  split at hc
  · exact Or.inl (hwhole c hc)
  · rcases List.mem_append.mp hc with hc | hc
    · exact Or.inl (hwhole c hc)
    · rcases List.mem_cons.mp hc with rfl | hc
      · exact Or.inr rfl
      · exact Or.inl (hfraction c hc)

theorem mem_characters (d : Decimal) (hc : c ∈ d.characters) :
    c.isDigit = true ∨ c = '.' ∨ c = '-' := by
  unfold characters at hc
  split at hc
  · rcases List.mem_cons.mp hc with rfl | hc
    · exact Or.inr (Or.inr rfl)
    · exact (d.mem_unsigned hc).imp_right Or.inl
  · exact (d.mem_unsigned hc).imp_right Or.inl

end Decimal

end QuadraticSolver
