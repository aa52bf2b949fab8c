import Mathlib
import QuadraticSolver.Decimal.Fixed
import QuadraticSolver.Proofs.Decimal.Text

/-!
# Trimming a text and trimming a numeral

`Decimal.trimmed` divides the significand by ten while a place is left and the
division is exact. A program that has only the text of the padded numeral does
it otherwise: it takes zeros off the end, then a point, and looks at a sign in
front of a lone zero (`trimText`). The two agree on the text of every numeral
(`characters_trimmed`), so a number rounded to so many places can be written
with all of them and cut (`fixedText_eq_trimText`).

The induction is on the places and goes with the division: one place is one
digit at the end of the text, and the digits in front of it are those of the
quotient. A zero in front of the point is out of its reach, since the point
itself stops the cutting.
-/

namespace QuadraticSolver

/-! ## Cutting the text -/

/-- The text without the zeros at its end, and then without a point at its end. -/
def trimEnd (s : List Char) : List Char :=
  let kept := s.rdropWhile (· == '0')
  if kept.getLast? = some '.' then kept.dropLast else kept

/-- The text cut where it has a point, and a lone zero without a sign. -/
def trimText (s : List Char) : List Char :=
  let kept := if '.' ∈ s then trimEnd s else s
  if kept = ['-', '0'] then ['0'] else kept

section TrimEnd

variable {s : List Char} {c : Char}

theorem trimEnd_concat_zero (s : List Char) : trimEnd (s ++ ['0']) = trimEnd s := by
  unfold trimEnd
  rw [List.rdropWhile_concat_pos _ _ _ rfl]

theorem trimEnd_concat_point (s : List Char) : trimEnd (s ++ ['.']) = s := by
  unfold trimEnd
  rw [List.rdropWhile_concat_neg _ _ _ (by decide)]
  simp

theorem trimEnd_concat_of_ne (hzero : c ≠ '0') (hpoint : c ≠ '.') :
    trimEnd (s ++ [c]) = s ++ [c] := by
  have hlast : (s ++ [c]).getLast? ≠ some '.' := by simpa using hpoint
  unfold trimEnd
  rw [List.rdropWhile_concat_neg _ _ _ (by simpa using hzero)]
  exact if_neg hlast

end TrimEnd

namespace Decimal

variable {negative : Bool} {significand places : ℕ}

/-- The digits in front of the point belong to the quotient. -/
theorem wholeDigits_succ :
    (⟨negative, significand, places + 1⟩ : Decimal).wholeDigits =
      (⟨negative, significand / 10, places⟩ : Decimal).wholeDigits := by
  unfold wholeDigits
  dsimp only
  rw [Nat.pow_succ', Nat.div_div_eq_div_mul]

/-- The last digit behind the point is the remainder, those in front of it belong to the
quotient. -/
theorem fractionDigits_succ :
    (⟨negative, significand, places + 1⟩ : Decimal).fractionDigits =
      (⟨negative, significand / 10, places⟩ : Decimal).fractionDigits ++
        [(significand % 10).digitChar] := by
  unfold fractionDigits
  dsimp only
  rw [if_neg (Nat.succ_ne_zero places)]
  by_cases hplaces : places = 0
  · subst hplaces
    have hlt : significand % 10 < 10 := Nat.mod_lt _ (by decide)
    simp [paddedDigits, Nat.toDigits_of_lt_base hlt]
  · have hquotient : significand % 10 ^ (places + 1) / 10 = significand / 10 % 10 ^ places := by
      rw [Nat.pow_succ', Nat.mod_mul_right_div_self]
    have hdigit : significand % 10 ^ (places + 1) % 10 = significand % 10 := by
      rw [Nat.pow_succ', Nat.mod_mul_right_mod]
    rw [if_neg hplaces, paddedDigits_succ (Nat.pos_of_ne_zero hplaces), hquotient, hdigit]

/-- **Cutting the digits is dividing the significand**, whatever stands in front of them. -/
theorem trimEnd_digits (front : List Char) : ∀ places significand : ℕ,
    trimEnd (front ++ ((⟨negative, significand, places⟩ : Decimal).wholeDigits ++
        '.' :: (⟨negative, significand, places⟩ : Decimal).fractionDigits)) =
      front ++ (⟨negative, significand, places⟩ : Decimal).trimmed.unsigned := by
  intro places
  induction places with
  | zero =>
    intro significand
    rw [← List.append_assoc]
    exact trimEnd_concat_point _
  | succ places ih =>
    intro significand
    have hsnoc : front ++ ((⟨negative, significand, places + 1⟩ : Decimal).wholeDigits ++
        '.' :: (⟨negative, significand, places + 1⟩ : Decimal).fractionDigits) =
        front ++ ((⟨negative, significand / 10, places⟩ : Decimal).wholeDigits ++
          '.' :: (⟨negative, significand / 10, places⟩ : Decimal).fractionDigits) ++
          [(significand % 10).digitChar] := by
      rw [wholeDigits_succ, fractionDigits_succ, List.append_assoc, List.append_assoc,
        List.cons_append]
    rw [hsnoc]
    by_cases hzero : significand % 10 = 0
    · -- the numeral drops a place exactly when the text drops a zero
      have hdrop : (⟨negative, significand, places + 1⟩ : Decimal).trimmed.unsigned =
          (⟨negative, significand / 10, places⟩ : Decimal).trimmed.unsigned := by
        unfold trimmed unsigned
        rw [dropZeros, if_pos hzero]
      rw [Nat.digitChar_eq_zero.mpr hzero, trimEnd_concat_zero, ih, hdrop]
    · have hkeep : (⟨negative, significand, places + 1⟩ : Decimal).trimmed.unsigned =
          (⟨negative, significand, places + 1⟩ : Decimal).unsigned := by
        unfold trimmed unsigned
        rw [dropZeros, if_neg hzero]
      have hne : (significand % 10).digitChar ≠ '0' := fun h => hzero (Nat.digitChar_eq_zero.mp h)
      rw [trimEnd_concat_of_ne hne (Nat.digitChar_ne '.' rfl), ← hsnoc, hkeep, unsigned_eq,
        if_neg (Nat.succ_ne_zero places)]

/-! ## The sign -/

/-- The characters with the sign split off. -/
theorem characters_eq (d : Decimal) :
    d.characters = (if d.negative then ['-'] else []) ++ d.unsigned := by
  unfold characters
  split <;> rfl

theorem unsigned_eq_zero_iff (d : Decimal) :
    d.unsigned = ['0'] ↔ d.significand = 0 ∧ d.places = 0 := by
  constructor
  · intro h
    have htext : (⟨false, d.significand, d.places⟩ : Decimal).text = (ofInt 0).text :=
      congrArg String.ofList h
    have heq := text_injective htext
    exact ⟨congrArg Decimal.significand heq, congrArg Decimal.places heq⟩
  · rintro ⟨hsignificand, hplaces⟩
    rw [unsigned_eq, if_pos hplaces, wholeDigits, hsignificand, Nat.zero_div]
    rfl

theorem point_mem_characters_iff (d : Decimal) : '.' ∈ d.characters ↔ d.places ≠ 0 := by
  have hdigits : '.' ∉ d.wholeDigits := fun h => by cases isDigit_of_mem_wholeDigits h
  have hsign : '.' ∉ (if d.negative then ['-'] else []) := by
    split <;> decide
  rw [characters_eq, List.mem_append, or_iff_right hsign, unsigned_eq]
  by_cases hplaces : d.places = 0
  · simp [hplaces, hdigits]
  · simp [hplaces]

/-- The text cut at its end, with the sign that the numeral had. -/
theorem cut_characters (d : Decimal) :
    (if '.' ∈ d.characters then trimEnd d.characters else d.characters) =
      (if d.negative then ['-'] else []) ++ d.trimmed.unsigned := by
  by_cases hplaces : d.places = 0
  · have hkept : d.trimmed.unsigned = d.unsigned := by
      unfold trimmed unsigned
      rw [hplaces]
      rfl
    rw [if_neg fun h => d.point_mem_characters_iff.mp h hplaces, hkept, characters_eq]
  · rw [if_pos (d.point_mem_characters_iff.mpr hplaces), characters_eq, unsigned_eq,
      if_neg hplaces]
    exact trimEnd_digits _ d.places d.significand

theorem trimmed_unsigned_eq_zero_iff (d : Decimal) :
    d.trimmed.unsigned = ['0'] ↔ d.significand = 0 := by
  have hmul := dropZeros_mul d.places d.significand
  have hpow : ∀ n : ℕ, Nat.pow 10 n ≠ 0 := fun n => (Nat.pow_pos (by decide)).ne'
  rw [unsigned_eq_zero_iff]
  constructor
  · rintro ⟨hkept, -⟩
    rw [show (dropZeros d.significand d.places).1 = 0 from hkept, Nat.zero_mul] at hmul
    exact (Nat.mul_eq_zero.mp hmul.symm).resolve_right (hpow _)
  · intro hzero
    rw [hzero, Nat.zero_mul] at hmul
    have hkept : (dropZeros 0 d.places).1 = 0 := (Nat.mul_eq_zero.mp hmul).resolve_right (hpow _)
    have hlast := (dropZeros_mod d.places 0).resolve_right (by simp [hkept])
    exact ⟨by rw [trimmed, hzero, hkept], by rw [trimmed, hzero, hlast]⟩

/-- **Trimming the text is trimming the numeral.** -/
theorem characters_trimmed (d : Decimal) : d.trimmed.characters = trimText d.characters := by
  unfold trimText
  rw [cut_characters, characters_eq]
  by_cases hzero : d.significand = 0
  · have hsign : d.trimmed.negative = false := by simp [trimmed, hzero]
    rw [hsign, d.trimmed_unsigned_eq_zero_iff.mpr hzero]
    cases d.negative <;> rfl
  · have hsign : d.trimmed.negative = d.negative := by simp [trimmed, hzero]
    have hne : (if d.negative then ['-'] else []) ++ d.trimmed.unsigned ≠ ['-', '0'] := by
      intro h
      cases hnegative : d.negative with
      | true =>
        rw [hnegative] at h
        exact hzero (d.trimmed_unsigned_eq_zero_iff.mp (List.cons.inj h).2)
      | false =>
        have hmem : '-' ∈ d.trimmed.unsigned := by
          rw [hnegative] at h
          rw [show d.trimmed.unsigned = ['-', '0'] from h]
          exact List.mem_cons_self
        rcases d.trimmed.mem_unsigned hmem with h | h <;> cases h
    rw [hsign]
    exact (if_neg hne).symm

end Decimal

/-! ## Rounded numbers -/

namespace Binary64

/-- The characters of a number with all of so many places, zeros at the end too. -/
def paddedFixed (places : ℕ) (x : Binary64) : List Char :=
  x.charactersBy fun negative m => ⟨negative, m.inPlaces places, places⟩

/-- **A rounded number can be written with all its places and cut.** -/
theorem fixedText_eq_trimText (places : Places) (x : Binary64) :
    x.fixedText places = String.ofList (trimText (x.paddedFixed places.toNat)) := by
  unfold fixedText paddedFixed
  congr 1
  cases x with
  | nan => rfl
  | infinity negative => cases negative <;> rfl
  | finite negative m => exact Decimal.characters_trimmed _

end Binary64

end QuadraticSolver
