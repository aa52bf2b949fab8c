/-!
# Decimal numerals

A decimal numeral is a sign, a significand and a number of places: the
significand counts the units of the last place. This module writes a numeral
as text and takes the superfluous zeros off its fraction; the ways to *choose*
a numeral for a number are `Decimal/Shortest` and `Decimal/Fixed`.

The text is positional always: every digit of the integer part is written,
there is no exponent, and a point appears only before at least one place.
-/

namespace QuadraticSolver

/-- A decimal numeral: `± significand / 10 ^ places`. -/
structure Decimal where
  negative : Bool
  significand : Nat
  places : Nat
  deriving DecidableEq

namespace Decimal

/-- The exact value of a numeral. -/
def toRat (d : Decimal) : Rat :=
  mkRat (if d.negative then -(d.significand : Int) else d.significand) (Nat.pow 10 d.places)

/-- The numeral of an integer. -/
def ofInt (n : Int) : Decimal :=
  ⟨decide (n < 0), n.natAbs, 0⟩

/-! ## Text -/

/-- The digits of `n`, filled up with zeros on the left to `width` digits. -/
def paddedDigits (width n : Nat) : List Char :=
  let digits := Nat.toDigits 10 n
  List.replicate (width - digits.length) '0' ++ digits

/-- The characters of the numeral without its sign. -/
def unsigned (d : Decimal) : List Char :=
  let unit := Nat.pow 10 d.places
  let whole := Nat.toDigits 10 (d.significand / unit)
  if d.places = 0 then whole
  else whole ++ '.' :: paddedDigits d.places (d.significand % unit)

/-- The characters of the numeral. A plus sign is not written. -/
def characters (d : Decimal) : List Char :=
  if d.negative then '-' :: d.unsigned else d.unsigned

/-- The text of the numeral. -/
def text (d : Decimal) : String :=
  String.ofList d.characters

/-! ## Zeros at the end of the fraction -/

/-- The significand and places left when zeros at the end of the fraction go. -/
def dropZeros (significand : Nat) : (places : Nat) → Nat × Nat
  | 0 => (significand, 0)
  | places + 1 =>
    if significand % 10 = 0 then dropZeros (significand / 10) places
    else (significand, places + 1)

/-- The same number without zeros at the end of its fraction, and zero without a sign. -/
def trimmed (d : Decimal) : Decimal :=
  let kept := dropZeros d.significand d.places
  ⟨d.negative && d.significand != 0, kept.1, kept.2⟩

/-- No digit is taken off but zeros: what is left stands for the same number. -/
theorem dropZeros_mul (places : Nat) : ∀ significand : Nat,
    (dropZeros significand places).1 * Nat.pow 10 places =
      significand * Nat.pow 10 (dropZeros significand places).2 := by
  induction places with
  | zero => intro significand; simp [dropZeros]
  | succ places ih =>
    intro significand
    rw [dropZeros]
    split
    next h =>
      have hten : significand / 10 * 10 = significand := by omega
      have := ih (significand / 10)
      simp only [Nat.pow_eq] at this ⊢
      rw [Nat.pow_succ, ← Nat.mul_assoc, this, Nat.mul_right_comm, hten]
    next h => rfl

/-- Where a fraction is left, its last digit is not a zero. -/
theorem dropZeros_mod (places : Nat) : ∀ significand : Nat,
    (dropZeros significand places).2 = 0 ∨ (dropZeros significand places).1 % 10 ≠ 0 := by
  induction places with
  | zero => intro significand; exact Or.inl rfl
  | succ places ih =>
    intro significand
    rw [dropZeros]
    split
    next h => exact ih _
    next h => exact Or.inr h

end Decimal

end QuadraticSolver
