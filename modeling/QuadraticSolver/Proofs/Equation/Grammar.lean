import Mathlib
import QuadraticSolver.Equation.Lexer

/-!
# The written form of a side

What the text of a side looks like, said without reading it. A written term is
an optional sign, a run of digits and points, and what stands behind the run:
nothing, the unknown, or the unknown and one of the three marks of the square.
A side is written terms one behind the other (`Reads`), each well formed, and
each allowed behind the one before it:

- behind a term in the unknown no term starts with a digit or a point;
- behind a constant every term starts with a sign.

The value of a term is said here without the reader of numerals: the digits of
the run as one integer, over a power of ten for the digits behind the point,
rounded once.
-/

namespace QuadraticSolver

/-! ## Terms as written -/

/-- The sign in front of a term. -/
inductive Sign where
  | plus
  | minus
  deriving DecidableEq

namespace Sign

/-- The character of a sign. -/
def character : Sign → Char
  | plus => '+'
  | minus => '-'

/-- The characters of a sign that may be left out. -/
def characters : Option Sign → List Char
  | none => []
  | some s => [s.character]

end Sign

/-- The marks of the square. -/
inductive SquareMark where
  | two
  | caret
  | superscript
  deriving DecidableEq

/-- The characters of a mark of the square. -/
def SquareMark.characters : SquareMark → List Char
  | two => ['2']
  | caret => ['^', '2']
  | superscript => ['²']

/-- What is written behind the run of a term. -/
inductive WrittenPower where
  | constant
  | linear
  | square (mark : SquareMark)
  deriving DecidableEq

namespace WrittenPower

/-- The characters behind the run. -/
def characters (unknown : Char) : WrittenPower → List Char
  | constant => []
  | linear => [unknown]
  | square mark => unknown :: mark.characters

/-- The degree that is written. -/
def degree : WrittenPower → Degree
  | constant => .constant
  | linear => .linear
  | square _ => .square

end WrittenPower

/-- A term as it is written. -/
structure WrittenTerm where
  sign : Option Sign
  run : List Char
  power : WrittenPower
  deriving DecidableEq

/-- The exact value of a run: its digits as one integer, a power of ten below for each digit
behind the point. -/
def runValue (run : List Char) : ℚ :=
  (Nat.ofDigitChars 10 (run.filter Char.isDigit) 0 : ℚ) /
    10 ^ ((run.dropWhile (· != '.')).drop 1).length

namespace WrittenTerm

/-- The sign and the run. -/
def numeral (w : WrittenTerm) : List Char :=
  Sign.characters w.sign ++ w.run

/-- The characters of a term. -/
def characters (unknown : Char) (w : WrittenTerm) : List Char :=
  w.numeral ++ w.power.characters unknown

/-- The term is written with a minus. -/
def isNegative (w : WrittenTerm) : Bool :=
  w.sign = some .minus

/-- The signed coefficient: the number nearest to the value of the run, and one for an empty run. -/
def coefficient (w : WrittenTerm) : Binary64 :=
  if w.run = [] then .ofInt (if w.isNegative then -1 else 1)
  else .round w.isNegative (if w.isNegative then -runValue w.run else runValue w.run)

/-- The term that is written. -/
def term (w : WrittenTerm) : Term :=
  ⟨w.power.degree, w.coefficient⟩

/-- The run is a number: it has a digit and at most one point, and its value is finite. -/
def IsNumber (w : WrittenTerm) : Prop :=
  w.run.any Char.isDigit ∧ w.run.count '.' ≤ 1 ∧ w.coefficient.isFinite

instance (w : WrittenTerm) : Decidable w.IsNumber :=
  inferInstanceAs (Decidable (_ ∧ _ ∧ _))

/-- A run of digits and points is a number, or it is empty before the unknown. -/
structure WellFormed (w : WrittenTerm) : Prop where
  run : ∀ c ∈ w.run, Lexer.isRun c
  constant : w.power = .constant → w.run.any Char.isDigit
  numeral : w.run = [] ∨ w.IsNumber

/-- The second term may stand directly behind the first: it begins with a sign behind a constant,
and with no digit or point behind a term in the unknown. -/
def MayPrecede (unknown : Char) (w next : WrittenTerm) : Prop :=
  ∀ c ∈ (next.characters unknown).head?,
    if w.power = .constant then Lexer.isSign c = true else Lexer.isRun c = false

end WrittenTerm

/-! ## Sides as written -/

/-- The side is these terms, written one behind the other. -/
structure Reads (unknown : Char) (side : List Char) (ws : List WrittenTerm) : Prop where
  text : ws.flatMap (WrittenTerm.characters unknown) = side
  wellFormed : ∀ w ∈ ws, w.WellFormed
  chain : ws.IsChain (WrittenTerm.MayPrecede unknown)

/-! ## Small laws -/

namespace Lexer

theorem isSign_character (s : Sign) : isSign s.character = true := by
  cases s <;> rfl

theorem exists_sign_of_isSign {c : Char} (h : isSign c = true) : ∃ s : Sign, s.character = c := by
  simp only [isSign, Bool.or_eq_true, beq_iff_eq] at h
  rcases h with rfl | rfl
  · exact ⟨.plus, rfl⟩
  · exact ⟨.minus, rfl⟩

theorem isSign_eq_false_of_isRun {c : Char} (h : isRun c = true) : isSign c = false := by
  cases hs : isSign c with
  | false => rfl
  | true =>
    obtain ⟨s, rfl⟩ := exists_sign_of_isSign hs
    cases s <;> exact absurd h (by decide)

theorem isRun_eq_false_of_isSign {c : Char} (h : isSign c = true) : isRun c = false := by
  cases hr : isRun c with
  | false => rfl
  | true => exact absurd (h.symm.trans (isSign_eq_false_of_isRun hr)) (by decide)

theorem isDigit_or_eq_of_isRun {c : Char} (h : isRun c = true) : c.isDigit = true ∨ c = '.' := by
  simpa only [isRun, Bool.or_eq_true, beq_iff_eq] using h

/-- The codes of the letters. -/
theorem toNat_of_isAlpha {c : Char} (h : c.isAlpha = true) : 65 ≤ c.toNat ∧ c.toNat ≤ 122 := by
  simp only [Char.isAlpha, Char.isUpper, Char.isLower, Bool.or_eq_true, Bool.and_eq_true,
    decide_eq_true_eq, ge_iff_le, UInt32.le_iff_toNat_le] at h
  have hA : 'A'.val.toNat = 65 := rfl
  have hZ : 'Z'.val.toNat = 90 := rfl
  have ha : 'a'.val.toNat = 97 := rfl
  have hz : 'z'.val.toNat = 122 := rfl
  show 65 ≤ c.val.toNat ∧ c.val.toNat ≤ 122
  omega

/-- The codes of the characters of a run. -/
theorem toNat_of_isRun {c : Char} (h : isRun c = true) : 46 ≤ c.toNat ∧ c.toNat ≤ 57 := by
  rcases isDigit_or_eq_of_isRun h with hdigit | rfl
  · have hzero : '0'.toNat = 48 := rfl
    have hnine : '9'.toNat = 57 := rfl
    have := Char.isDigit_iff_toNat.mp hdigit
    omega
  · decide

/-- A letter is no character of a run. -/
theorem isRun_eq_false_of_isAlpha {c : Char} (h : c.isAlpha = true) : isRun c = false := by
  cases hr : isRun c with
  | false => rfl
  | true =>
    have hletter := toNat_of_isAlpha h
    have hrun := toNat_of_isRun hr
    omega

/-- A letter is no sign. -/
theorem isSign_eq_false_of_isAlpha {c : Char} (h : c.isAlpha = true) : isSign c = false := by
  cases hs : isSign c with
  | false => rfl
  | true =>
    obtain ⟨s, rfl⟩ := exists_sign_of_isSign hs
    cases s <;> exact absurd h (by decide)

/-- No sign, no character of a run and no letter is blank. -/
theorem isBlank_eq_false_of_isSign {c : Char} (h : isSign c = true) : Text.isBlank c = false := by
  obtain ⟨s, rfl⟩ := exists_sign_of_isSign h
  cases s <;> decide

theorem isBlank_eq_false_of_toNat {c : Char} (h : 33 ≤ c.toNat) (h' : c.toNat ≤ 132) :
    Text.isBlank c = false := by
  simp only [Text.isBlank, Bool.or_eq_false_iff, Bool.and_eq_false_iff, decide_eq_false_iff_not,
    beq_eq_false_iff_ne]
  omega

end Lexer

/-! ## The characters of a side -/

section Characters

variable {v c : Char} {side : List Char} {w : WrittenTerm} {ws : List WrittenTerm}

theorem WrittenPower.mem_characters {p : WrittenPower} (hc : c ∈ p.characters v) :
    c = v ∨ c ∈ ['2', '^', '²'] := by
  match p with
  | .constant => cases hc
  | .linear => exact Or.inl (List.mem_singleton.mp hc)
  | .square mark =>
    have hmark : ∀ d ∈ mark.characters, d ∈ ['2', '^', '²'] := by
      cases mark <;> simp [SquareMark.characters]
    exact (List.mem_cons.mp hc).imp_right (hmark c)

/-- What a term is written with. -/
theorem WrittenTerm.WellFormed.mem_characters (hw : w.WellFormed) (hc : c ∈ w.characters v) :
    Lexer.isSign c = true ∨ Lexer.isRun c = true ∨ c = v ∨ c ∈ ['2', '^', '²'] := by
  rw [WrittenTerm.characters, WrittenTerm.numeral, List.mem_append, List.mem_append] at hc
  rcases hc with (hsign | hrun) | hpower
  · left
    cases hs : w.sign with
    | none =>
      rw [hs] at hsign
      cases hsign
    | some s =>
      rw [hs] at hsign
      rw [List.mem_singleton.mp hsign]
      exact Lexer.isSign_character s
  · exact Or.inr (Or.inl (hw.run c hrun))
  · exact Or.inr (Or.inr (WrittenPower.mem_characters hpower))

/-- A written side is made of signs, runs, the unknown and marks of the square. -/
theorem Reads.mem_characters (h : Reads v side ws) (hc : c ∈ side) :
    Lexer.isSign c = true ∨ Lexer.isRun c = true ∨ c = v ∨ c ∈ ['2', '^', '²'] := by
  rw [← h.text] at hc
  obtain ⟨w, hw, hc⟩ := List.mem_flatMap.mp hc
  exact (h.wellFormed w hw).mem_characters hc

/-- None of them is blank. -/
theorem Reads.isBlank_eq_false (hletter : v.isAlpha = true) (h : Reads v side ws) (hc : c ∈ side) :
    Text.isBlank c = false := by
  rcases h.mem_characters hc with hsign | hrun | rfl | hmark
  · exact Lexer.isBlank_eq_false_of_isSign hsign
  · have := Lexer.toNat_of_isRun hrun
    exact Lexer.isBlank_eq_false_of_toNat (by omega) (by omega)
  · have := Lexer.toNat_of_isAlpha hletter
    exact Lexer.isBlank_eq_false_of_toNat (by omega) (by omega)
  · have hmarks : ∀ d ∈ ['2', '^', '²'], Text.isBlank d = false := by simp [Text.isBlank]
    exact hmarks c hmark

end Characters

end QuadraticSolver
