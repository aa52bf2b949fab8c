import QuadraticSolver.Decimal.Literal
import QuadraticSolver.Equation.Error
import QuadraticSolver.Equation.Term
import QuadraticSolver.Text.Blank

/-!
# Reading a side

A side is read term by term. A term is an optional sign, a run of digits and
points that may be empty, and then either the unknown, with or without a mark
of the square, or nothing more: then the run has to hold a digit. Blanks
between terms are skipped, and nothing else is: every other character is an
error, and so is a number directly behind a term in the unknown, where a sign
is missing (`2x3`).

`readTerm` reads one term and returns what follows it; `readTerm_shorter` says
that it consumes something, and `readSide` repeats it on that account.
-/

namespace QuadraticSolver

/-- The unknown of an equation: its first letter. Letters are those of ASCII. -/
def unknown? (s : List Char) : Option Char :=
  s.find? Char.isAlpha

namespace Lexer

/-- A plus or a minus. -/
def isSign (c : Char) : Bool :=
  c == '+' || c == '-'

/-- A character of a run: an ASCII digit or a point. -/
def isRun (c : Char) : Bool :=
  c.isDigit || c == '.'

/-! ## The numeral at the front -/

/-- An optional sign, and the rest. -/
def takeSign : List Char → List Char × List Char
  | [] => ([], [])
  | c :: rest => if isSign c then ([c], rest) else ([], c :: rest)

/-- An optional sign with the longest run behind it, and the rest. -/
def takeNumeral (s : List Char) : List Char × List Char :=
  let (sign, rest) := takeSign s
  (sign ++ rest.takeWhile isRun, rest.dropWhile isRun)

/-- The value of a numeral, which has to be finite. -/
def number (text : List Char) : Except Malformation Binary64 :=
  match Literal.read? text with
  | some literal =>
    let value := literal.toBinary64
    if value.isFinite then .ok value else .error (.coefficient (String.ofList text))
  | none => .error (.coefficient (String.ofList text))

/-- The coefficient before the unknown: a sign alone, or nothing, stands for one. -/
def coefficient (text : List Char) : Except Malformation Binary64 :=
  if text = [] ∨ text = ['+'] then .ok (.ofInt 1)
  else if text = ['-'] then .ok (.ofInt (-1))
  else number text

/-! ## One term -/

/-- The rest behind a mark of the square, if one is at the front. -/
def dropSquareMark? : List Char → Option (List Char)
  | '2' :: rest => some rest
  | '²' :: rest => some rest
  | '^' :: '2' :: rest => some rest
  | _ => none

/-- A term in the unknown: its coefficient's text, and what follows the unknown. -/
def readPower (text rest : List Char) : Except Malformation (Term × List Char) :=
  (coefficient text).map fun value =>
    match dropSquareMark? rest with
    | some rest => (⟨.square, value⟩, rest)
    | none => (⟨.linear, value⟩, rest)

/-- Why a numeral without a digit is no term: a point makes it a number that
cannot be read; else the fault is a sign without anything behind it, or the
character in the way. -/
def refusal (text rest : List Char) : Malformation :=
  if text.contains '.' then .coefficient (String.ofList text)
  else
    match rest with
    | [] => .loneSign
    | c :: _ => if isSign c then .loneSign else .unexpected c

/-- A constant: the text of its value, and what follows. -/
def readConstant (text rest : List Char) : Except Malformation (Term × List Char) :=
  if text.any Char.isDigit then (number text).map fun value => (⟨.constant, value⟩, rest)
  else .error (refusal text rest)

/-- The term at the front, and what follows it. -/
def readTerm (unknown : Char) (s : List Char) : Except Malformation (Term × List Char) :=
  let (text, rest) := takeNumeral s
  match rest with
  | [] => readConstant text []
  | c :: behind =>
    if c = unknown then readPower text behind else readConstant text (c :: behind)

/-! ## Each term is taken off the text -/

/-- Nothing is lost between a sign and the rest. -/
theorem takeSign_append (s : List Char) : (takeSign s).1 ++ (takeSign s).2 = s := by
  cases s with
  | nil => rfl
  | cons c rest => by_cases h : isSign c <;> simp [takeSign, h]

/-- Nothing is lost between a numeral and the rest. -/
theorem takeNumeral_append (s : List Char) : (takeNumeral s).1 ++ (takeNumeral s).2 = s := by
  have h := takeSign_append s
  simp only [takeNumeral, List.append_assoc, List.takeWhile_append_dropWhile, h]

theorem length_dropSquareMark? {s rest : List Char} (h : dropSquareMark? s = some rest) :
    rest.length ≤ s.length := by
  unfold dropSquareMark? at h
  split at h <;> cases h <;> simp only [List.length_cons] <;> omega

theorem readPower_rest {text rest : List Char} {r : Term × List Char}
    (h : readPower text rest = .ok r) : r.2.length ≤ rest.length := by
  cases hc : coefficient text with
  | error e => simp [readPower, hc, Except.map] at h
  | ok value =>
    simp only [readPower, hc, Except.map, Except.ok.injEq] at h
    subst h
    split
    next hm => exact length_dropSquareMark? hm
    next => exact Nat.le_refl _

theorem readConstant_rest {text rest : List Char} {r : Term × List Char}
    (h : readConstant text rest = .ok r) : text ≠ [] ∧ r.2 = rest := by
  unfold readConstant at h
  split at h
  next hd =>
    cases hn : number text with
    | error e => simp [hn, Except.map] at h
    | ok value =>
      simp only [hn, Except.map, Except.ok.injEq] at h
      subst h
      refine ⟨?_, rfl⟩
      intro hempty
      simp [hempty] at hd
  next => cases h

/-- A term that is read takes at least one character. -/
theorem readTerm_shorter {unknown : Char} {s : List Char} {r : Term × List Char}
    (h : readTerm unknown s = .ok r) : r.2.length < s.length := by
  have hlen : (takeNumeral s).1.length + (takeNumeral s).2.length = s.length := by
    rw [← List.length_append, takeNumeral_append]
  unfold readTerm at h
  dsimp only at h
  split at h
  next hrest =>
    obtain ⟨hne, hr⟩ := readConstant_rest h
    have := List.length_pos_iff.mpr hne
    rw [hr]
    simp only [List.length_nil]
    omega
  next c behind hrest =>
    rw [hrest, List.length_cons] at hlen
    split at h
    next =>
      have := readPower_rest h
      omega
    next =>
      obtain ⟨hne, hr⟩ := readConstant_rest h
      have := List.length_pos_iff.mpr hne
      rw [hr, List.length_cons]
      omega

end Lexer

open Lexer in
/-- The terms of a side. After a term in the unknown, `glued` forbids a run: a
new term has to begin with a sign or the unknown there. Blanks do not change
what is forbidden. -/
def readSide (unknown : Char) (glued : Bool) (s : List Char) : Except Malformation (List Term) :=
  match s with
  | [] => .ok []
  | c :: behind =>
    if Text.isBlank c then readSide unknown glued behind
    else if glued && isRun c then .error (.unexpected c)
    else
      match h : readTerm unknown (c :: behind) with
      | .error reason => .error reason
      | .ok (term, rest) =>
        have := readTerm_shorter h
        (readSide unknown (term.degree != .constant) rest).map (term :: ·)
termination_by s.length
decreasing_by
  · exact Nat.lt_succ_self _
  · exact this

/-- The terms of a side of an equation in `unknown`. -/
def terms (unknown : Char) (side : List Char) : Except EquationError (List Term) :=
  (readSide unknown false side).mapError .malformed

end QuadraticSolver
