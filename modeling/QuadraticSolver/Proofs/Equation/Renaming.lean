import QuadraticSolver.Proofs.Equation.Lexing
import QuadraticSolver.Proofs.Equation.Normalisation

/-!
# The letters have no meaning of their own

Any permutation of the letters may be applied to the text of an equation: the
terms and the coefficients stay the same, bit for bit, and the unknown goes to
its new name (`normalise_rename`). A refusal stays the same too, but that a
letter in the way is named by its new name; the texts inside the other refusals
hold no letter.

The reader asks two things of a character: whether it is of a class to which no
letter belongs, and whether it is the unknown. A permutation changes neither
answer (`Renaming.apply_char`, `Renaming.char_eq_iff`), and so each reader of
the lexer commutes with it.
-/

namespace QuadraticSolver

/-- A renaming: a permutation of the 52 letters of ASCII. -/
abbrev Renaming := Equiv.Perm {c : Char // c.isAlpha = true}

namespace Renaming

/-- The new name of a character. Only letters are renamed. -/
def char (p : Renaming) (c : Char) : Char :=
  Equiv.Perm.ofSubtype p c

/-- A text under new names. -/
def text (p : Renaming) (s : List Char) : List Char :=
  s.map p.char

/-- The equation under new names. -/
def equation (p : Renaming) (e : String) : String :=
  String.ofList (p.text e.toList)

/-- A malformation under new names: the character in the way is the only one it can name. -/
def malformation (p : Renaming) : Malformation → Malformation
  | .unexpected c => .unexpected (p.char c)
  | .equalsSigns count => .equalsSigns count
  | .coefficient text => .coefficient text
  | .loneSign => .loneSign
  | .nonFinite => .nonFinite

/-- A refusal under new names. -/
def error (p : Renaming) : EquationError → EquationError
  | .noUnknown => .noUnknown
  | .malformed reason => .malformed (p.malformation reason)

/-- A normalised equation under new names. -/
def normalisation (p : Renaming) (n : Normalisation) : Normalisation :=
  { n with unknown := p.char n.unknown }

/-- An answer in numbers under new names. -/
def resolution (p : Renaming) (r : Resolution) : Resolution :=
  { r with unknown := p.char r.unknown }

/-- A term and the text behind it, under new names. -/
def reading (p : Renaming) (r : Term × List Char) : Term × List Char :=
  (r.1, p.text r.2)

/-- What a reader answers, under new names. -/
def outcome {α β : Type} (p : Renaming) (f : α → β) (x : Except Malformation α) :
    Except Malformation β :=
  (x.map f).mapError p.malformation

theorem outcome_map {α β γ : Type} (p : Renaming) (f : β → γ) (g : α → β)
    (x : Except Malformation α) : p.outcome f (x.map g) = p.outcome (f ∘ g) x := by
  cases x <;> rfl

/-- What an equation comes to, under new names. -/
def answer {α β : Type} (p : Renaming) (f : α → β) (x : Except EquationError α) :
    Except EquationError β :=
  (x.map f).mapError p.error

/-! ## Characters -/

section Characters

variable (p : Renaming) {c d : Char} {s : List Char}

theorem char_of_isAlpha (h : c.isAlpha = true) : p.char c = p ⟨c, h⟩ :=
  Equiv.Perm.ofSubtype_apply_of_mem p h

theorem char_eq_self (h : c.isAlpha = false) : p.char c = c :=
  Equiv.Perm.ofSubtype_apply_of_not_mem p (by rw [h]; decide)

@[simp]
theorem isAlpha_char (c : Char) : (p.char c).isAlpha = c.isAlpha := by
  cases h : c.isAlpha with
  | true =>
    rw [char_of_isAlpha p h]
    exact (p ⟨c, h⟩).property
  | false => rw [char_eq_self p h, h]

theorem char_injective : Function.Injective p.char :=
  (Equiv.Perm.ofSubtype p).injective

/-- A character that is no letter is where it was, and nothing else has come there. -/
theorem char_eq_iff (hd : d.isAlpha = false) : p.char c = d ↔ c = d := by
  constructor
  · intro h
    exact char_injective p (h.trans (char_eq_self p hd).symm)
  · rintro rfl
    exact char_eq_self p hd

/-- A class of characters without letters is kept. -/
theorem apply_char {q : Char → Bool} (hq : ∀ c, c.isAlpha = true → q c = false) (c : Char) :
    q (p.char c) = q c := by
  cases h : c.isAlpha with
  | true => rw [hq c h, hq _ ((isAlpha_char p c).trans h)]
  | false => rw [char_eq_self p h]

@[simp]
theorem isSign_char (c : Char) : Lexer.isSign (p.char c) = Lexer.isSign c :=
  p.apply_char (fun _ => Lexer.isSign_eq_false_of_isAlpha) c

@[simp]
theorem isRun_char (c : Char) : Lexer.isRun (p.char c) = Lexer.isRun c :=
  p.apply_char (fun _ => Lexer.isRun_eq_false_of_isAlpha) c

@[simp]
theorem isBlank_char (c : Char) : Text.isBlank (p.char c) = Text.isBlank c := by
  refine p.apply_char (fun c hc => ?_) c
  have := Lexer.toNat_of_isAlpha hc
  exact Lexer.isBlank_eq_false_of_toNat (by omega) (by omega)

theorem isAlpha_eq_false_of_isSign (h : Lexer.isSign c = true) : c.isAlpha = false := by
  cases halpha : c.isAlpha with
  | false => rfl
  | true => rw [Lexer.isSign_eq_false_of_isAlpha halpha] at h; cases h

theorem isAlpha_eq_false_of_isRun (h : Lexer.isRun c = true) : c.isAlpha = false := by
  cases halpha : c.isAlpha with
  | false => rfl
  | true => rw [Lexer.isRun_eq_false_of_isAlpha halpha] at h; cases h

/-- A text without letters is kept. -/
theorem text_eq_self (h : ∀ c ∈ s, c.isAlpha = false) : p.text s = s := by
  induction s with
  | nil => rfl
  | cons c s ih =>
    obtain ⟨hc, hs⟩ := List.forall_mem_cons.mp h
    show p.char c :: p.text s = c :: s
    rw [char_eq_self p hc, ih hs]

/-- A text without letters at the front is there before the renaming as well. -/
theorem exists_of_text_eq_append {l t : List Char} (hl : ∀ c ∈ l, c.isAlpha = false)
    (h : p.text s = l ++ t) : ∃ rest, s = l ++ rest ∧ p.text rest = t := by
  obtain ⟨l', rest, rfl, hfront, hrest⟩ := List.map_eq_append_iff.mp h
  have hl' : l' = l := p.char_injective.list_map (hfront.trans (p.text_eq_self hl).symm)
  exact ⟨rest, by rw [hl'], hrest⟩

end Characters

/-! ## A term -/

section Terms

variable (p : Renaming) (s : List Char)

/-- The numeral at the front holds no letter. -/
theorem takeNumeral_text :
    Lexer.takeNumeral (p.text s) = ((Lexer.takeNumeral s).1, p.text (Lexer.takeNumeral s).2) := by
  have hsign : Lexer.takeSign (p.text s) = ((Lexer.takeSign s).1, p.text (Lexer.takeSign s).2) := by
    cases s with
    | nil => rfl
    | cons c s =>
      cases hc : Lexer.isSign c with
      | true =>
        have hkept : p.char c = c := p.char_eq_self (isAlpha_eq_false_of_isSign hc)
        simp [text, Lexer.takeSign, hkept, hc]
      | false => simp [text, Lexer.takeSign, hc]
  have hclass : Lexer.isRun ∘ p.char = Lexer.isRun := funext p.isRun_char
  have hrun : p.text ((Lexer.takeSign s).2.takeWhile Lexer.isRun) =
      (Lexer.takeSign s).2.takeWhile Lexer.isRun := by
    refine p.text_eq_self fun c hc => isAlpha_eq_false_of_isRun (List.mem_takeWhile_imp hc)
  simp only [Lexer.takeNumeral, hsign]
  simp only [text, List.takeWhile_map, List.dropWhile_map, hclass] at hrun ⊢
  rw [hrun]

theorem dropSquareMark?_text :
    Lexer.dropSquareMark? (p.text s) = (Lexer.dropSquareMark? s).map p.text := by
  have hletter : ∀ mark : SquareMark, ∀ c ∈ mark.characters, c.isAlpha = false := by
    intro mark
    cases mark <;> simp [SquareMark.characters]
  cases h : Lexer.dropSquareMark? s with
  | some rest =>
    obtain ⟨mark, rfl⟩ := WrittenTerm.exists_squareMark h
    have htext : p.text (mark.characters ++ rest) = mark.characters ++ p.text rest := by
      rw [text, List.map_append]
      congr 1
      exact p.text_eq_self (hletter mark)
    rw [htext, WrittenTerm.dropSquareMark?_characters]
    rfl
  | none =>
    cases h' : Lexer.dropSquareMark? (p.text s) with
    | none => rfl
    | some rest' =>
      -- a mark under new names was a mark
      obtain ⟨mark, hmark⟩ := WrittenTerm.exists_squareMark h'
      obtain ⟨rest, rfl, -⟩ := p.exists_of_text_eq_append (hletter mark) hmark
      rw [WrittenTerm.dropSquareMark?_characters] at h
      cases h

theorem refusal_text (t : List Char) :
    Lexer.refusal t (p.text s) = p.malformation (Lexer.refusal t s) := by
  unfold Lexer.refusal
  split
  · rfl
  · cases s with
    | nil => rfl
    | cons c s =>
      show (if Lexer.isSign (p.char c) then _ else _) = _
      rw [isSign_char]
      dsimp only
      split <;> rfl

end Terms

/-! ## The readers -/

section Readers

variable (p : Renaming) (v : Char) (s : List Char)

/-- The refusal of a numeral holds its own text, where no letter is. -/
theorem outcome_number {α : Type} (f : Binary64 → α) (t : List Char) :
    p.outcome f (Lexer.number t) = (Lexer.number t).map f := by
  unfold Lexer.number
  split
  · dsimp only
    split <;> rfl
  · rfl

theorem outcome_coefficient {α : Type} (f : Binary64 → α) (t : List Char) :
    p.outcome f (Lexer.coefficient t) = (Lexer.coefficient t).map f := by
  unfold Lexer.coefficient
  split
  · rfl
  · split
    · rfl
    · exact p.outcome_number f t

theorem readConstant_text (t : List Char) :
    Lexer.readConstant t (p.text s) = p.outcome p.reading (Lexer.readConstant t s) := by
  unfold Lexer.readConstant
  split
  · rw [outcome_map, outcome_number]
    rfl
  · rw [refusal_text]
    rfl

theorem readPower_text (t : List Char) :
    Lexer.readPower t (p.text s) = p.outcome p.reading (Lexer.readPower t s) := by
  unfold Lexer.readPower
  rw [outcome_map, outcome_coefficient, dropSquareMark?_text]
  cases Lexer.dropSquareMark? s <;> rfl

/-- **A term is read the same under new names.** -/
theorem readTerm_text :
    Lexer.readTerm (p.char v) (p.text s) = p.outcome p.reading (Lexer.readTerm v s) := by
  unfold Lexer.readTerm
  rw [takeNumeral_text]
  rcases Lexer.takeNumeral s with ⟨t, rest⟩
  cases rest with
  | nil => exact p.readConstant_text [] t
  | cons c behind =>
    show (if p.char c = p.char v then _ else _) = p.outcome p.reading (if c = v then _ else _)
    by_cases h : c = v
    · rw [if_pos h, if_pos (congrArg p.char h)]
      exact p.readPower_text behind t
    · rw [if_neg h, if_neg fun hchar => h (p.char_injective hchar)]
      exact p.readConstant_text (c :: behind) t

/-- **A side is read the same under new names.** -/
theorem readSide_text (glued : Bool) :
    readSide (p.char v) glued (p.text s) = p.outcome id (readSide v glued s) := by
  -- along the reader's own recursion
  fun_induction readSide v glued s with
  | case1 glued =>
    show readSide _ glued [] = .ok []
    rw [readSide.eq_def]
  | case2 glued c behind hblank ih =>
    rw [← ih]
    exact readSide_blank ((p.isBlank_char c).trans hblank)
  | case3 glued c behind hblank hrun =>
    have hblank' := (p.isBlank_char c).trans (Bool.eq_false_of_not_eq_true hblank)
    show readSide _ glued (p.char c :: p.text behind) = _
    rw [readSide_cons hblank', isRun_char, if_pos hrun]
    rfl
  | case4 glued c behind hblank hrun reason hread =>
    have hblank' := (p.isBlank_char c).trans (Bool.eq_false_of_not_eq_true hblank)
    have hterm := p.readTerm_text v (c :: behind)
    show readSide _ glued (p.char c :: p.text behind) = _
    rw [readSide_cons hblank', isRun_char, if_neg hrun]
    change (Lexer.readTerm _ (p.text (c :: behind))).bind _ = _
    rw [hterm, hread]
    rfl
  | case5 glued c behind hblank hrun term rest hread _ ih =>
    have hblank' := (p.isBlank_char c).trans (Bool.eq_false_of_not_eq_true hblank)
    have hterm := p.readTerm_text v (c :: behind)
    show readSide _ glued (p.char c :: p.text behind) = _
    rw [readSide_cons hblank', isRun_char, if_neg hrun]
    change (Lexer.readTerm _ (p.text (c :: behind))).bind _ = _
    rw [hterm, hread, outcome_map]
    show (readSide (p.char v) (term.degree != .constant) (p.text rest)).map (term :: ·) = _
    rw [ih]
    cases readSide v (term.degree != .constant) rest <;> rfl

theorem terms_text : terms (p.char v) (p.text s) = p.answer id (terms v s) := by
  unfold terms
  rw [readSide_text]
  cases readSide v false s <;> rfl

end Readers

/-! ## Equations -/

section Equations

variable (p : Renaming) (s : List Char) (e : String)

theorem compact_text : Text.compact (p.text s) = p.text (Text.compact s) := by
  simp [Text.compact, text, List.filter_map, Function.comp_def]

/-- The equals sign is no letter. -/
theorem bne_equals_char (c : Char) : (p.char c != '=') = (c != '=') := by
  rw [Bool.eq_iff_iff, bne_iff_ne, bne_iff_ne, Ne, p.char_eq_iff (by decide)]

theorem count_text : (p.text s).count '=' = s.count '=' := by
  have hcount := List.count_map_of_injective s p.char p.char_injective '='
  rwa [p.char_eq_self (by decide)] at hcount

theorem sides_text :
    leftSide (p.text s) = p.text (leftSide s) ∧ rightSide (p.text s) = p.text (rightSide s) := by
  have hclass : (· != '=') ∘ p.char = (· != '=') := funext p.bne_equals_char
  simp [leftSide, rightSide, text, List.takeWhile_map, List.dropWhile_map, hclass]

theorem unknown?_text : unknown? (p.text s) = (unknown? s).map p.char := by
  have hclass : Char.isAlpha ∘ p.char = Char.isAlpha := funext p.isAlpha_char
  rw [unknown?, unknown?, text, List.find?_map, hclass]

theorem compact_equation : Text.compact (p.equation e).toList = p.text (Text.compact e.toList) := by
  rw [equation, String.toList_ofList, compact_text]

theorem normalise_equation : normalise (p.equation e) = p.answer p.normalisation (normalise e) := by
  have hcompact := p.compact_equation e
  have hcount' : (Text.compact (p.equation e).toList).count '=' =
      (Text.compact e.toList).count '=' := by
    rw [hcompact, count_text]
  by_cases hcount : (Text.compact e.toList).count '=' = 1
  · cases hunknown : unknown? (Text.compact e.toList) with
    | none =>
      have hunknown' : unknown? (Text.compact (p.equation e).toList) = none := by
        rw [hcompact, unknown?_text, hunknown]
        rfl
      rw [normalise_of_unknown?_eq_none hcount hunknown,
        normalise_of_unknown?_eq_none (hcount'.trans hcount) hunknown']
      rfl
    | some v =>
      have hunknown' : unknown? (Text.compact (p.equation e).toList) = some (p.char v) := by
        rw [hcompact, unknown?_text, hunknown]
        rfl
      obtain ⟨hleft, hright⟩ := p.sides_text (Text.compact e.toList)
      rw [normalise_of_unknown?_eq_some hcount hunknown,
        normalise_of_unknown?_eq_some (hcount'.trans hcount) hunknown', hcompact, hleft, hright,
        terms_text, terms_text]
      cases terms v (leftSide (Text.compact e.toList)) with
      | error reason => rfl
      | ok l =>
        cases terms v (rightSide (Text.compact e.toList)) with
        | error reason => rfl
        | ok r =>
          show (if (Coefficients.ofSides l r).isFinite then _ else _) =
            p.answer p.normalisation (if (Coefficients.ofSides l r).isFinite then _ else _)
          split <;> rfl
  · have hcount'' : (Text.compact (p.equation e).toList).count '=' ≠ 1 := hcount' ▸ hcount
    rw [normalise_of_count_ne hcount, normalise_of_count_ne hcount'', hcount']
    rfl

end Equations

end Renaming

/-- **The names of the letters do not matter.** -/
theorem normalise_rename (p : Renaming) (equation : String) :
    normalise (p.equation equation) = p.answer p.normalisation (normalise equation) ∧
      resolve (p.equation equation) = p.answer p.resolution (resolve equation) := by
  have hnormalise := p.normalise_equation equation
  refine ⟨hnormalise, ?_⟩
  cases h : normalise equation with
  | error reason =>
    rw [h] at hnormalise
    rw [resolve_eq_error h, resolve_eq_error hnormalise]
    rfl
  | ok n =>
    rw [h] at hnormalise
    rw [resolve_eq_solve h, resolve_eq_solve hnormalise]
    show (solve n.coefficients).map _ = p.answer p.resolution ((solve n.coefficients).map _)
    unfold solve Solution.accept
    cases n.coefficients.candidate.settle <;> rfl

/-- The letter of the powers of ten is a name like any other. -/
example :
    normalise (Renaming.equation (Equiv.swap ⟨'x', rfl⟩ ⟨'e', rfl⟩)
      (String.ofList ['x', '=', '1', 'e'])) = .error (.malformed (.unexpected 'x')) := by
  decide +kernel

end QuadraticSolver
