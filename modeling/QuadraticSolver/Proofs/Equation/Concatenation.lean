import QuadraticSolver.Proofs.Equation.Lexing

/-!
# One text behind another

A sign ends whatever stands in front of it. So a text that begins with a sign is
read behind any other as it is read alone, and the other is read as if the text
ended there: the terms of both together are the terms of the one and then those
of the other, and the first refusal is the refusal of both
(`readSide_append`).

No grammar is used here. The texts may hold blanks, they may be refused, and the
unknown may be any character that is not itself a sign: only the steps of the
reader are compared, for a numeral (`takeNumeral_append_of_sign`), for a term
(`readTerm_append`), and then for a side.
-/

namespace QuadraticSolver

/-- The text begins with a plus or a minus. -/
def BeginsWithSign (t : List Char) : Prop :=
  ∃ c rest, t = c :: rest ∧ Lexer.isSign c = true

section Append

variable {unknown : Char} {s t : List Char}

namespace Lexer

/-! ## A numeral and a mark -/

/-- A run does not reach into a text that begins with a sign. -/
theorem span_append (ht : BeginsWithSign t) (s : List Char) :
    (s ++ t).takeWhile isRun = s.takeWhile isRun ∧
      (s ++ t).dropWhile isRun = s.dropWhile isRun ++ t := by
  obtain ⟨c, rest, rfl, hc⟩ := ht
  have hrun : isRun c = false := isRun_eq_false_of_isSign hc
  induction s with
  | nil => simp [hrun]
  | cons d s ih =>
    by_cases hd : isRun d = true
    · simp [hd, ih]
    · simp [hd]

/-- A numeral ends before a sign, unless the sign is its own. -/
theorem takeNumeral_append_of_sign (ht : BeginsWithSign t) (hs : s ≠ []) :
    takeNumeral (s ++ t) = ((takeNumeral s).1, (takeNumeral s).2 ++ t) := by
  have hsign : takeSign (s ++ t) = ((takeSign s).1, (takeSign s).2 ++ t) := by
    cases s with
    | nil => exact absurd rfl hs
    | cons c s => by_cases hc : isSign c = true <;> simp [takeSign, hc]
  obtain ⟨htake, hdrop⟩ := span_append ht (takeSign s).2
  simp only [takeNumeral, hsign, htake, hdrop]

/-- A sign does not complete a mark of the square. -/
theorem dropSquareMark?_append (ht : BeginsWithSign t) (s : List Char) :
    dropSquareMark? (s ++ t) = (dropSquareMark? s).map (· ++ t) := by
  obtain ⟨c, rest, rfl, hc⟩ := ht
  obtain ⟨sign, rfl⟩ := exists_sign_of_isSign hc
  fun_cases dropSquareMark? s with
  | case1 rest => rfl
  | case2 rest => rfl
  | case3 rest => rfl
  | case4 =>
    -- at most two characters decide, so the sign counts where fewer are left
    rcases s with _ | ⟨d, _ | ⟨d', s⟩⟩ <;> cases sign <;>
      simp_all [dropSquareMark?, Sign.character]

/-! ## A term -/

/-- A term that is read leaves the text behind it as it is. -/
def leaveBehind (t : List Char) (r : Term × List Char) : Term × List Char :=
  (r.1, r.2 ++ t)

theorem readPower_append (ht : BeginsWithSign t) (text rest : List Char) :
    readPower text (rest ++ t) = (readPower text rest).map (leaveBehind t) := by
  unfold readPower
  rw [dropSquareMark?_append ht]
  cases coefficient text with
  | error reason => rfl
  | ok value => cases dropSquareMark? rest <;> rfl

/-- The refusal does not tell a sign from the end of the text. -/
theorem refusal_append (ht : BeginsWithSign t) (text rest : List Char) :
    refusal text (rest ++ t) = refusal text rest := by
  obtain ⟨c, behind, rfl, hc⟩ := ht
  unfold refusal
  cases rest <;> simp [hc]

theorem readConstant_append (ht : BeginsWithSign t) (text rest : List Char) :
    readConstant text (rest ++ t) = (readConstant text rest).map (leaveBehind t) := by
  unfold readConstant
  rw [refusal_append ht]
  split
  · cases number text <;> rfl
  · rfl

/-- **A term is read the same in front of a sign**, and refused the same. -/
theorem readTerm_append (hunknown : isSign unknown = false) (ht : BeginsWithSign t) (hs : s ≠ []) :
    readTerm unknown (s ++ t) = (readTerm unknown s).map (leaveBehind t) := by
  unfold readTerm
  rw [takeNumeral_append_of_sign ht hs]
  rcases takeNumeral s with ⟨text, rest⟩
  cases rest with
  | cons c behind =>
    dsimp only [List.cons_append]
    split
    · exact readPower_append ht text behind
    · exact readConstant_append ht text (c :: behind)
  | nil =>
    rw [← readConstant_append ht]
    obtain ⟨c, behind, rfl, hc⟩ := ht
    refine if_neg ?_
    rintro rfl
    rw [hunknown] at hc
    cases hc

end Lexer

/-! ## A side -/

/-- What stands in front of a sign does not matter to it. -/
theorem readSide_of_beginsWithSign (ht : BeginsWithSign t) (glued : Bool) :
    readSide unknown glued t = readSide unknown false t := by
  obtain ⟨c, rest, rfl, hc⟩ := ht
  have hrun : Lexer.isRun c = false := Lexer.isRun_eq_false_of_isSign hc
  rw [readSide_cons (Lexer.isBlank_eq_false_of_isSign hc),
    readSide_cons (Lexer.isBlank_eq_false_of_isSign hc), hrun, Bool.and_false, Bool.and_false]

/-- **The two texts are read one after the other.** -/
theorem readSide_append (hunknown : Lexer.isSign unknown = false) (ht : BeginsWithSign t)
    (glued : Bool) (s : List Char) :
    readSide unknown glued (s ++ t) =
      (readSide unknown glued s).bind fun ts => (readSide unknown false t).map (ts ++ ·) := by
  -- along the reader's own recursion; only where the first text ends is the flag handed over
  fun_induction readSide unknown glued s with
  | case1 glued =>
    rw [List.nil_append, readSide_of_beginsWithSign ht]
    cases readSide unknown false t <;> rfl
  | case2 glued c behind hblank ih =>
    rw [List.cons_append, readSide_blank hblank, ih]
  | case3 glued c behind hblank hrun =>
    rw [List.cons_append, readSide_cons (Bool.eq_false_of_not_eq_true hblank), if_pos hrun]
    rfl
  | case4 glued c behind hblank hrun reason hread =>
    have hterm := Lexer.readTerm_append hunknown ht (List.cons_ne_nil c behind)
    rw [List.cons_append] at hterm ⊢
    rw [readSide_cons (Bool.eq_false_of_not_eq_true hblank), if_neg hrun, hterm, hread]
    rfl
  | case5 glued c behind hblank hrun term rest hread _ ih =>
    have hterm := Lexer.readTerm_append hunknown ht (List.cons_ne_nil c behind)
    rw [List.cons_append] at hterm ⊢
    rw [readSide_cons (Bool.eq_false_of_not_eq_true hblank), if_neg hrun, hterm, hread]
    simp only [Except.map, Except.bind, Lexer.leaveBehind] at ih ⊢
    rw [ih]
    cases readSide unknown (term.degree != .constant) rest with
    | error reason => rfl
    | ok ts => cases readSide unknown false t <;> rfl

theorem terms_append (hunknown : Lexer.isSign unknown = false) (ht : BeginsWithSign t)
    (s : List Char) :
    terms unknown (s ++ t) =
      (terms unknown s).bind fun ts => (terms unknown t).map (ts ++ ·) := by
  unfold terms
  rw [readSide_append hunknown ht]
  cases readSide unknown false s with
  | error reason => rfl
  | ok ts => cases readSide unknown false t <;> rfl

/-- **Reading is a homomorphism where a sign stands.** Let the second text begin with a sign. A
refusal of the first text is the refusal of both. If the first text is read, a refusal of the second
is the refusal of both; and if both are read, the tokens of the two are those of the first without
its mark of the end, and then those of the second. -/
theorem tokens_append_of_sign (unknown : Char) (hunknown : Lexer.isSign unknown = false)
    (s t : List Char) (ht : BeginsWithSign t) :
    (∀ e, terms unknown s = .error e → terms unknown (s ++ t) = .error e) ∧
    ∀ js, (terms unknown s).map Token.sequence = .ok (js ++ [.finish]) →
      (∀ e, terms unknown t = .error e → terms unknown (s ++ t) = .error e) ∧
      ∀ js', (terms unknown t).map Token.sequence = .ok js' →
        (terms unknown (s ++ t)).map Token.sequence = .ok (js ++ js') := by
  rw [terms_append hunknown ht]
  cases terms unknown s with
  | error e => exact ⟨fun e' he => he, nofun⟩
  | ok ts =>
    refine ⟨nofun, fun js hjs => ?_⟩
    obtain rfl : ts.map Token.term = js :=
      List.append_cancel_right (Except.ok.inj hjs)
    cases terms unknown t with
    | error e => exact ⟨fun e' he => he, nofun⟩
    | ok us =>
      refine ⟨nofun, fun js' hjs' => ?_⟩
      have hus : Token.sequence us = js' := Except.ok.inj hjs'
      rw [← hus]
      simp [Except.bind, Except.map, Token.sequence]

/-- Behind `2x` and a blank, a square with its sign is read, and a sign without a term is
refused. -/
theorem tokens_append_of_sign_square :
    (terms 'x' ['2', 'x', ' ', '-', 'x', '²']).map Token.sequence =
        .ok [.term ⟨.linear, .ofInt 2⟩, .term ⟨.square, .ofInt (-1)⟩, .finish] ∧
      terms 'x' ['2', 'x', ' ', '-', ' '] = .error (.malformed (.unexpected ' ')) := by
  have hfirst : (terms 'x' ['2', 'x', ' ']).map Token.sequence =
      .ok ([.term ⟨.linear, .ofInt 2⟩] ++ [.finish]) := by
    decide +kernel
  have hread := tokens_append_of_sign 'x' (by decide) ['2', 'x', ' '] ['-', 'x', '²']
    ⟨_, _, rfl, by decide⟩
  have hrefused := tokens_append_of_sign 'x' (by decide) ['2', 'x', ' '] ['-', ' ']
    ⟨_, _, rfl, by decide⟩
  constructor
  · exact (hread.2 _ hfirst).2 [.term ⟨.square, .ofInt (-1)⟩, .finish] (by decide +kernel)
  · exact (hrefused.2 _ hfirst).1 _ (by decide +kernel)

end Append

end QuadraticSolver
