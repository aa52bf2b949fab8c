import QuadraticSolver.Proofs.Equation.Lexing
import QuadraticSolver.Proofs.Journal

/-!
# The texts of the journal

A record tells a text between double quotes, and a character that cannot stand
there is escaped. Which characters those are is a long list in general. Here it
is a short one: a text is recorded once its sides are read, and then nothing
but signs, runs, letters, marks of the square, the equals sign and blanks is
in it (`hasPlainText_of_mem`). The first five stand as they are, so a side is
told letter by letter (`quoted_of_side_mem`); the blanks of an equation are the
only characters that may be told by an escape.
-/

namespace QuadraticSolver

/-- The character can stand in an equation that is read, and is no blank. -/
def IsPlain (c : Char) : Prop :=
  Lexer.isSign c = true ∨ Lexer.isRun c = true ∨ c.isAlpha = true ∨ c = '^' ∨ c = '²' ∨ c = '='

/-- A side is plain, and an equation is plain but for its blanks. -/
def Record.HasPlainText : Record → Prop
  | side text _ _ => ∀ c ∈ text, IsPlain c
  | overflow equation _ => ∀ c ∈ equation.toList, IsPlain c ∨ Text.isBlank c = true
  | normalised equation _ _ => ∀ c ∈ equation.toList, IsPlain c ∨ Text.isBlank c = true
  | branch _ _ => True
  | refused _ => True

section Plain

variable {c unknown : Char} {s : List Char}

/-- Nothing is escaped that is printed and is neither the quote nor the backslash. -/
theorem Record.escaped_of_toNat (h : 33 ≤ c.toNat) (h' : c.toNat ≤ 126) (hquote : c ≠ '\x22')
    (hbackslash : c ≠ '\\') : Record.escaped c = [c] := by
  have hseen : Record.isSeen c = true := by
    have hblank := Lexer.isBlank_eq_false_of_toNat h (by omega)
    have hlow : ¬ c.toNat < 32 := by omega
    have hhigh : ¬ 127 ≤ c.toNat := by omega
    simp [Record.isSeen, hblank, hlow, hhigh]
  unfold Record.escaped
  split
  · exact absurd rfl hquote
  · exact absurd rfl hbackslash
  · exact absurd h (by decide)
  · exact absurd h (by decide)
  · exact absurd h (by decide)
  · exact absurd h (by decide)
  · rw [if_pos hseen]

/-- **Plain characters stand between double quotes as they are.** -/
theorem IsPlain.escaped (h : IsPlain c) : Record.escaped c = [c] := by
  rcases h with hsign | hrun | hletter | rfl | rfl | rfl
  · obtain ⟨s, rfl⟩ := Lexer.exists_sign_of_isSign hsign
    cases s <;> decide
  · have hcode := Lexer.toNat_of_isRun hrun
    refine Record.escaped_of_toNat (by omega) (by omega) ?_ ?_ <;> rintro rfl <;>
      exact absurd hrun (by decide)
  · have hcode := Lexer.toNat_of_isAlpha hletter
    refine Record.escaped_of_toNat (by omega) (by omega) ?_ ?_ <;> rintro rfl <;>
      exact absurd hletter (by decide)
  · decide
  · decide
  · decide

/-- A text of plain characters is told letter by letter. -/
theorem quoted_of_plain (h : ∀ c ∈ s, IsPlain c) :
    Record.quoted (String.ofList s) = "\"" ++ String.ofList s ++ "\"" := by
  have hself : s.flatMap Record.escaped = s := by
    rw [List.flatMap_congr fun c hc => (h c hc).escaped, List.flatMap_singleton']
  rw [Record.quoted, String.toList_ofList, hself]

/-- A side that is read is plain. -/
theorem isPlain_of_terms {ts : List Term} (hletter : unknown.isAlpha = true)
    (hbare : ∀ c ∈ s, Text.isBlank c = false) (h : terms unknown s = .ok ts) :
    ∀ c ∈ s, IsPlain c := by
  intro c hc
  obtain ⟨ws, hws⟩ := exists_reads_of_terms hbare h
  rcases hws.mem_characters hc with hsign | hrun | rfl | hmark
  · exact .inl hsign
  · exact .inr (.inl hrun)
  · exact .inr (.inr (.inl hletter))
  · simp only [List.mem_cons, List.not_mem_nil, or_false] at hmark
    rcases hmark with rfl | hcaret | hsuperscript
    · exact .inr (.inl (by decide))
    · exact .inr (.inr (.inr (.inl hcaret)))
    · exact .inr (.inr (.inr (.inr (.inl hsuperscript))))

end Plain

section Texts

variable {equation : String} {places : Places} {s L R : List Char} {v : Char} {l r : List Term}

/-- The left side of a text without blanks is plain where it is read. -/
theorem HasSides.isPlain_left (h : HasSides (Text.compact equation.toList) v L R)
    (hleft : terms v L = .ok l) : ∀ c ∈ L, IsPlain c :=
  isPlain_of_terms h.unknown.1 (fun _ hc => Text.not_isBlank_of_mem_compact
    (h.text ▸ List.mem_append_left _ hc)) hleft

/-- Where both sides are read, they are plain, and so is the equation but for its blanks. -/
theorem HasSides.isPlain (h : HasSides (Text.compact equation.toList) v L R)
    (hleft : terms v L = .ok l) (hright : terms v R = .ok r) :
    (∀ c ∈ L, IsPlain c) ∧ (∀ c ∈ R, IsPlain c) ∧
      ∀ c ∈ equation.toList, IsPlain c ∨ Text.isBlank c = true := by
  have hL := h.isPlain_left hleft
  have hR := isPlain_of_terms h.unknown.1 (fun _ hc => Text.not_isBlank_of_mem_compact
    (h.text ▸ List.mem_append_right _ (List.mem_cons_of_mem _ hc))) hright
  refine ⟨hL, hR, fun c hc => ?_⟩
  cases hblank : Text.isBlank c with
  | true => exact .inr rfl
  | false =>
    have hmem : c ∈ Text.compact equation.toList := List.mem_filter.mpr ⟨hc, by simp [hblank]⟩
    rw [h.text, List.mem_append, List.mem_cons] at hmem
    rcases hmem with hside | rfl | hside
    · exact .inl (hL c hside)
    · exact .inl (.inr (.inr (.inr (.inr (.inr rfl)))))
    · exact .inl (hR c hside)

/-- At every end the texts of the records are plain. -/
theorem EndsAt.hasPlainText {stage : Stage} {records : List Record}
    {answer : Except EquationError Solution}
    (h : EndsAt equation (Text.compact equation.toList) stage records answer) :
    ∀ record ∈ records, record.HasPlainText := by
  cases h with
  | equalsSigns hcount => exact List.forall_mem_nil _
  | noUnknown hcount hletter => exact List.forall_mem_nil _
  | left hsides hleft => exact List.forall_mem_nil _
  | right hsides hleft hright => exact List.forall_mem_singleton.mpr (hsides.isPlain_left hleft)
  | overflow hsides hleft hright hsum hfinite =>
    simpa [Record.HasPlainText] using hsides.isPlain hleft hright
  | refused hsides hleft hright hsum hfinite hvalue =>
    simpa [Record.HasPlainText] using hsides.isPlain hleft hright
  | solved hsides hleft hright hsum hfinite hsolve =>
    simpa [Record.HasPlainText] using hsides.isPlain hleft hright

/-- **What is recorded has nothing but plain characters and blanks**, whatever was entered. -/
theorem hasPlainText_of_mem {record : Record}
    (h : record ∈ (traceEvaluate equation places).records) : record.HasPlainText := by
  obtain ⟨stage, records, answer, hend⟩ := exists_endsAt equation
  rw [(hend.spec places).1] at h
  exact hend.hasPlainText record h

/-- **A side is told letter by letter.** -/
theorem quoted_of_side_mem (h : .side s v l ∈ (traceEvaluate equation places).records) :
    Record.quoted (String.ofList s) = "\"" ++ String.ofList s ++ "\"" :=
  quoted_of_plain (hasPlainText_of_mem h)

end Texts

end QuadraticSolver
