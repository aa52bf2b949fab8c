import QuadraticSolver.Proofs.Equation.Numeral

/-!
# A side is read exactly when it is written by the grammar

The reader of sides goes by maximal munch and a flag; the grammar of
`Proofs/Equation/Grammar` says what a side looks like. This module proves them
equal. The step is a single term, in both directions: a written term in front
of a text that may follow it is read as itself (`readTerm_characters`), and
whatever is read was written (`exists_of_readTerm`). A whole side follows by
induction over its terms.
-/

namespace QuadraticSolver

/-! ## The numeral at the front -/

namespace Lexer

/-- What the numeral leaves does not go on with the run. -/
theorem head_takeNumeral {s : List Char} {c : Char} (h : (takeNumeral s).2.head? = some c) :
    isRun c = false := by
  have hnot := List.head?_dropWhile_not isRun (takeSign s).2
  simp only [takeNumeral] at h
  rw [h] at hnot
  simpa using hnot

/-- The numeral at the front is an optional sign and a run. -/
theorem exists_numeral (s : List Char) : ∃ sign run,
    (takeNumeral s).1 = Sign.characters sign ++ run ∧ ∀ c ∈ run, isRun c = true := by
  have hrun : ∀ c ∈ (takeSign s).2.takeWhile isRun, isRun c = true := by
    intro c hc
    exact List.mem_takeWhile_imp hc
  have hsign : ∃ sign, (takeSign s).1 = Sign.characters sign := by
    cases s with
    | nil => exact ⟨none, rfl⟩
    | cons c rest =>
      by_cases hc : isSign c = true
      · obtain ⟨sign, rfl⟩ := exists_sign_of_isSign hc
        exact ⟨some sign, by rw [takeSign, if_pos hc]; rfl⟩
      · exact ⟨none, by rw [takeSign, if_neg hc]; rfl⟩
  obtain ⟨sign, hsign⟩ := hsign
  exact ⟨sign, _, congrArg (· ++ _) hsign, hrun⟩

/-- The sign at the front is the one that is written. -/
theorem takeSign_characters (sign : Option Sign) {s : List Char}
    (h : sign = none → ∀ c, s.head? = some c → isSign c = false) :
    takeSign (Sign.characters sign ++ s) = (Sign.characters sign, s) := by
  cases sign with
  | some sign => exact if_pos (isSign_character sign)
  | none =>
    cases s with
    | nil => rfl
    | cons c s => exact if_neg (by rw [h rfl c rfl]; decide)

end Lexer

namespace WrittenTerm

variable {unknown : Char} {w w' : WrittenTerm} {rest : List Char}

theorem takeNumeral_numeral (hrun : ∀ c ∈ w.run, Lexer.isRun c = true)
    (hrest : ∀ c, rest.head? = some c → Lexer.isRun c = false)
    (hsign : w.run = [] → ∀ c, rest.head? = some c → Lexer.isSign c = false) :
    Lexer.takeNumeral (w.numeral ++ rest) = (w.numeral, rest) := by
  have htake : Lexer.takeSign (Sign.characters w.sign ++ (w.run ++ rest)) =
      (Sign.characters w.sign, w.run ++ rest) := by
    apply Lexer.takeSign_characters w.sign
    intro _ c hc
    cases hw : w.run with
    | nil =>
      rw [hw, List.nil_append] at hc
      exact hsign hw c hc
    | cons d run =>
      rw [hw, List.cons_append, List.head?_cons, Option.some_inj] at hc
      subst hc
      exact Lexer.isSign_eq_false_of_isRun (hrun d (hw ▸ List.mem_cons_self))
  have hstop : rest.takeWhile Lexer.isRun = [] ∧ rest.dropWhile Lexer.isRun = rest := by
    cases rest with
    | nil => exact ⟨rfl, rfl⟩
    | cons c rest => simp [hrest c rfl]
  rw [numeral, List.append_assoc, Lexer.takeNumeral, htake]
  simp only [List.takeWhile_append_of_pos hrun, List.dropWhile_append_of_pos hrun, hstop,
    List.append_nil]

/-! ## One term -/

/-- The text may stand behind the term: a sign may always, and the unknown behind a term in the
unknown. -/
def MayStandBefore (unknown : Char) (w : WrittenTerm) (rest : List Char) : Prop :=
  ∀ c, rest.head? = some c → Lexer.isSign c = true ∨ w.power ≠ .constant ∧ c = unknown

theorem any_isDigit_numeral (w : WrittenTerm) :
    w.numeral.any Char.isDigit = w.run.any Char.isDigit := by
  rw [numeral, List.any_append]
  rcases w.sign with _ | _ | _ <;> rfl

theorem WellFormed.isNumber_of_constant (hw : w.WellFormed) (hpower : w.power = .constant) :
    w.IsNumber :=
  hw.numeral.resolve_left (run_ne_nil (hw.constant hpower))

/-- A constant is read where its run is a number, and only there. -/
theorem readConstant_numeral (hrun : ∀ c ∈ w.run, Lexer.isRun c = true) {r : Term × List Char} :
    Lexer.readConstant w.numeral rest = .ok r ↔
      w.IsNumber ∧ r = (⟨.constant, w.coefficient⟩, rest) := by
  unfold Lexer.readConstant
  rw [any_isDigit_numeral, number_numeral hrun]
  by_cases hnumber : w.IsNumber
  · rw [if_pos hnumber.1, if_pos hnumber]
    simp [Except.map, hnumber, eq_comm]
  · rw [if_neg hnumber]
    simp only [hnumber, false_and, iff_false]
    split <;> simp [Except.map]

/-- A term in the unknown is read where its run is empty or a number, and only there. -/
theorem readPower_numeral (hrun : ∀ c ∈ w.run, Lexer.isRun c = true) {r : Term × List Char} :
    Lexer.readPower w.numeral rest = .ok r ↔ (w.run = [] ∨ w.IsNumber) ∧
      r = match Lexer.dropSquareMark? rest with
        | some rest => (⟨.square, w.coefficient⟩, rest)
        | none => (⟨.linear, w.coefficient⟩, rest) := by
  unfold Lexer.readPower
  rw [coefficient_numeral hrun]
  by_cases hread : w.run = [] ∨ w.IsNumber
  · rw [if_pos hread]
    simp only [Except.map, hread, true_and, Except.ok.injEq]
    exact eq_comm
  · rw [if_neg hread]
    simp [Except.map, hread]

theorem dropSquareMark?_characters (mark : SquareMark) (rest : List Char) :
    Lexer.dropSquareMark? (mark.characters ++ rest) = some rest := by
  cases mark <;> rfl

theorem dropSquareMark?_eq_none (hletter : unknown.isAlpha = true)
    (h : ∀ c, rest.head? = some c → Lexer.isSign c = true ∨ c = unknown) :
    Lexer.dropSquareMark? rest = none := by
  have hclass : ∀ c ∈ ['2', '²', '^'], Lexer.isSign c = false ∧ c.isAlpha = false := by
    simp [Lexer.isSign]
  have hmark : ∀ c ∈ ['2', '²', '^'], rest.head? ≠ some c := by
    intro c hc hhead
    rcases h c hhead with hsign | rfl
    · exact absurd ((hclass c hc).1.symm.trans hsign) (by decide)
    · exact absurd ((hclass c hc).2.symm.trans hletter) (by decide)
  unfold Lexer.dropSquareMark?
  split
  · exact absurd rfl (hmark '2' (by decide))
  · exact absurd rfl (hmark '²' (by decide))
  · exact absurd rfl (hmark '^' (by decide))
  · rfl

/-- A mark of the square is one of the three. -/
theorem exists_squareMark {s : List Char} (h : Lexer.dropSquareMark? s = some rest) :
    ∃ mark : SquareMark, s = mark.characters ++ rest := by
  unfold Lexer.dropSquareMark? at h
  split at h <;> cases h
  · exact ⟨.two, rfl⟩
  · exact ⟨.superscript, rfl⟩
  · exact ⟨.caret, rfl⟩

/-- The numeral of a term in the unknown ends where the unknown stands. -/
theorem takeNumeral_unknown (hletter : unknown.isAlpha = true)
    (hrun : ∀ c ∈ w.run, Lexer.isRun c = true) (behind : List Char) :
    Lexer.takeNumeral (w.numeral ++ unknown :: behind) = (w.numeral, unknown :: behind) := by
  refine takeNumeral_numeral hrun (fun c hc => ?_) (fun _ c hc => ?_)
  · obtain rfl : unknown = c := Option.some_inj.mp hc
    exact Lexer.isRun_eq_false_of_isAlpha hletter
  · obtain rfl : unknown = c := Option.some_inj.mp hc
    exact Lexer.isSign_eq_false_of_isAlpha hletter

theorem readTerm_unknown (hletter : unknown.isAlpha = true)
    (hrun : ∀ c ∈ w.run, Lexer.isRun c = true) (behind : List Char) :
    Lexer.readTerm unknown (w.numeral ++ unknown :: behind) = Lexer.readPower w.numeral behind := by
  rw [Lexer.readTerm, takeNumeral_unknown hletter hrun]
  exact if_pos rfl

theorem readTerm_constant (hletter : unknown.isAlpha = true)
    (hrun : ∀ c ∈ w.run, Lexer.isRun c = true) (hne : w.run ≠ [])
    (hrest : ∀ c, rest.head? = some c → Lexer.isSign c = true) :
    Lexer.readTerm unknown (w.numeral ++ rest) = Lexer.readConstant w.numeral rest := by
  have hstop : ∀ c, rest.head? = some c → Lexer.isRun c = false := fun c hc => by
    cases hr : Lexer.isRun c with
    | false => rfl
    | true => exact absurd ((Lexer.isSign_eq_false_of_isRun hr).symm.trans (hrest c hc)) (by decide)
  rw [Lexer.readTerm, takeNumeral_numeral hrun hstop fun hempty => absurd hempty hne]
  cases rest with
  | nil => rfl
  | cons c rest =>
    refine if_neg ?_
    rintro rfl
    exact absurd ((Lexer.isSign_eq_false_of_isAlpha hletter).symm.trans (hrest c rfl)) (by decide)

/-- **A written term is read as itself**, whatever may stand behind it. -/
theorem readTerm_characters (hletter : unknown.isAlpha = true) (hw : w.WellFormed)
    (hrest : w.MayStandBefore unknown rest) :
    Lexer.readTerm unknown (w.characters unknown ++ rest) = .ok (w.term, rest) := by
  rw [characters, List.append_assoc]
  cases hpower : w.power with
  | constant =>
    have hsign : ∀ c, rest.head? = some c → Lexer.isSign c = true := by
      intro c hc
      exact (hrest c hc).resolve_right fun h => h.1 hpower
    have hnumber := hw.isNumber_of_constant hpower
    show Lexer.readTerm unknown (w.numeral ++ rest) = _
    rw [readTerm_constant hletter hw.run (run_ne_nil hnumber.1) hsign,
      readConstant_numeral hw.run, term, hpower]
    exact ⟨hnumber, rfl⟩
  | linear =>
    have hmark : Lexer.dropSquareMark? rest = none :=
      dropSquareMark?_eq_none hletter fun c hc => (hrest c hc).imp_right And.right
    show Lexer.readTerm unknown (w.numeral ++ unknown :: rest) = _
    rw [readTerm_unknown hletter hw.run, readPower_numeral hw.run, hmark, term, hpower]
    exact ⟨hw.numeral, rfl⟩
  | square mark =>
    show Lexer.readTerm unknown (w.numeral ++ unknown :: (mark.characters ++ rest)) = _
    rw [readTerm_unknown hletter hw.run, readPower_numeral hw.run, dropSquareMark?_characters,
      term, hpower]
    exact ⟨hw.numeral, rfl⟩

/-- The term is what was written in front of what is left. Behind a constant the run has ended, and
the unknown does not follow. -/
structure WrittenIn (unknown : Char) (s : List Char) (r : Term × List Char) (w : WrittenTerm) :
    Prop where
  wellFormed : w.WellFormed
  text : w.characters unknown ++ r.2 = s
  term : w.term = r.1
  stop : w.power = .constant → ∀ c, r.2.head? = some c → Lexer.isRun c = false ∧ c ≠ unknown

theorem writtenIn_of_readConstant {r : Term × List Char}
    (hrun : ∀ c ∈ w.run, Lexer.isRun c = true) (hpower : w.power = .constant)
    (hrest : ∀ c, rest.head? = some c → Lexer.isRun c = false ∧ c ≠ unknown)
    (h : Lexer.readConstant w.numeral rest = .ok r) :
    WrittenIn unknown (w.numeral ++ rest) r w := by
  obtain ⟨hnumber, rfl⟩ := (readConstant_numeral hrun).mp h
  refine ⟨⟨hrun, fun _ => hnumber.1, Or.inr hnumber⟩, ?_, ?_, fun _ => hrest⟩
  · rw [characters, hpower, WrittenPower.characters, List.append_nil]
  · rw [WrittenTerm.term, hpower]
    rfl

theorem exists_of_readPower {sign : Option Sign} {run : List Char} {r : Term × List Char}
    (hrun : ∀ c ∈ run, Lexer.isRun c = true)
    (h : Lexer.readPower (Sign.characters sign ++ run) rest = .ok r) :
    ∃ w, WrittenIn unknown (Sign.characters sign ++ run ++ unknown :: rest) r w := by
  obtain ⟨hnumeral, rfl⟩ := (readPower_numeral (w := ⟨sign, run, .linear⟩) hrun).mp h
  cases hmark : Lexer.dropSquareMark? rest with
  | none =>
    refine ⟨⟨sign, run, .linear⟩, ⟨hrun, nofun, hnumeral⟩, ?_, rfl, nofun⟩
    exact List.append_assoc _ [unknown] rest
  | some behind =>
    obtain ⟨mark, rfl⟩ := exists_squareMark hmark
    refine ⟨⟨sign, run, .square mark⟩, ⟨hrun, nofun, hnumeral⟩, ?_, rfl, nofun⟩
    exact List.append_assoc _ (unknown :: mark.characters) behind

/-- **What is read was written**: a term that is read is a well-formed one, and it is all that is
taken off the text. -/
theorem exists_of_readTerm {s : List Char} {r : Term × List Char}
    (h : Lexer.readTerm unknown s = .ok r) : ∃ w, WrittenIn unknown s r w := by
  obtain ⟨sign, run, htext, hrun⟩ := Lexer.exists_numeral s
  have hstop := @Lexer.head_takeNumeral s
  rw [← Lexer.takeNumeral_append s]
  unfold Lexer.readTerm at h
  revert htext hstop h
  rcases Lexer.takeNumeral s with ⟨text, rest⟩
  rintro h rfl hstop
  cases rest with
  | nil =>
    exact ⟨_, writtenIn_of_readConstant (w := ⟨sign, run, .constant⟩) hrun rfl nofun h⟩
  | cons c behind =>
    dsimp only at h
    split at h
    next hc =>
      subst hc
      exact exists_of_readPower hrun h
    next hc =>
      have hend : ∀ d, (c :: behind).head? = some d →
          Lexer.isRun d = false ∧ d ≠ unknown := by
        intro d hd
        obtain rfl : c = d := Option.some_inj.mp hd
        exact ⟨hstop rfl, hc⟩
      exact ⟨_, writtenIn_of_readConstant (w := ⟨sign, run, .constant⟩) hrun rfl hend h⟩

/-! ## What stands behind a term -/

/-- A term begins with a sign, with its run or with the unknown. -/
theorem WellFormed.exists_characters_eq_cons (unknown : Char) (hw : w.WellFormed) :
    ∃ c rest, w.characters unknown = c :: rest ∧
      (Lexer.isSign c = true ∨ Lexer.isRun c = true ∨ c = unknown ∧ w.power ≠ .constant) := by
  rw [characters, WrittenTerm.numeral]
  cases hsign : w.sign with
  | some sign => exact ⟨_, _, rfl, Or.inl (Lexer.isSign_character sign)⟩
  | none =>
    cases hrun : w.run with
    | cons c run => exact ⟨c, _, rfl, Or.inr (Or.inl (hw.run c (hrun ▸ List.mem_cons_self)))⟩
    | nil =>
      cases hpower : w.power with
      | constant => exact absurd hrun (run_ne_nil (hw.constant hpower))
      | linear => exact ⟨unknown, _, rfl, Or.inr (Or.inr ⟨rfl, by simp⟩)⟩
      | square mark => exact ⟨unknown, _, rfl, Or.inr (Or.inr ⟨rfl, by simp⟩)⟩

/-- Nothing that a term begins with is blank. -/
theorem isBlank_eq_false {c : Char} (hletter : unknown.isAlpha = true)
    (h : Lexer.isSign c = true ∨ Lexer.isRun c = true ∨ c = unknown ∧ w.power ≠ .constant) :
    Text.isBlank c = false := by
  rcases h with hsign | hrun | ⟨rfl, -⟩
  · exact Lexer.isBlank_eq_false_of_isSign hsign
  · have := Lexer.toNat_of_isRun hrun
    exact Lexer.isBlank_eq_false_of_toNat (by omega) (by omega)
  · have := Lexer.toNat_of_isAlpha hletter
    exact Lexer.isBlank_eq_false_of_toNat (by omega) (by omega)

end WrittenTerm

/-! ## The steps of a side -/

section Side

variable {unknown : Char} {glued : Bool} {w next : WrittenTerm} {ws ws' : List WrittenTerm}
variable {side rest : List Char} {ts : List Term}

theorem readSide_blank {c : Char} {behind : List Char} (hblank : Text.isBlank c = true) :
    readSide unknown glued (c :: behind) = readSide unknown glued behind := by
  rw [readSide.eq_def]
  exact if_pos hblank

theorem readSide_cons {c : Char} {behind : List Char} (hblank : Text.isBlank c = false) :
    readSide unknown glued (c :: behind) =
      if glued && Lexer.isRun c then .error (.unexpected c)
      else (Lexer.readTerm unknown (c :: behind)).bind fun r =>
        (readSide unknown (r.1.degree != .constant) r.2).map (r.1 :: ·) := by
  rw [readSide.eq_def]
  refine (if_neg (by rw [hblank]; decide)).trans ?_
  refine if_congr Iff.rfl rfl ?_
  split
  next reason h => rw [h]; rfl
  next term rest h => dsimp only; rw [h]; rfl

/-- A term that is read is the first of the side, and the rest is read behind it. -/
theorem readSide_cons_eq_ok {c : Char} {behind : List Char} (hblank : Text.isBlank c = false) :
    readSide unknown glued (c :: behind) = .ok ts ↔
      (glued = true → Lexer.isRun c = false) ∧ ∃ r ts',
        Lexer.readTerm unknown (c :: behind) = .ok r ∧
        readSide unknown (r.1.degree != .constant) r.2 = .ok ts' ∧ ts = r.1 :: ts' := by
  rw [readSide_cons hblank]
  by_cases hrun : (glued && Lexer.isRun c) = true
  · obtain ⟨rfl, hc⟩ := Bool.and_eq_true_iff.mp hrun
    simp [hc]
  · have hflag : glued = true → Lexer.isRun c = false := by
      intro hglued
      simpa [hglued] using hrun
    rw [if_neg hrun]
    cases hterm : Lexer.readTerm unknown (c :: behind) with
    | error reason => simp [Except.bind]
    | ok r =>
      cases hside : readSide unknown (r.1.degree != .constant) r.2 with
      | error reason => simp [Except.bind, Except.map, hside]
      | ok ts' =>
        simp only [Except.bind, hside, Except.map, Except.ok.injEq]
        constructor
        · rintro rfl
          exact ⟨hflag, r, ts', rfl, hside, rfl⟩
        · rintro ⟨-, r', ts'', rfl, hside', rfl⟩
          rw [hside, Except.ok.injEq] at hside'
          rw [hside']

/-! ## Written sides, term by term -/

theorem Reads.nil : Reads unknown [] [] :=
  ⟨rfl, fun _ h => absurd h List.not_mem_nil, List.isChain_nil⟩

/-- The side of no terms is empty, and only that. -/
theorem Reads.eq_nil_iff (h : Reads unknown side ws) : ws = [] ↔ side = [] := by
  constructor
  · rintro rfl
    exact h.text.symm
  · rintro rfl
    cases ws with
    | nil => rfl
    | cons w ws =>
      obtain ⟨c, rest, hc, -⟩ := (h.wellFormed w List.mem_cons_self).exists_characters_eq_cons
        unknown
      have htext := h.text
      rw [List.flatMap_cons, hc] at htext
      cases htext

/-- A side without its first term. -/
theorem Reads.tail (h : Reads unknown side (w :: ws)) :
    Reads unknown (ws.flatMap (WrittenTerm.characters unknown)) ws :=
  ⟨rfl, (List.forall_mem_cons.mp h.wellFormed).2, (List.isChain_cons.mp h.chain).2⟩

/-- A text begins as its first term does. -/
theorem Reads.head (h : Reads unknown side (next :: ws)) :
    side.head? = (next.characters unknown).head? := by
  obtain ⟨c, rest, hc, -⟩ := (h.wellFormed next List.mem_cons_self).exists_characters_eq_cons
    unknown
  rw [← h.text, List.flatMap_cons, hc]
  rfl

/-- What stands behind a term of a side may stand there. -/
theorem Reads.mayStandBefore (h : Reads unknown side (w :: ws)) :
    w.MayStandBefore unknown (ws.flatMap (WrittenTerm.characters unknown)) := by
  intro c hc
  cases ws with
  | nil => cases hc
  | cons next ws =>
    have hchain : w.MayPrecede unknown next := (List.isChain_cons.mp h.chain).1 next rfl
    have hnext := h.tail.wellFormed next List.mem_cons_self
    obtain ⟨d, rest, hd, hfirst⟩ := hnext.exists_characters_eq_cons unknown
    rw [h.tail.head, hd, List.head?_cons, Option.some_inj] at hc
    subst hc
    have hd' := hchain d (by rw [hd]; rfl)
    by_cases hpower : w.power = .constant
    · rw [if_pos hpower] at hd'
      exact Or.inl hd'
    · rw [if_neg hpower] at hd'
      rcases hfirst with hsign | hrun | ⟨rfl, -⟩
      · exact Or.inl hsign
      · exact absurd (hd'.symm.trans hrun) (by decide)
      · exact Or.inr ⟨hpower, rfl⟩

/-- Another term may be written in front of a side. -/
theorem Reads.cons (h : Reads unknown rest ws) (hw : w.WellFormed)
    (hrest : ∀ c, rest.head? = some c →
      if w.power = .constant then Lexer.isRun c = false ∧ c ≠ unknown else Lexer.isRun c = false) :
    Reads unknown (w.characters unknown ++ rest) (w :: ws) := by
  refine ⟨?_, List.forall_mem_cons.mpr ⟨hw, h.wellFormed⟩, List.isChain_cons.mpr ⟨?_, h.chain⟩⟩
  · rw [List.flatMap_cons, h.text]
  · intro next hnext c hc
    cases ws with
    | nil => cases hnext
    | cons first ws =>
      obtain rfl : first = next := Option.some_inj.mp hnext
      obtain ⟨d, tail, hd, hfirst⟩ :=
        (h.wellFormed first List.mem_cons_self).exists_characters_eq_cons unknown
      rw [hd] at hc
      obtain rfl : d = c := Option.some_inj.mp hc
      have hd' := hrest d (by rw [h.head, hd]; rfl)
      by_cases hpower : w.power = .constant
      · rw [if_pos hpower] at hd' ⊢
        rcases hfirst with hsign | hrun | ⟨rfl, -⟩
        · exact hsign
        · exact absurd (hd'.1.symm.trans hrun) (by decide)
        · exact absurd rfl hd'.2
      · rw [if_neg hpower] at hd' ⊢
        exact hd'

theorem degree_bne_constant (w : WrittenTerm) :
    (w.term.degree != .constant) = true ↔ w.power ≠ .constant := by
  unfold WrittenTerm.term
  cases w.power <;> simp [WrittenPower.degree]

/-! ## Whole sides -/

/-- **A written side is read as its terms.** -/
theorem Reads.readSide_eq (hletter : unknown.isAlpha = true) (h : Reads unknown side ws)
    (hglued : glued = true → ∀ c, side.head? = some c → Lexer.isRun c = false) :
    readSide unknown glued side = .ok (ws.map WrittenTerm.term) := by
  induction ws generalizing side glued with
  | nil =>
    rw [h.eq_nil_iff.mp rfl, readSide.eq_def]
    rfl
  | cons w ws ih =>
    have hw := h.wellFormed w List.mem_cons_self
    have htext : side = w.characters unknown ++ ws.flatMap (WrittenTerm.characters unknown) :=
      h.text.symm
    obtain ⟨c, rest, hc, hfirst⟩ := hw.exists_characters_eq_cons unknown
    have hread := WrittenTerm.readTerm_characters hletter hw h.mayStandBefore
    rw [htext, hc, List.cons_append] at hglued ⊢
    rw [hc, List.cons_append] at hread
    have hflag : (w.term.degree != .constant) = true → ∀ d,
        (ws.flatMap (WrittenTerm.characters unknown)).head? = some d → Lexer.isRun d = false := by
      intro hdegree d hd
      rcases h.mayStandBefore d hd with hsign | ⟨-, rfl⟩
      · exact Lexer.isRun_eq_false_of_isSign hsign
      · exact Lexer.isRun_eq_false_of_isAlpha hletter
    exact (readSide_cons_eq_ok (WrittenTerm.isBlank_eq_false hletter hfirst)).mpr
      ⟨fun hg => hglued hg c rfl, _, _, hread, ih h.tail hflag, rfl⟩

/-- **A side that is read was written.** -/
theorem exists_reads_of_readSide {glued : Bool} {side : List Char} {ts : List Term}
    (hside : ∀ c ∈ side, Text.isBlank c = false) (h : readSide unknown glued side = .ok ts) :
    ∃ ws, Reads unknown side ws ∧
      (glued = true → ∀ c, side.head? = some c → Lexer.isRun c = false) := by
  cases side with
  | nil => exact ⟨[], Reads.nil, nofun⟩
  | cons c behind =>
    obtain ⟨hc, r, ts', hterm, hrest, rfl⟩ :=
      (readSide_cons_eq_ok (hside c List.mem_cons_self)).mp h
    have hshorter := Lexer.readTerm_shorter hterm
    obtain ⟨w, hw⟩ := WrittenTerm.exists_of_readTerm hterm
    have hblank : ∀ d ∈ r.2, Text.isBlank d = false := by
      intro d hd
      exact hside d (hw.text ▸ List.mem_append_right _ hd)
    obtain ⟨ws, hws, hflag⟩ := exists_reads_of_readSide hblank hrest
    refine ⟨w :: ws, ?_, ?_⟩
    · rw [← hw.text]
      apply hws.cons hw.wellFormed
      intro d hd
      split
      next hpower => exact hw.stop hpower d hd
      next hpower => exact hflag (hw.term ▸ (degree_bne_constant w).mpr hpower) d hd
    · intro hg d hd
      obtain rfl : c = d := Option.some_inj.mp hd
      exact hc hg
termination_by side.length

/-! ## One reading only -/

theorem Sign.characters_injective {a b : Option Sign} (h : Sign.characters a = Sign.characters b) :
    a = b := by
  rcases a with _ | _ | _ <;> rcases b with _ | _ | _ <;> simp_all [Sign.characters, Sign.character]

theorem WrittenPower.characters_injective {p q : WrittenPower}
    (h : p.characters unknown = q.characters unknown) : p = q := by
  rcases p with _ | _ | _ | _ | _ <;> rcases q with _ | _ | _ | _ | _ <;>
    simp_all [WrittenPower.characters, SquareMark.characters]

/-- The numeral of a term and what is behind it, found in its characters. -/
theorem WrittenTerm.takeNumeral_characters (hletter : unknown.isAlpha = true) (hw : w.WellFormed) :
    Lexer.takeNumeral (w.characters unknown) = (w.numeral, w.power.characters unknown) := by
  unfold WrittenTerm.characters
  cases w.power with
  | constant => exact takeNumeral_numeral hw.run nofun fun _ => nofun
  | linear => exact takeNumeral_unknown hletter hw.run []
  | square mark => exact takeNumeral_unknown hletter hw.run mark.characters

/-- A term can be told from its characters. -/
theorem WrittenTerm.WellFormed.eq_of_characters (hletter : unknown.isAlpha = true)
    (hw : w.WellFormed) (hnext : next.WellFormed)
    (h : w.characters unknown = next.characters unknown) : w = next := by
  have hparts := congrArg Lexer.takeNumeral h
  rw [takeNumeral_characters hletter hw, takeNumeral_characters hletter hnext,
    Prod.mk.injEq] at hparts
  have hsign := congrArg Lexer.takeSign hparts.1
  unfold WrittenTerm.numeral at hsign
  rw [Lexer.takeSign_characters w.sign fun _ c hc => ?_,
    Lexer.takeSign_characters next.sign fun _ c hc => ?_, Prod.mk.injEq] at hsign
  · obtain ⟨sign, run, power⟩ := w
    obtain ⟨sign', run', power'⟩ := next
    obtain rfl : sign = sign' := Sign.characters_injective hsign.1
    obtain rfl : run = run' := hsign.2
    obtain rfl : power = power' := WrittenPower.characters_injective hparts.2
    rfl
  · exact Lexer.isSign_eq_false_of_isRun (hnext.run c (List.mem_of_mem_head? hc))
  · exact Lexer.isSign_eq_false_of_isRun (hw.run c (List.mem_of_mem_head? hc))

/-- **A side is written in one way only.** -/
theorem Reads.unique (hletter : unknown.isAlpha = true) (h : Reads unknown side ws)
    (h' : Reads unknown side ws') : ws = ws' := by
  induction ws generalizing side ws' with
  | nil => exact (h'.eq_nil_iff.mpr (h.eq_nil_iff.mp rfl)).symm
  | cons w ws ih =>
    cases ws' with
    | nil => exact h.eq_nil_iff.mpr (h'.eq_nil_iff.mp rfl)
    | cons w' ws' =>
      have hw := h.wellFormed w List.mem_cons_self
      have hw' := h'.wellFormed w' List.mem_cons_self
      have hread := WrittenTerm.readTerm_characters hletter hw h.mayStandBefore
      have hread' := WrittenTerm.readTerm_characters hletter hw' h'.mayStandBefore
      rw [← List.flatMap_cons, h.text] at hread
      rw [← List.flatMap_cons, h'.text, hread, Except.ok.injEq, Prod.mk.injEq] at hread'
      have hrest := hread'.2
      have htext := h.text.trans h'.text.symm
      rw [List.flatMap_cons, List.flatMap_cons, hrest] at htext
      obtain rfl : w = w' := hw.eq_of_characters hletter hw' (List.append_cancel_right htext)
      rw [ih h.tail (hrest ▸ h'.tail)]

/-- The tokens of a written side. -/
theorem Reads.terms_eq (hletter : unknown.isAlpha = true) (h : Reads unknown side ws) :
    terms unknown side = .ok (ws.map WrittenTerm.term) := by
  rw [terms, h.readSide_eq hletter fun hglued : false = true => nomatch hglued]
  rfl

theorem exists_reads_of_terms (hside : ∀ c ∈ side, Text.isBlank c = false)
    (h : terms unknown side = .ok ts) : ∃ ws, Reads unknown side ws := by
  unfold terms at h
  cases hread : readSide unknown false side with
  | error reason =>
    rw [hread] at h
    cases h
  | ok ts' =>
    obtain ⟨ws, hws, -⟩ := exists_reads_of_readSide hside hread
    exact ⟨ws, hws⟩

/-- **The reader and the grammar agree.** In a text without blanks, the reader of sides succeeds
exactly where the text is written by the grammar; then it is written in one way only, and the tokens
are the written terms in order and one mark of the end behind them. -/
theorem tokens_iff_reads (unknown : Char) (hletter : unknown.isAlpha = true) (side : List Char)
    (hside : ∀ c ∈ side, Text.isBlank c = false) :
    ((∃ ts, terms unknown side = .ok ts) ↔ ∃ ws, Reads unknown side ws) ∧
    (∀ ws ws', Reads unknown side ws → Reads unknown side ws' → ws = ws') ∧
    ∀ ws, Reads unknown side ws →
      (terms unknown side).map Token.sequence =
        .ok (ws.map (fun w => Token.term w.term) ++ [.finish]) ∧
      Token.finish ∉ ws.map fun w => Token.term w.term := by
  refine ⟨⟨fun ⟨ts, h⟩ => exists_reads_of_terms hside h, fun ⟨ws, h⟩ => ⟨_, h.terms_eq hletter⟩⟩,
    fun ws ws' h h' => h.unique hletter h', fun ws h => ⟨?_, by simp⟩⟩
  rw [h.terms_eq hletter]
  simp [Except.map, Token.sequence, Function.comp_def]

/-- The square with a plain `2` behind the unknown, and an unknown with a minus. -/
theorem tokens_square_minus_unknown :
    (terms 'x' ['x', '2', '-', 'x']).map Token.sequence =
      .ok [.term ⟨.square, .ofInt 1⟩, .term ⟨.linear, .ofInt (-1)⟩, .finish] := by
  have hreads : Reads 'x' ['x', '2', '-', 'x']
      [⟨none, [], .square .two⟩, ⟨some .minus, [], .linear⟩] := by
    refine ⟨rfl, ?_, ?_⟩
    · simp only [List.forall_mem_cons]
      exact ⟨⟨nofun, nofun, Or.inl rfl⟩, ⟨nofun, nofun, Or.inl rfl⟩, nofun⟩
    · apply List.isChain_pair.mpr
      intro c hc
      obtain rfl : '-' = c := Option.some_inj.mp hc
      decide
  have htokens := ((tokens_iff_reads 'x' (by decide) _ (by simp [Text.isBlank])).2.2 _ hreads).1
  simpa [WrittenTerm.term, WrittenPower.degree, WrittenTerm.coefficient, WrittenTerm.isNegative]
    using htokens

end Side

end QuadraticSolver
