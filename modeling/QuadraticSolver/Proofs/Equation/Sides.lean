import QuadraticSolver.Proofs.Equation.Lexing
import QuadraticSolver.Proofs.Equation.Normalisation

/-!
# Equations of two written sides

What an equation comes to when its two sides are given as they are written. The
characters of a side are known (`Reads.mem_characters`), so the equals sign
between two sides is the only one and the letter of a side is the unknown; what
is left of all the exits is the question whether the sums are finite
(`normalise_eq_of_reads`).

A term that is written with its sign may stand behind any other. So terms with
their signs are a side in any order (`reads_of_signed`), also behind a side that
is there already (`Reads.append`).
-/

namespace QuadraticSolver

/-! ## The characters of a side -/

section Characters

variable {v : Char} {side : List Char} {ws : List WrittenTerm} {c : Char}

/-- There is no equals sign in a side. -/
theorem Reads.not_mem_equals (hletter : v.isAlpha = true) (h : Reads v side ws) : '=' ∉ side := by
  intro hc
  rcases h.mem_characters hc with hsign | hrun | rfl | hmark
  · exact absurd hsign (by decide)
  · exact absurd hrun (by decide)
  · exact absurd hletter (by decide)
  · exact absurd hmark (by decide)

/-- The only letter of a side is the unknown. -/
theorem Reads.eq_of_isAlpha (h : Reads v side ws) (hc : c ∈ side) (halpha : c.isAlpha = true) :
    c = v := by
  rcases h.mem_characters hc with hsign | hrun | hv | hmark
  · exact absurd ((Lexer.isSign_eq_false_of_isAlpha halpha).symm.trans hsign) (by decide)
  · exact absurd ((Lexer.isRun_eq_false_of_isAlpha halpha).symm.trans hrun) (by decide)
  · exact hv
  · simp only [List.mem_cons, List.not_mem_nil, or_false] at hmark
    rcases hmark with rfl | rfl | rfl <;> exact absurd halpha (by decide)

end Characters

/-! ## Terms with their signs -/

section Signed

variable {v : Char} {side side' : List Char} {w : WrittenTerm} {ws ws' : List WrittenTerm}

/-- A term with its sign may stand behind any other. -/
theorem mayPrecede_of_sign {next : WrittenTerm} (hsign : next.sign ≠ none) :
    w.MayPrecede v next := by
  obtain ⟨s, hs⟩ := Option.ne_none_iff_exists'.mp hsign
  intro c hc
  rw [WrittenTerm.characters, WrittenTerm.numeral, hs] at hc
  obtain rfl : s.character = c := Option.some_inj.mp hc
  have hcharacter := Lexer.isSign_character s
  split
  · exact hcharacter
  · exact Lexer.isRun_eq_false_of_isSign hcharacter

/-- Where every term has its sign, the terms are a side. -/
theorem reads_of_signed (hw : ∀ w ∈ ws, w.WellFormed) (hsign : ∀ w ∈ ws, w.sign ≠ none) :
    Reads v (ws.flatMap (WrittenTerm.characters v)) ws := by
  refine ⟨rfl, hw, (List.pairwise_of_forall_mem_list fun w _ next hnext => ?_).isChain⟩
  exact mayPrecede_of_sign (hsign next hnext)

/-- Terms with their signs may be written behind a side. -/
theorem Reads.append (h : Reads v side ws) (h' : Reads v side' ws')
    (hsign : ∀ w ∈ ws', w.sign ≠ none) : Reads v (side ++ side') (ws ++ ws') := by
  refine ⟨?_, List.forall_mem_append.mpr ⟨h.wellFormed, h'.wellFormed⟩, ?_⟩
  · rw [List.flatMap_append, h.text, h'.text]
  · refine List.isChain_append.mpr ⟨h.chain, h'.chain, fun w _ next hnext => ?_⟩
    exact mayPrecede_of_sign (hsign next (List.mem_of_mem_head? hnext))

end Signed

/-! ## Two sides -/

section Equations

variable {equation : String} {v : Char} {left right : List Char} {L R : List WrittenTerm}

/-- The unknown of two written sides that hold a letter. -/
theorem unknown?_of_reads (hletter : v.isAlpha = true) (hL : Reads v left L) (hR : Reads v right R)
    (hv : v ∈ left ++ right) : unknown? (left ++ '=' :: right) = some v := by
  cases h : unknown? (left ++ '=' :: right) with
  | none =>
    have hmem : v ∈ left ++ '=' :: right := by
      simpa [List.mem_append, or_left_comm] using Or.inr hv
    have hnone := unknown?_eq_none_iff.mp h v hmem
    rw [hletter] at hnone
    cases hnone
  | some u =>
    obtain ⟨halpha, before, behind, htext, -⟩ := unknown?_eq_some_iff.mp h
    have hmem : u ∈ left ++ '=' :: right := htext ▸ List.mem_append_right _ List.mem_cons_self
    rcases List.mem_append.mp hmem with hu | hu
    · rw [hL.eq_of_isAlpha hu halpha]
    · rcases List.mem_cons.mp hu with rfl | hu
      · exact absurd halpha (by decide)
      · rw [hR.eq_of_isAlpha hu halpha]

/-- The unknown stands on one of the sides. -/
theorem mem_sides_of_unknown? {s : List Char} (hcount : s.count '=' = 1) (h : unknown? s = some v) :
    v.isAlpha = true ∧ v ∈ leftSide s ++ rightSide s := by
  obtain ⟨halpha, before, behind, htext, -⟩ := unknown?_eq_some_iff.mp h
  have hmem : v ∈ s := htext ▸ List.mem_append_right _ List.mem_cons_self
  rw [eq_sides hcount] at hmem
  refine ⟨halpha, ?_⟩
  rcases List.mem_append.mp hmem with hv | hv
  · exact List.mem_append_left _ hv
  · rcases List.mem_cons.mp hv with rfl | hv
    · exact absurd halpha (by decide)
    · exact List.mem_append_right _ hv

/-- Two sides that are read were written, and their terms are the written ones. -/
theorem exists_reads_of_sides {s : List Char} {l r : List Term} (hletter : v.isAlpha = true)
    (hcount : s.count '=' = 1) (hblank : ∀ c ∈ s, Text.isBlank c = false)
    (hleft : terms v (leftSide s) = .ok l) (hright : terms v (rightSide s) = .ok r) :
    ∃ L R, Reads v (leftSide s) L ∧ Reads v (rightSide s) R ∧ L.map WrittenTerm.term = l ∧
      R.map WrittenTerm.term = r := by
  rw [eq_sides hcount] at hblank
  obtain ⟨hblankL, hblankR⟩ := List.forall_mem_append.mp hblank
  obtain ⟨L, hL⟩ := exists_reads_of_terms hblankL hleft
  obtain ⟨R, hR⟩ := exists_reads_of_terms (List.forall_mem_cons.mp hblankR).2 hright
  refine ⟨L, R, hL, hR, ?_, ?_⟩
  · exact Except.ok.inj ((hL.terms_eq hletter).symm.trans hleft)
  · exact Except.ok.inj ((hR.terms_eq hletter).symm.trans hright)

/-- **An equation of two written sides** is judged by its sums alone. -/
theorem normalise_eq_of_reads (hletter : v.isAlpha = true)
    (htext : Text.compact equation.toList = left ++ '=' :: right) (hv : v ∈ left ++ right)
    (hL : Reads v left L) (hR : Reads v right R) :
    normalise equation =
      if (Coefficients.ofSides (L.map WrittenTerm.term) (R.map WrittenTerm.term)).isFinite then
        .ok ⟨v, L.map WrittenTerm.term, R.map WrittenTerm.term,
          Coefficients.ofSides (L.map WrittenTerm.term) (R.map WrittenTerm.term)⟩
      else .error (.malformed .nonFinite) := by
  have hcount : (Text.compact equation.toList).count '=' = 1 := by
    rw [htext, List.count_append, List.count_cons_self,
      List.count_eq_zero.mpr (hL.not_mem_equals hletter),
      List.count_eq_zero.mpr (hR.not_mem_equals hletter)]
  have hunknown : unknown? (Text.compact equation.toList) = some v := by
    rw [htext]
    exact unknown?_of_reads hletter hL hR hv
  obtain ⟨hleft, hright⟩ := sides_of_eq hcount htext
  rw [normalise_of_unknown?_eq_some hcount hunknown, hleft, hright, hL.terms_eq hletter,
    hR.terms_eq hletter]
  rfl

end Equations

end QuadraticSolver
