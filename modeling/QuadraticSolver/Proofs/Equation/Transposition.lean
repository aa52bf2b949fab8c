import QuadraticSolver.Proofs.Binary64.Integers
import QuadraticSolver.Proofs.Equation.Sides

/-!
# Moving the right side to the left

The terms of the right side count with the opposite sign. This is the same, bit
for bit, as writing them with the opposite sign behind the left side and leaving
the right side empty (`normalise_transpose`). The text of a term with the
opposite sign reads as the opposite number, because a sign is read apart from
the digits and rounding is symmetric (`coefficient_opposite`); and the partial
sums are then the same sums in the same order.
-/

namespace QuadraticSolver

namespace WrittenTerm

variable {w : WrittenTerm}

/-- The term as it is written on the other side: with its sign changed, where no sign stands for a
plus. -/
def opposite (w : WrittenTerm) : WrittenTerm :=
  { w with sign := some (if w.isNegative then .plus else .minus) }

theorem sign_opposite (w : WrittenTerm) : w.opposite.sign ≠ none :=
  Option.some_ne_none _

@[simp]
theorem isNegative_opposite (w : WrittenTerm) : w.opposite.isNegative = !w.isNegative := by
  unfold opposite
  cases h : w.isNegative <;> simp [isNegative]

/-- A term with its sign changed is worth the opposite number. -/
theorem coefficient_opposite (w : WrittenTerm) : w.opposite.coefficient = -w.coefficient := by
  have hrun : w.opposite.run = w.run := rfl
  unfold coefficient
  rw [isNegative_opposite, hrun]
  by_cases hempty : w.run = []
  · rw [if_pos hempty, if_pos hempty, Binary64.ofInt, Binary64.ofInt, Binary64.neg_round]
    cases w.isNegative <;> simp [Binary64.round]
  · rw [if_neg hempty, if_neg hempty, Binary64.neg_round]
    cases w.isNegative <;> simp

theorem term_opposite (w : WrittenTerm) : w.opposite.term = w.term.opposite := by
  unfold term Term.opposite
  rw [coefficient_opposite]
  rfl

theorem WellFormed.opposite (hw : w.WellFormed) : w.opposite.WellFormed := by
  refine ⟨hw.run, hw.constant, hw.numeral.imp_right fun hnumber => ?_⟩
  refine ⟨hnumber.1, hnumber.2.1, ?_⟩
  rw [coefficient_opposite]
  exact Binary64.isFinite_neg w.coefficient ▸ hnumber.2.2

/-- The unknown stands behind the numeral, where no sign is changed. -/
theorem WellFormed.mem_characters_opposite {v : Char} (hletter : v.isAlpha = true)
    (hw : w.WellFormed) (h : v ∈ w.characters v) : v ∈ w.opposite.characters v := by
  rw [characters, WrittenTerm.numeral, List.mem_append, List.mem_append] at h
  rcases h with (hsign | hrun) | hpower
  · rcases hs : w.sign with _ | s
    · rw [hs] at hsign
      cases hsign
    · rw [hs] at hsign
      obtain rfl : v = s.character := List.mem_singleton.mp hsign
      exact absurd ((Lexer.isSign_eq_false_of_isAlpha hletter).symm.trans
        (Lexer.isSign_character s)) (by decide)
  · exact absurd ((Lexer.isRun_eq_false_of_isAlpha hletter).symm.trans (hw.run v hrun)) (by decide)
  · exact List.mem_append_right _ hpower

end WrittenTerm

section Transposition

variable {v : Char} {side side' : List Char} {ws us : List WrittenTerm}

/-- The text of a right side as it is written behind the left side. -/
def transposed (v : Char) (ws : List WrittenTerm) : List Char :=
  (ws.map WrittenTerm.opposite).flatMap (WrittenTerm.characters v)

theorem terms_opposite (ws : List WrittenTerm) :
    (ws.map WrittenTerm.opposite).map WrittenTerm.term =
      (ws.map WrittenTerm.term).map Term.opposite := by
  simp [WrittenTerm.term_opposite]

/-- The left side with the right side moved behind it is a side. -/
theorem Reads.transpose (h : Reads v side ws) (h' : Reads v side' us) :
    Reads v (side ++ transposed v us) (ws ++ us.map WrittenTerm.opposite) := by
  have hsign : ∀ w ∈ us.map WrittenTerm.opposite, w.sign ≠ none := by
    intro w hw
    obtain ⟨u, -, rfl⟩ := List.mem_map.mp hw
    exact u.sign_opposite
  refine h.append (reads_of_signed (fun w hw => ?_) hsign) hsign
  obtain ⟨u, hu, rfl⟩ := List.mem_map.mp hw
  exact (h'.wellFormed u hu).opposite

theorem Reads.mem_transposed (hletter : v.isAlpha = true) (h : Reads v side ws) (hv : v ∈ side) :
    v ∈ transposed v ws := by
  rw [← h.text] at hv
  obtain ⟨w, hw, hv⟩ := List.mem_flatMap.mp hv
  refine List.mem_flatMap.mpr ⟨w.opposite, List.mem_map_of_mem hw, ?_⟩
  exact (h.wellFormed w hw).mem_characters_opposite hletter hv

/-- The coefficients do not see on which side a term stands, if its sign tells. -/
theorem Coefficients.ofSides_transpose (left right : List Term) :
    ofSides (left ++ right.map Term.opposite) [] = ofSides left right := by
  simp [ofSides]

/-- The equation with its right side moved to the left. -/
theorem transposed_spec {other : String} (hletter : v.isAlpha = true) (h : Reads v side ws)
    (h' : Reads v side' us) (hv : v ∈ side ++ side')
    (hother : Text.compact other.toList = side ++ transposed v us ++ ['=']) :
    unknown? (Text.compact other.toList) = some v ∧
      leftSide (Text.compact other.toList) = side ++ transposed v us ∧
      rightSide (Text.compact other.toList) = [] ∧
      normalise other =
        if (Coefficients.ofSides (ws.map WrittenTerm.term) (us.map WrittenTerm.term)).isFinite then
          .ok ⟨v, ws.map WrittenTerm.term ++ (us.map WrittenTerm.term).map Term.opposite, [],
            Coefficients.ofSides (ws.map WrittenTerm.term) (us.map WrittenTerm.term)⟩
        else .error (.malformed .nonFinite) := by
  have hmoved := h.transpose h'
  have hv' : v ∈ side ++ transposed v us ++ [] := by
    rw [List.append_nil]
    rcases List.mem_append.mp hv with hvL | hvR
    · exact List.mem_append_left _ hvL
    · exact List.mem_append_right _ (h'.mem_transposed hletter hvR)
  have hcount : (Text.compact other.toList).count '=' = 1 := by
    rw [hother, List.count_append, List.count_eq_zero.mpr (hmoved.not_mem_equals hletter)]
    rfl
  have hnormalise := normalise_eq_of_reads hletter hother hv' hmoved Reads.nil
  rw [List.map_append, terms_opposite, List.map_nil, Coefficients.ofSides_transpose] at hnormalise
  obtain ⟨hleft, hright⟩ := sides_of_eq hcount hother
  refine ⟨?_, hleft, hright, hnormalise⟩
  rw [hother]
  exact unknown?_of_reads hletter hmoved Reads.nil hv'

/-- **Moving the right side to the left changes nothing.** Where both sides of an equation are read,
the right side is written in some way, and in whatever way it is written: the equation with that
side moved to the left is read, with the same unknown; both come to the same three coefficients or
both overflow; and both have the same answer. -/
theorem normalise_transpose (equation : String) {v : Char} {l r : List Term}
    (hcount : (Text.compact equation.toList).count '=' = 1)
    (hunknown : unknown? (Text.compact equation.toList) = some v)
    (hleft : terms v (leftSide (Text.compact equation.toList)) = .ok l)
    (hright : terms v (rightSide (Text.compact equation.toList)) = .ok r) :
    (∃ ws, Reads v (rightSide (Text.compact equation.toList)) ws) ∧
    ∀ ws, Reads v (rightSide (Text.compact equation.toList)) ws →
      ∀ other : String, Text.compact other.toList =
          leftSide (Text.compact equation.toList) ++ transposed v ws ++ ['='] →
        unknown? (Text.compact other.toList) = some v ∧
        terms v (leftSide (Text.compact other.toList)) = .ok (l ++ r.map Term.opposite) ∧
        terms v (rightSide (Text.compact other.toList)) = .ok [] ∧
        ((∃ k, normalise equation = .ok ⟨v, l, r, k⟩ ∧
            normalise other = .ok ⟨v, l ++ r.map Term.opposite, [], k⟩) ∨
          (normalise equation = .error (.malformed .nonFinite) ∧
            normalise other = .error (.malformed .nonFinite))) ∧
        resolve other = resolve equation := by
  obtain ⟨hletter, hv⟩ := mem_sides_of_unknown? hcount hunknown
  obtain ⟨ls, rs, hL, hR, rfl, rfl⟩ := exists_reads_of_sides hletter hcount
    (fun c hc => Text.not_isBlank_of_mem_compact hc) hleft hright
  refine ⟨⟨rs, hR⟩, fun ws hws other hother => ?_⟩
  obtain rfl : ws = rs := hws.unique hletter hR
  obtain ⟨hunknown', hleft', hright', hother'⟩ := transposed_spec hletter hL hR hv hother
  have hequation := normalise_eq_of_reads hletter (eq_sides hcount) hv hL hR
  refine ⟨hunknown', ?_, ?_, ?_⟩
  · rw [hleft', (hL.transpose hR).terms_eq hletter, List.map_append, terms_opposite]
  · rw [hright', Reads.nil.terms_eq hletter, List.map_nil]
  · split at hequation
    next hfinite =>
      rw [if_pos hfinite] at hother'
      refine ⟨Or.inl ⟨_, hequation, hother'⟩, ?_⟩
      rw [resolve_eq_solve hequation, resolve_eq_solve hother']
    next hfinite =>
      rw [if_neg hfinite] at hother'
      refine ⟨Or.inr ⟨hequation, hother'⟩, ?_⟩
      rw [resolve_eq_error hequation, resolve_eq_error hother']

/-- `x=2x-.5` and `x-2x+.5=` come to the same. -/
theorem normalise_transpose_half :
    resolve (String.ofList ['x', '-', '2', 'x', '+', '.', '5', '=']) =
      resolve (String.ofList ['x', '=', '2', 'x', '-', '.', '5']) := by
  have htext : Text.compact (String.ofList ['x', '=', '2', 'x', '-', '.', '5']).toList =
      ['x', '=', '2', 'x', '-', '.', '5'] := by
    rw [String.toList_ofList]
    decide
  have hother : Text.compact (String.ofList ['x', '-', '2', 'x', '+', '.', '5', '=']).toList =
      ['x', '-', '2', 'x', '+', '.', '5', '='] := by
    rw [String.toList_ofList]
    decide
  have hright : Reads 'x' ['2', 'x', '-', '.', '5']
      [⟨none, ['2'], .linear⟩, ⟨some .minus, ['.', '5'], .constant⟩] := by
    refine ⟨rfl, List.forall_mem_cons.mpr ⟨?_, List.forall_mem_singleton.mpr ?_⟩, ?_⟩
    · exact ⟨by simp [Lexer.isRun], nofun, Or.inr (by decide +kernel)⟩
    · exact ⟨by simp [Lexer.isRun], fun _ => by decide, Or.inr (by decide +kernel)⟩
    · exact List.isChain_pair.mpr (mayPrecede_of_sign (by decide))
  obtain ⟨-, htranspose⟩ := normalise_transpose
    (String.ofList ['x', '=', '2', 'x', '-', '.', '5']) (v := 'x')
    (l := [⟨.linear, .ofInt 1⟩])
    (r := [⟨.linear, .ofInt 2⟩, ⟨.constant, .round true (-(1 / 2))⟩])
    (by rw [htext]; decide) (by rw [htext]; decide) (by rw [htext]; decide +kernel)
    (by rw [htext]; decide +kernel)
  have hmoved := htranspose _ (by rw [htext]; exact hright) _ (by rw [hother, htext]; decide)
  exact hmoved.2.2.2.2

end Transposition

end QuadraticSolver
