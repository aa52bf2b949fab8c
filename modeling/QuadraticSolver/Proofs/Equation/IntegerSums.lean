import QuadraticSolver.Proofs.Binary64.Integers
import QuadraticSolver.Proofs.Equation.Sides

/-!
# Equations with integer coefficients

Where no run has a point and the coefficients of a class do not reach past
`2 ^ 53` together, nothing is rounded on the way from the text to the three
coefficients: each is the integer sum of its class on the left less the one on
the right (`normalise_integers`). The order of the terms is then not seen, and
exchanging the sides changes the signs of all three and nothing else.
-/

namespace QuadraticSolver

/-! ## Integers as written -/

namespace WrittenTerm

/-- The integer that a term without a point writes: an empty run is one. -/
def integer (w : WrittenTerm) : ℤ :=
  let distance : ℤ := if w.run = [] then 1 else Nat.ofDigitChars 10 w.run 0
  if w.isNegative then -distance else distance

variable {w : WrittenTerm}

/-- A run without a point is digits. -/
theorem WellFormed.digits (hw : w.WellFormed) (hpoint : '.' ∉ w.run) :
    ∀ c ∈ w.run, c.isDigit = true := fun c hc =>
  (Lexer.isDigit_or_eq_of_isRun (hw.run c hc)).resolve_right fun h => hpoint (h ▸ hc)

/-- The coefficient of a term without a point is its integer. -/
theorem isInteger_coefficient (hdigits : ∀ c ∈ w.run, c.isDigit = true) :
    w.coefficient.IsInteger w.integer := by
  unfold coefficient integer
  by_cases hrun : w.run = []
  · refine ⟨false, ?_⟩
    rw [if_pos hrun, if_pos hrun]
    rfl
  · refine ⟨w.isNegative, ?_⟩
    rw [if_neg hrun, if_neg hrun, runValue_of_digits hdigits]
    split <;> simp

/-- Digits are a number as long as their integer is one of the format. -/
theorem wellFormed_of_digits (hdigits : ∀ c ∈ w.run, c.isDigit = true)
    (hrun : w.power = .constant → w.run ≠ []) (hsmall : w.integer.natAbs ≤ 2 ^ 53) :
    w.WellFormed := by
  have hsome : w.run.any Char.isDigit = true ↔ w.run ≠ [] := any_isDigit_of_digits hdigits
  refine ⟨fun c hc => ?_, fun hpower => hsome.mpr (hrun hpower), ?_⟩
  · rw [Lexer.isRun, hdigits c hc, Bool.true_or]
  · rcases eq_or_ne w.run [] with hempty | hne
    · exact Or.inl hempty
    · obtain ⟨z, hz⟩ := isInteger_coefficient hdigits
      refine Or.inr ⟨hsome.mpr hne, (count_point_eq_zero hdigits).trans_le (Nat.zero_le 1), ?_⟩
      rw [hz]
      exact (Binary64.round_int hsmall).1

end WrittenTerm

/-- The integers of one class, in order. -/
def integersOf (degree : Degree) (ws : List WrittenTerm) : List ℤ :=
  (ws.filter (·.power.degree = degree)).map WrittenTerm.integer

/-- The integer of a class: its sum on the left less its sum on the right. -/
def integerSum (degree : Degree) (left right : List WrittenTerm) : ℤ :=
  (integersOf degree left).sum - (integersOf degree right).sum

/-- What a class amounts to when all signs are plus. -/
def integerSize (degree : Degree) (left right : List WrittenTerm) : ℕ :=
  ((integersOf degree left ++ integersOf degree right).map Int.natAbs).sum

section Classes

variable {degree : Degree} {ws left right : List WrittenTerm}

theorem natAbs_integerSum_le :
    (integerSum degree left right).natAbs ≤ integerSize degree left right := by
  have hsum : ∀ ks : List ℤ, ks.sum.natAbs ≤ (ks.map Int.natAbs).sum :=
    List.le_sum_of_subadditive Int.natAbs (le_refl 0) Int.natAbs_add_le
  calc (integerSum degree left right).natAbs
      ≤ (integersOf degree left).sum.natAbs + (integersOf degree right).sum.natAbs :=
        Int.natAbs_sub_le _ _
    _ ≤ ((integersOf degree left).map Int.natAbs).sum +
        ((integersOf degree right).map Int.natAbs).sum :=
        Nat.add_le_add (hsum _) (hsum _)
    _ = integerSize degree left right := by
        rw [integerSize, List.map_append, List.sum_append]

/-- Exchanging the sides changes the sign. -/
theorem integerSum_swap : integerSum degree right left = -integerSum degree left right :=
  (neg_sub _ _).symm

theorem integerSize_swap : integerSize degree right left = integerSize degree left right := by
  unfold integerSize
  rw [List.map_append, List.map_append, List.sum_append, List.sum_append, Nat.add_comm]

theorem coefficientsOf_terms (degree : Degree) (ws : List WrittenTerm) :
    coefficientsOf degree (ws.map WrittenTerm.term) =
      (ws.filter (·.power.degree = degree)).map WrittenTerm.coefficient := by
  simp only [coefficientsOf, List.filter_map, List.map_map]
  rfl

/-- The coefficients of a class against its integers. -/
theorem forall₂_integersOf (degree : Degree) (hws : ∀ w ∈ ws, w.WellFormed)
    (hpoint : ∀ w ∈ ws, '.' ∉ w.run) :
    List.Forall₂ Binary64.IsInteger (coefficientsOf degree (ws.map WrittenTerm.term))
      (integersOf degree ws) := by
  rw [coefficientsOf_terms, integersOf, List.forall₂_map_left_iff, List.forall₂_map_right_iff,
    List.forall₂_same]
  intro w hw
  have hmem := (List.mem_filter.mp hw).1
  exact WrittenTerm.isInteger_coefficient ((hws w hmem).digits (hpoint w hmem))

/-- **The sum of a class is its integer.** -/
theorem classSum_eq_ofInt (hleft : ∀ w ∈ left, w.WellFormed) (hright : ∀ w ∈ right, w.WellFormed)
    (hpoint : ∀ w ∈ left ++ right, '.' ∉ w.run) (hsize : integerSize degree left right ≤ 2 ^ 53) :
    classSum degree (left.map WrittenTerm.term) (right.map WrittenTerm.term) =
      .ofInt (integerSum degree left right) := by
  have hpoints := List.forall_mem_append.mp hpoint
  have hL := forall₂_integersOf degree hleft hpoints.1
  have hR := forall₂_integersOf degree hright hpoints.2
  have hopposite : List.Forall₂ Binary64.IsInteger
      ((coefficientsOf degree (right.map WrittenTerm.term)).map (- ·))
      ((integersOf degree right).map (- ·)) := by
    rw [List.forall₂_map_left_iff, List.forall₂_map_right_iff]
    exact hR.imp fun _ _ => Binary64.IsInteger.neg
  have hbound : (0 : ℤ).natAbs +
      ((integersOf degree left ++ (integersOf degree right).map (- ·)).map Int.natAbs).sum ≤
        2 ^ 53 := by
    rw [Int.natAbs_zero, Nat.zero_add, List.map_append, List.map_map]
    simpa [integerSize, Function.comp_def] using hsize
  rw [classSum, ← Binary64.ofInt_zero,
    Binary64.foldl_add_eq_ofInt (List.rel_append hL hopposite) hbound,
    List.sum_append, ← List.sum_neg, zero_add, integerSum, sub_eq_add_neg]

end Classes

/-! ## Equations -/

/-- The terms of a side in another order; every term has its sign, unless the order is the old
one. -/
def Reordered (ws ws' : List WrittenTerm) : Prop :=
  ws' = ws ∨ ws'.Perm ws ∧ ∀ w ∈ ws, w.sign ≠ none

section Equations

variable {equation : String} {v : Char} {left right : List Char} {L R : List WrittenTerm}

/-- The three coefficients of two sides of integers. -/
def integerCoefficients (L R : List WrittenTerm) : Coefficients :=
  ⟨.ofInt (integerSum .square L R), .ofInt (integerSum .linear L R),
    .ofInt (integerSum .constant L R)⟩

theorem ofDegree_integerCoefficients (d : Degree) :
    (integerCoefficients L R).ofDegree d = .ofInt (integerSum d L R) := by
  cases d <;> rfl

/-- An equation of two written sides with integer coefficients. -/
theorem normalise_of_reads (hletter : v.isAlpha = true)
    (htext : Text.compact equation.toList = left ++ '=' :: right) (hv : v ∈ left ++ right)
    (hL : Reads v left L) (hR : Reads v right R) (hpoint : ∀ w ∈ L ++ R, '.' ∉ w.run)
    (hsize : ∀ d, integerSize d L R ≤ 2 ^ 53) :
    normalise equation =
      .ok ⟨v, L.map WrittenTerm.term, R.map WrittenTerm.term, integerCoefficients L R⟩ := by
  have hsum : ∀ d, classSum d (L.map WrittenTerm.term) (R.map WrittenTerm.term) =
      .ofInt (integerSum d L R) := by
    intro d
    exact classSum_eq_ofInt hL.wellFormed hR.wellFormed hpoint (hsize d)
  have hsides : Coefficients.ofSides (L.map WrittenTerm.term) (R.map WrittenTerm.term) =
      integerCoefficients L R := by
    rw [Coefficients.ofSides_eq, hsum, hsum, hsum, integerCoefficients]
  have hfinite : (integerCoefficients L R).isFinite = true := by
    apply (Coefficients.isFinite_iff _).mpr
    intro d
    rw [ofDegree_integerCoefficients]
    exact Binary64.isFinite_ofInt (natAbs_integerSum_le.trans (hsize d))
  rw [normalise_eq_of_reads hletter htext hv hL hR, hsides, if_pos hfinite]

theorem Reordered.perm {ws ws' : List WrittenTerm} (h : Reordered ws ws') : ws'.Perm ws := by
  rcases h with rfl | ⟨hperm, -⟩
  · exact List.Perm.refl _
  · exact hperm

theorem Reordered.reads {ws ws' : List WrittenTerm} {side : List Char} (h : Reordered ws ws')
    (hws : Reads v side ws) : Reads v (ws'.flatMap (WrittenTerm.characters v)) ws' := by
  rcases h with rfl | ⟨hperm, hsign⟩
  · exact ⟨rfl, hws.wellFormed, hws.chain⟩
  · refine reads_of_signed (fun w hw => ?_) fun w hw => ?_
    · exact hws.wellFormed w (hperm.mem_iff.mp hw)
    · exact hsign w (hperm.mem_iff.mp hw)

theorem integersOf_perm {ws ws' : List WrittenTerm} (h : ws'.Perm ws) (d : Degree) :
    (integersOf d ws').Perm (integersOf d ws) :=
  (h.filter _).map _

/-- The coefficients do not see the order of the terms. -/
theorem integerCoefficients_perm {L' R' : List WrittenTerm} (hL : L'.Perm L) (hR : R'.Perm R) :
    integerCoefficients L' R' = integerCoefficients L R := by
  have hsum : ∀ d, integerSum d L' R' = integerSum d L R := fun d => by
    rw [integerSum, (integersOf_perm hL d).sum_eq, (integersOf_perm hR d).sum_eq, integerSum]
  simp only [integerCoefficients, hsum]

theorem integerSize_perm {L' R' : List WrittenTerm} (hL : L'.Perm L) (hR : R'.Perm R) (d : Degree) :
    integerSize d L' R' = integerSize d L R :=
  (((integersOf_perm hL d).append (integersOf_perm hR d)).map _).sum_eq

/-- **Integer equations are summed without rounding.** The three coefficients are the integers that
the sides amount to. Another order of signed terms gives the same three, and the sides exchanged
give the opposite three, a zero staying the positive one. -/
theorem normalise_integers {equation : String} {v : Char} {L R : List WrittenTerm}
    (hcount : (Text.compact equation.toList).count '=' = 1)
    (hunknown : unknown? (Text.compact equation.toList) = some v)
    (hL : Reads v (leftSide (Text.compact equation.toList)) L)
    (hR : Reads v (rightSide (Text.compact equation.toList)) R)
    (hpoint : ∀ w ∈ L ++ R, '.' ∉ w.run) (hsize : ∀ d, integerSize d L R ≤ 2 ^ 53) :
    ∃ k, normalise equation = .ok ⟨v, L.map WrittenTerm.term, R.map WrittenTerm.term, k⟩ ∧
      (∀ d, k.ofDegree d = .ofInt (integerSum d L R) ∧ (k.ofDegree d).isFinite = true ∧
        (k.ofDegree d).toRat = integerSum d L R) ∧
      (∀ (L' R' : List WrittenTerm) (other : String), Reordered L L' → Reordered R R' →
        Text.compact other.toList =
          L'.flatMap (WrittenTerm.characters v) ++ '=' :: R'.flatMap (WrittenTerm.characters v) →
        normalise other = .ok ⟨v, L'.map WrittenTerm.term, R'.map WrittenTerm.term, k⟩) ∧
      ∀ other : String, Text.compact other.toList =
          rightSide (Text.compact equation.toList) ++
            '=' :: leftSide (Text.compact equation.toList) →
        ∃ k', normalise other = .ok ⟨v, R.map WrittenTerm.term, L.map WrittenTerm.term, k'⟩ ∧
          ∀ d, k'.ofDegree d = if (k.ofDegree d).isZero then .zero false else -(k.ofDegree d) := by
  obtain ⟨hletter, hv⟩ := mem_sides_of_unknown? hcount hunknown
  have hsmall : ∀ d, (integerSum d L R).natAbs ≤ 2 ^ 53 := by
    intro d
    exact natAbs_integerSum_le.trans (hsize d)
  refine ⟨integerCoefficients L R,
    normalise_of_reads hletter (eq_sides hcount) hv hL hR hpoint hsize, fun d => ?_, ?_, ?_⟩
  · rw [ofDegree_integerCoefficients]
    exact ⟨rfl, Binary64.isFinite_ofInt (hsmall d), Binary64.toRat_ofInt (hsmall d)⟩
  · intro L' R' other hreorderL hreorderR hother
    have hperm := hreorderL.perm.append hreorderR.perm
    have hv' : v ∈ L'.flatMap (WrittenTerm.characters v) ++
        R'.flatMap (WrittenTerm.characters v) := by
      rw [← List.flatMap_append, (hperm.flatMap_right _).mem_iff, List.flatMap_append, hL.text,
        hR.text]
      exact hv
    have hpoint' : ∀ w ∈ L' ++ R', '.' ∉ w.run := fun w hw => hpoint w (hperm.mem_iff.mp hw)
    have hsize' : ∀ d, integerSize d L' R' ≤ 2 ^ 53 := by
      intro d
      exact (integerSize_perm hreorderL.perm hreorderR.perm d).trans_le (hsize d)
    rw [normalise_of_reads hletter hother hv' (hreorderL.reads hL) (hreorderR.reads hR) hpoint'
        hsize',
      integerCoefficients_perm hreorderL.perm hreorderR.perm]
  · intro other hother
    have hpoint' : ∀ w ∈ R ++ L, '.' ∉ w.run := by
      intro w hw
      exact hpoint w (List.mem_append.mpr (List.mem_append.mp hw).symm)
    have hv' : v ∈ rightSide (Text.compact equation.toList) ++
        leftSide (Text.compact equation.toList) :=
      List.mem_append.mpr (List.mem_append.mp hv).symm
    refine ⟨integerCoefficients R L, normalise_of_reads hletter hother hv' hR hL hpoint'
      fun d => integerSize_swap.trans_le (hsize d), fun d => ?_⟩
    rw [ofDegree_integerCoefficients, ofDegree_integerCoefficients, integerSum_swap,
      Binary64.ofInt_neg (hsmall d)]

/-- `2x-3=x²` comes down to `-x²+2x-3=0`. -/
theorem normalise_integers_square :
    ∃ n, normalise (String.ofList ['2', 'x', '-', '3', '=', 'x', '²']) = .ok n ∧
      n.coefficients.ofDegree .square = .ofInt (-1) ∧ n.coefficients.ofDegree .linear = .ofInt 2 ∧
      n.coefficients.ofDegree .constant = .ofInt (-3) := by
  have htext : Text.compact (String.ofList ['2', 'x', '-', '3', '=', 'x', '²']).toList =
      ['2', 'x', '-', '3', '=', 'x', '²'] := by
    rw [String.toList_ofList]
    decide
  have hL : Reads 'x' ['2', 'x', '-', '3']
      [⟨none, ['2'], .linear⟩, ⟨some .minus, ['3'], .constant⟩] := by
    refine ⟨rfl, ?_, ?_⟩
    · simp only [List.forall_mem_cons]
      exact ⟨WrittenTerm.wellFormed_of_digits (by simp) nofun (by decide),
        WrittenTerm.wellFormed_of_digits (by simp) (fun _ => by decide) (by decide), nofun⟩
    · exact List.isChain_pair.mpr (mayPrecede_of_sign (by decide))
  have hR : Reads 'x' ['x', '²'] [⟨none, [], .square .superscript⟩] :=
    ⟨rfl, by simpa using ⟨nofun, nofun, Or.inl rfl⟩, List.isChain_singleton _⟩
  obtain ⟨k, hk, hdegree, -⟩ := normalise_integers (v := 'x') (by rw [htext]; decide)
    (by rw [htext]; decide) (by rw [htext]; exact hL) (by rw [htext]; exact hR) (by simp)
    (fun d => by cases d <;> decide)
  exact ⟨_, hk, (hdegree .square).1, (hdegree .linear).1, (hdegree .constant).1⟩

end Equations

end QuadraticSolver
