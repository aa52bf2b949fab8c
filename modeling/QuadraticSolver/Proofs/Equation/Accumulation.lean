import QuadraticSolver.Proofs.Binary64.RunningSums
import QuadraticSolver.Proofs.Binary64.Signs
import QuadraticSolver.Proofs.Equation.Sides

/-!
# An overflow on the way is not hidden

The coefficients of an equation are looked at once, at the end. That is enough:
an equation whose sides can be read is refused exactly where some partial sum of
some class is not finite, on whatever side and however early
(`accumulation_law`). Its terms are finite, so a partial sum that is not finite
stays as it is.

A class takes its coefficients in order, those of the left side and then the
opposites of those of the right side (`signedCoefficients`), and no term is left
out or taken twice (`length_signedCoefficients`). Where every partial sum is
finite, the last one is the coefficient of the class, and a zero among these is
positive.

The tokens of a side end with a mark. Summing them up as far as the mark, with one
or minus one for the sign of the side, is the same (`accumulate_sides`).
-/

namespace QuadraticSolver

/-! ## Partial sums -/

/-- What is summed up for one class, in order: the coefficients on the left, then the opposites of
those on the right. -/
def signedCoefficients (degree : Degree) (left right : List Term) : List Binary64 :=
  coefficientsOf degree left ++ (coefficientsOf degree right).map (- ·)

/-- The sum of the first `n` coefficients of a class. The first partial sum is zero, and from the
number of the coefficients on it is the whole sum. -/
def partialSum (degree : Degree) (left right : List Term) (n : ℕ) : Binary64 :=
  ((signedCoefficients degree left right).take n).foldl (· + ·) (.zero false)

section PartialSums

variable {left right : List Term} {degree : Degree} {n : ℕ}

theorem classSum_eq_partialSum (degree : Degree) (left right : List Term) :
    classSum degree left right =
      partialSum degree left right (signedCoefficients degree left right).length := by
  rw [partialSum, List.take_length]
  rfl

/-- Past the number of the coefficients nothing is added. -/
theorem partialSum_of_length_le (h : (signedCoefficients degree left right).length ≤ n) :
    partialSum degree left right n = classSum degree left right := by
  rw [classSum_eq_partialSum, partialSum, partialSum, List.take_of_length_le h, List.take_length]

/-- **Each term counts once**: the classes share the terms of both sides among them. -/
theorem length_signedCoefficients (left right : List Term) :
    (signedCoefficients .square left right).length +
      (signedCoefficients .linear left right).length +
      (signedCoefficients .constant left right).length = left.length + right.length := by
  have hside : ∀ ts : List Term, (coefficientsOf .square ts).length +
      (coefficientsOf .linear ts).length + (coefficientsOf .constant ts).length = ts.length := by
    intro ts
    induction ts with
    | nil => rfl
    | cons t ts ih =>
      obtain ⟨degree, x⟩ := t
      cases degree <;> simp [coefficientsOf] at ih ⊢ <;> omega
  have hleft := hside left
  have hright := hside right
  simp only [signedCoefficients, List.length_append, List.length_map]
  omega

/-- A coefficient of a class is one of the left side, or the opposite of one of the right side. -/
theorem exists_of_mem_signedCoefficients {x : Binary64}
    (h : x ∈ signedCoefficients degree left right) :
    ∃ t ∈ left ++ right, t.degree = degree ∧ (x = t.coefficient ∨ x = -t.coefficient) := by
  have hside : ∀ ts : List Term, ∀ y ∈ coefficientsOf degree ts,
      ∃ t ∈ ts, t.degree = degree ∧ y = t.coefficient := by
    intro ts y hy
    obtain ⟨t, ht, rfl⟩ := List.mem_map.mp hy
    exact ⟨t, (List.mem_filter.mp ht).1, by simpa using (List.mem_filter.mp ht).2, rfl⟩
  rcases List.mem_append.mp h with h | h
  · obtain ⟨t, ht, hdegree, rfl⟩ := hside left x h
    exact ⟨t, List.mem_append_left _ ht, hdegree, .inl rfl⟩
  · obtain ⟨y, hy, rfl⟩ := List.mem_map.mp h
    obtain ⟨t, ht, hdegree, rfl⟩ := hside right y hy
    exact ⟨t, List.mem_append_right _ ht, hdegree, .inr rfl⟩

/-- The sum after `n + k` coefficients goes on from the sum after `n`. -/
theorem partialSum_add (degree : Degree) (left right : List Term) (n k : ℕ) :
    partialSum degree left right (n + k) =
      (((signedCoefficients degree left right).drop n).take k).foldl (· + ·)
        (partialSum degree left right n) := by
  rw [partialSum, List.take_add, List.foldl_append]
  rfl

/-- All terms of both sides are finite. -/
def TermsFinite (left right : List Term) : Prop :=
  ∀ t ∈ left ++ right, t.coefficient.isFinite = true

theorem TermsFinite.isFinite (h : TermsFinite left right) :
    ∀ x ∈ signedCoefficients degree left right, x.isFinite = true := by
  intro x hx
  obtain ⟨t, ht, -, rfl | rfl⟩ := exists_of_mem_signedCoefficients hx
  · exact h t ht
  · exact Binary64.isFinite_neg_iff.mpr (h t ht)

/-- An overflow on the way stays to the end. -/
theorem partialSum_add_of_not_isFinite (h : TermsFinite left right)
    (hn : (partialSum degree left right n).isFinite = false) (k : ℕ) :
    partialSum degree left right (n + k) = partialSum degree left right n := by
  rw [partialSum_add]
  apply Binary64.foldl_add_of_not_isFinite hn
  intro x hx
  exact h.isFinite x (List.mem_of_mem_drop (List.mem_of_mem_take hx))

theorem partialSum_ne_nan (h : TermsFinite left right) (degree : Degree) (n : ℕ) :
    partialSum degree left right n ≠ .nan := by
  apply Binary64.foldl_add_ne_nan Binary64.noConfusion
  intro x hx
  exact h.isFinite x (List.mem_of_mem_take hx)

/-- **The end tells of every overflow**: the whole sum is finite exactly where every partial sum
is. -/
theorem isFinite_classSum_iff (h : TermsFinite left right) (degree : Degree) :
    (classSum degree left right).isFinite = true ↔
      ∀ n, (partialSum degree left right n).isFinite = true := by
  constructor
  · intro hfinite n
    by_contra hn
    rw [Bool.not_eq_true] at hn
    have hlast := partialSum_add_of_not_isFinite h hn
      (signedCoefficients degree left right).length
    rw [partialSum_of_length_le (Nat.le_add_left _ _)] at hlast
    rw [hlast, hn] at hfinite
    cases hfinite
  · intro hfinite
    rw [classSum_eq_partialSum]
    exact hfinite _

/-- So the test of the coefficients is one of all partial sums. -/
theorem isFinite_ofSides_iff (h : TermsFinite left right) :
    (Coefficients.ofSides left right).isFinite = true ↔
      ∀ degree n, (partialSum degree left right n).isFinite = true := by
  rw [Coefficients.isFinite_iff]
  simp only [Coefficients.ofDegree_ofSides, isFinite_classSum_iff h]

theorem classSum_ne_negative_zero (degree : Degree) (left right : List Term) :
    classSum degree left right ≠ .zero true :=
  Binary64.foldl_add_ne_negative_zero (by decide)

/-- A class without terms, or one of zeros only, comes to the positive zero. -/
theorem classSum_of_isZero
    (h : ∀ t ∈ left ++ right, t.degree = degree → t.coefficient.isZero = true) :
    classSum degree left right = .zero false := by
  apply Binary64.foldl_add_of_isZero
  intro x hx
  obtain ⟨t, ht, hdegree, rfl | rfl⟩ := exists_of_mem_signedCoefficients hx
  · exact h t ht hdegree
  · rw [Binary64.isZero_neg]
    exact h t ht hdegree

end PartialSums

/-! ## Tokens -/

/-- Sums up the tokens of a side as far as the mark of the end, each coefficient times the factor of
the side. -/
def accumulate (factor : Binary64) (k : Coefficients) : List Token → Coefficients
  | [] => k
  | .finish :: _ => k
  | .term t :: rest =>
    accumulate factor (k.add { t with coefficient := factor * t.coefficient }) rest

/-- No term stands behind the mark, so all are summed up. -/
theorem accumulate_sequence {factor : Binary64} {signed : Term → Term} {ts : List Term}
    (h : ∀ t ∈ ts, { t with coefficient := factor * t.coefficient } = signed t) (k : Coefficients) :
    accumulate factor k (Token.sequence ts) = (ts.map signed).foldl Coefficients.add k := by
  induction ts generalizing k with
  | nil => rfl
  | cons t ts ih =>
    show accumulate factor (k.add { t with coefficient := factor * t.coefficient })
      (Token.sequence ts) = _
    rw [h t List.mem_cons_self, ih fun t' ht' => h t' (List.mem_cons_of_mem _ ht')]
    rfl

/-- **The tokens of both sides come to the coefficients**, those of the right side times minus
one. -/
theorem accumulate_sides {left right : List Term} (h : TermsFinite left right) :
    accumulate (.ofInt (-1)) (accumulate (.ofInt 1) .zero (Token.sequence left))
      (Token.sequence right) = Coefficients.ofSides left right := by
  have hleft : ∀ t ∈ left, { t with coefficient := .ofInt 1 * t.coefficient } = id t := by
    intro t ht
    rw [Binary64.ofInt_one_mul (h t (List.mem_append_left _ ht))]
    rfl
  have hright : ∀ t ∈ right,
      { t with coefficient := .ofInt (-1) * t.coefficient } = t.opposite := by
    intro t ht
    rw [Binary64.ofInt_neg_one_mul (h t (List.mem_append_right _ ht))]
    rfl
  rw [accumulate_sequence hleft, accumulate_sequence hright, List.map_id, Coefficients.ofSides,
    List.foldl_append]

/-! ## Equations -/

/-- The coefficient of a written term is finite. -/
theorem WrittenTerm.WellFormed.isFinite_coefficient {w : WrittenTerm} (hw : w.WellFormed) :
    w.coefficient.isFinite = true := by
  rcases hw.numeral with hempty | hnumber
  · rw [coefficient, if_pos hempty]
    apply Binary64.isFinite_ofInt
    cases w.isNegative <;> decide
  · exact hnumber.2.2

section Equations

variable {equation : String} {v : Char} {l r : List Term}

/-- The terms that are read are finite. -/
theorem termsFinite_of_terms (hcount : (Text.compact equation.toList).count '=' = 1)
    (hunknown : unknown? (Text.compact equation.toList) = some v)
    (hleft : terms v (leftSide (Text.compact equation.toList)) = .ok l)
    (hright : terms v (rightSide (Text.compact equation.toList)) = .ok r) : TermsFinite l r := by
  obtain ⟨hletter, -⟩ := mem_sides_of_unknown? hcount hunknown
  obtain ⟨L, R, hL, hR, rfl, rfl⟩ := exists_reads_of_sides hletter hcount
    (fun c hc => Text.not_isBlank_of_mem_compact hc) hleft hright
  intro t ht
  rw [← List.map_append] at ht
  obtain ⟨w, hw, rfl⟩ := List.mem_map.mp ht
  rcases List.mem_append.mp hw with hw | hw
  · exact (hL.wellFormed w hw).isFinite_coefficient
  · exact (hR.wellFormed w hw).isFinite_coefficient

/-- Where both sides can be read, the test of the coefficients is the last one. -/
theorem normalise_of_terms (hcount : (Text.compact equation.toList).count '=' = 1)
    (hunknown : unknown? (Text.compact equation.toList) = some v)
    (hleft : terms v (leftSide (Text.compact equation.toList)) = .ok l)
    (hright : terms v (rightSide (Text.compact equation.toList)) = .ok r) :
    normalise equation =
      if (Coefficients.ofSides l r).isFinite then .ok ⟨v, l, r, Coefficients.ofSides l r⟩
      else .error (.malformed .nonFinite) := by
  rw [normalise_of_unknown?_eq_some hcount hunknown, hleft, hright]
  rfl

/-- **An overflow is never hidden, and zeros are clean.** An equation whose two sides can be read is
refused for its sums exactly where some partial sum of some class is not finite. Such a sum stays as
it is, whatever comes behind it, and no partial sum is "not a number". Each term of both sides is in
one class, once, and summing up the tokens of the two sides as far as their marks comes to the last
partial sums. Where all partial sums are finite, the last one is the coefficient of its class. No
coefficient is a negative zero, and a class in which there are zeros only, or nothing, has the
positive zero. -/
theorem accumulation_law (equation : String) {v : Char} {l r : List Term}
    (hcount : (Text.compact equation.toList).count '=' = 1)
    (hunknown : unknown? (Text.compact equation.toList) = some v)
    (hleft : terms v (leftSide (Text.compact equation.toList)) = .ok l)
    (hright : terms v (rightSide (Text.compact equation.toList)) = .ok r) :
    (normalise equation = .error (.malformed .nonFinite) ↔
      ∃ degree n, (partialSum degree l r n).isFinite = false) ∧
    (∀ degree n k, (partialSum degree l r n).isFinite = false →
      partialSum degree l r (n + k) = partialSum degree l r n) ∧
    (∀ degree n, partialSum degree l r n ≠ .nan) ∧
    (signedCoefficients .square l r).length + (signedCoefficients .linear l r).length +
      (signedCoefficients .constant l r).length = l.length + r.length ∧
    (∀ degree,
      (accumulate (.ofInt (-1)) (accumulate (.ofInt 1) .zero (Token.sequence l))
        (Token.sequence r)).ofDegree degree =
      partialSum degree l r (signedCoefficients degree l r).length) ∧
    ((∀ degree n, (partialSum degree l r n).isFinite = true) →
      ∃ k, normalise equation = .ok ⟨v, l, r, k⟩ ∧
        ∀ degree,
          k.ofDegree degree =
            partialSum degree l r (signedCoefficients degree l r).length ∧
          k.ofDegree degree ≠ .zero true ∧
          ((∀ t ∈ l ++ r, t.degree = degree → t.coefficient.isZero = true) →
            k.ofDegree degree = .zero false)) := by
  have hterms : TermsFinite l r := termsFinite_of_terms hcount hunknown hleft hright
  have hnormalise := normalise_of_terms hcount hunknown hleft hright
  have hfinite := isFinite_ofSides_iff hterms
  refine ⟨?_, fun degree n k hn => partialSum_add_of_not_isFinite hterms hn k,
    partialSum_ne_nan hterms, length_signedCoefficients l r, fun degree => ?_, fun hall => ?_⟩
  · constructor
    · intro herror
      by_contra hnone
      have hall : ∀ degree n, (partialSum degree l r n).isFinite = true := by
        simpa using hnone
      rw [hnormalise, if_pos (hfinite.mpr hall)] at herror
      cases herror
    · rintro ⟨degree, n, hn⟩
      rw [hnormalise, if_neg]
      intro hall
      rw [hfinite.mp hall degree n] at hn
      cases hn
  · rw [accumulate_sides hterms, Coefficients.ofDegree_ofSides, classSum_eq_partialSum]
  · refine ⟨Coefficients.ofSides l r, ?_, fun degree => ⟨?_, ?_, fun hzero => ?_⟩⟩
    · rw [hnormalise, if_pos (hfinite.mpr hall)]
    · rw [Coefficients.ofDegree_ofSides, classSum_eq_partialSum]
    · rw [Coefficients.ofDegree_ofSides]
      exact classSum_ne_negative_zero degree l r
    · rw [Coefficients.ofDegree_ofSides]
      exact classSum_of_isZero hzero

/-- The number `10 ^ 308` as the coefficient of the unknown. -/
def largeTerm : List Char :=
  '1' :: List.replicate 308 '0' ++ ['x']

/-- Twice `10 ^ 308` on the left is past the finite numbers, and taking `10 ^ 308` off on the right
does not bring it back. -/
theorem accumulation_law_compensated :
    normalise (String.ofList (largeTerm ++ '+' :: largeTerm ++ '=' :: largeTerm)) =
      .error (.malformed .nonFinite) := by
  have htext : Text.compact
        (String.ofList (largeTerm ++ '+' :: largeTerm ++ '=' :: largeTerm)).toList =
      largeTerm ++ '+' :: largeTerm ++ '=' :: largeTerm := by
    rw [String.toList_ofList]
    decide +kernel
  have hlaw := accumulation_law
    (String.ofList (largeTerm ++ '+' :: largeTerm ++ '=' :: largeTerm)) (v := 'x')
    (l := List.replicate 2 ⟨.linear, (Literal.mk false (10 ^ 308) 0).toBinary64⟩)
    (r := [⟨.linear, (Literal.mk false (10 ^ 308) 0).toBinary64⟩])
    (by rw [htext]; decide +kernel) (by rw [htext]; decide +kernel)
    (by rw [htext]; decide +kernel) (by rw [htext]; decide +kernel)
  exact hlaw.1.mpr ⟨.linear, 2, by decide +kernel⟩

end Equations

end QuadraticSolver
