import QuadraticSolver.Proofs.Binary64.Arithmetic
import QuadraticSolver.Proofs.Decimal.Shortest
import QuadraticSolver.Proofs.Decimal.Text
import QuadraticSolver.Proofs.Equation.Grammar

/-!
# The text of tokens is unambiguous

A derivation shows a side as its tokens, and what is shown tells the tokens: two
lists of tokens with finite coefficients have the same text only if they are the
same (`listText_eq_iff`).

A token is an opening bracket, the numeral of its coefficient and a *closing*,
which begins with a character that no numeral has. So the numeral ends where the
closing begins, the closing tells the degree, and the numeral tells the number, as
it reads back to it. From this a token can be taken off the front of any text
(`characters_append_inj`), and the tokens of a list come off one by one.
-/

namespace QuadraticSolver

/-! ## The numeral of a number -/

section Numerals

variable {m m' : Magnitude} {s s' : Bool} {x y : Binary64} {c : Char}

/-- The shortest numeral tells the sign and the magnitude, since it reads back. -/
theorem Magnitude.eq_of_shortest_eq (h : m.shortest s = m'.shortest s') : s = s' ∧ m = m' := by
  constructor
  · have hsign := congrArg Decimal.negative h
    rwa [negative_shortest, negative_shortest] at hsign
  · have hround := Binary64.round_shortest false s m
    rw [h, Binary64.round_shortest] at hround
    exact (Binary64.finite.inj hround).2.symm

theorem Binary64.shortest_finite (s : Bool) (m : Magnitude) :
    (finite s m).shortest = (m.shortest s).characters :=
  rfl

/-- Finite numbers with the same text are the same, zeros with their signs. -/
theorem Binary64.eq_of_shortest_eq (hx : x.isFinite = true) (hy : y.isFinite = true)
    (h : x.shortest = y.shortest) : x = y := by
  obtain ⟨s, m, rfl⟩ := exists_of_isFinite hx
  obtain ⟨s', m', rfl⟩ := exists_of_isFinite hy
  rw [shortest_finite, shortest_finite] at h
  have hnumeral : m.shortest s = m'.shortest s' := Decimal.text_injective (congrArg String.ofList h)
  obtain ⟨rfl, rfl⟩ := Magnitude.eq_of_shortest_eq hnumeral
  rfl

/-- The characters of numerals: signs, digits and the point. -/
def isNumeralCharacter (c : Char) : Bool :=
  Lexer.isSign c || Lexer.isRun c

theorem isNumeralCharacter_of_mem_shortest (hx : x.isFinite = true) (hc : c ∈ x.shortest) :
    isNumeralCharacter c = true := by
  obtain ⟨s, m, rfl⟩ := Binary64.exists_of_isFinite hx
  rw [Binary64.shortest_finite] at hc
  rcases Decimal.mem_characters _ hc with hdigit | rfl | rfl
  · simp [isNumeralCharacter, Lexer.isRun, hdigit]
  · rfl
  · rfl

theorem isNumeralCharacter_eq_false_of_isAlpha (h : c.isAlpha = true) :
    isNumeralCharacter c = false := by
  rw [isNumeralCharacter, Lexer.isSign_eq_false_of_isAlpha h, Lexer.isRun_eq_false_of_isAlpha h]
  rfl

theorem Binary64.shortest_ne_nil (hx : x.isFinite = true) : x.shortest ≠ [] := by
  obtain ⟨s, m, rfl⟩ := exists_of_isFinite hx
  obtain ⟨whole, fraction, htext, hne, -⟩ := (m.shortest s).unsigned_spec
  rw [shortest_finite]
  intro h
  have hunsigned : (m.shortest s).unsigned = [] := by
    unfold Decimal.characters at h
    split at h
    · cases h
    · exact h
  rw [htext] at hunsigned
  split at hunsigned
  · exact hne hunsigned
  · exact List.append_ne_nil_of_right_ne_nil _ (List.cons_ne_nil _ _) hunsigned

end Numerals

/-- Two texts that begin with characters of one class, up to the first one that is not of it, agree
there and behind. -/
theorem eq_of_append_eq_append {p : Char → Bool} {a b v w : List Char}
    (ha : ∀ c ∈ a, p c = true) (hb : ∀ c ∈ b, p c = true)
    (hv : ∃ c r, v = c :: r ∧ p c = false) (hw : ∃ c r, w = c :: r ∧ p c = false)
    (h : a ++ v = b ++ w) : a = b ∧ v = w := by
  obtain ⟨x, r, rfl, hx⟩ := hv
  obtain ⟨y, s, rfl, hy⟩ := hw
  have htake := congrArg (List.takeWhile p) h
  rw [List.takeWhile_append_of_pos ha, List.takeWhile_append_of_pos hb,
    List.takeWhile_cons_of_neg (by simp [hx]), List.takeWhile_cons_of_neg (by simp [hy]),
    List.append_nil, List.append_nil] at htake
  exact ⟨htake, List.append_inj_right h (congrArg List.length htake)⟩

namespace Token

variable {unknown : Char} {t u : Token} {rest rest' : List Char}

/-! ## One token -/

/-- Only a term has a coefficient, and it is finite. -/
def IsFinite (t : Token) : Prop :=
  ∀ s, t = term s → s.coefficient.isFinite = true

/-- The numeral of a token: the end has none. -/
def numeral : Token → List Char
  | term s => s.coefficient.shortest
  | finish => []

/-- What stands behind the numeral, the closing bracket included. -/
def closing (unknown : Char) : Token → List Char
  | term s => powerMark unknown s.degree ++ [']']
  | finish => ['f', 'i', 'n', ']']

theorem characters_eq (unknown : Char) (t : Token) :
    characters unknown t = '[' :: (numeral t ++ closing unknown t) := by
  cases t with
  | term s => simp [characters, numeral, closing]
  | finish => rfl

theorem isNumeralCharacter_of_mem_numeral (ht : t.IsFinite) :
    ∀ c ∈ numeral t, isNumeralCharacter c = true := by
  intro c hc
  cases t with
  | term s => exact isNumeralCharacter_of_mem_shortest (ht s rfl) hc
  | finish => cases hc

/-- The closing begins with the unknown, a bracket or the letter `f`. -/
theorem exists_closing_append (hletter : unknown.isAlpha = true) (t : Token) (rest : List Char) :
    ∃ c r, closing unknown t ++ rest = c :: r ∧ isNumeralCharacter c = false := by
  have hunknown := isNumeralCharacter_eq_false_of_isAlpha hletter
  cases t with
  | finish => exact ⟨'f', _, rfl, by decide⟩
  | term s =>
    obtain ⟨degree, x⟩ := s
    cases degree with
    | constant => exact ⟨']', _, rfl, by decide⟩
    | linear => exact ⟨unknown, _, rfl, hunknown⟩
    | square => exact ⟨unknown, _, rfl, hunknown⟩

/-- The mark before the bracket tells the degree. -/
theorem powerMark_append_inj (hletter : unknown.isAlpha = true) {d e : Degree}
    (h : powerMark unknown d ++ ']' :: rest = powerMark unknown e ++ ']' :: rest') :
    d = e ∧ rest = rest' := by
  have hbracket : unknown ≠ ']' := by
    rintro rfl
    exact absurd hletter (by decide)
  cases d <;> cases e <;> simp_all [powerMark, Ne.symm hbracket]

/-- **A token comes off the front**: its text tells the token and where it ends. -/
theorem characters_append_inj (hletter : unknown.isAlpha = true) (ht : t.IsFinite)
    (hu : u.IsFinite) (h : characters unknown t ++ rest = characters unknown u ++ rest') :
    t = u ∧ rest = rest' := by
  rw [characters_eq, characters_eq, List.cons_append, List.cons_append, List.append_assoc,
    List.append_assoc] at h
  obtain ⟨hnumeral, hclosing⟩ := eq_of_append_eq_append (isNumeralCharacter_of_mem_numeral ht)
    (isNumeralCharacter_of_mem_numeral hu) (exists_closing_append hletter t rest)
    (exists_closing_append hletter u rest') (List.cons.inj h).2
  cases t with
  | finish =>
    cases u with
    | finish => exact ⟨rfl, List.append_cancel_left hclosing⟩
    | term s => exact absurd hnumeral.symm (Binary64.shortest_ne_nil (hu s rfl))
  | term s =>
    cases u with
    | finish => exact absurd hnumeral (Binary64.shortest_ne_nil (ht s rfl))
    | term s' =>
      obtain ⟨degree, x⟩ := s
      obtain ⟨degree', x'⟩ := s'
      obtain rfl : x = x' := Binary64.eq_of_shortest_eq (ht _ rfl) (hu _ rfl) hnumeral
      rw [closing, closing, List.append_assoc, List.append_assoc] at hclosing
      obtain ⟨rfl, hrest⟩ := powerMark_append_inj hletter hclosing
      exact ⟨rfl, hrest⟩

/-! ## A list of tokens -/

/-- The tokens behind the first one, each with the space in front of it. -/
def following (unknown : Char) (ts : List Token) : List Char :=
  ts.flatMap fun t => ' ' :: characters unknown t

variable {ts us : List Token}

theorem intercalate_characters_cons (unknown : Char) (t : Token) (ts : List Token) :
    List.intercalate [' '] ((t :: ts).map (characters unknown)) =
      characters unknown t ++ following unknown ts := by
  induction ts generalizing t with
  | nil => simp [following]
  | cons u ts ih =>
    rw [List.map_cons, List.map_cons, List.intercalate_cons_cons, ← List.map_cons, ih]
    simp [following]

theorem following_inj (hletter : unknown.isAlpha = true) (hts : ∀ t ∈ ts, t.IsFinite)
    (hus : ∀ u ∈ us, u.IsFinite) (h : following unknown ts = following unknown us) : ts = us := by
  induction ts generalizing us with
  | nil =>
    cases us with
    | nil => rfl
    | cons u us => cases h
  | cons t ts ih =>
    cases us with
    | nil => cases h
    | cons u us =>
      rw [List.forall_mem_cons] at hts hus
      obtain ⟨rfl, hrest⟩ := characters_append_inj hletter hts.1 hus.1 (List.cons.inj h).2
      rw [ih hts.2 hus.2 hrest]

/-- **The text of tokens is unambiguous**: with a letter for the unknown, two lists of tokens with
finite coefficients have the same text only if they have the same tokens, in the same order, with
the same numbers, zeros with their signs. -/
theorem listText_eq_iff (unknown : Char) (hletter : unknown.isAlpha = true) (ts us : List Token)
    (hts : ∀ s, term s ∈ ts → s.coefficient.isFinite = true)
    (hus : ∀ s, term s ∈ us → s.coefficient.isFinite = true) :
    listText unknown ts = listText unknown us ↔ ts = us := by
  refine ⟨fun h => ?_, congrArg (listText unknown)⟩
  have htext := String.ofList_injective h
  have hts' : ∀ t ∈ ts, t.IsFinite := by
    rintro t ht s rfl
    exact hts s ht
  have hus' : ∀ u ∈ us, u.IsFinite := by
    rintro u hu s rfl
    exact hus s hu
  cases ts with
  | nil =>
    cases us with
    | nil => rfl
    | cons u us =>
      rw [intercalate_characters_cons, characters_eq] at htext
      cases htext
  | cons t ts =>
    cases us with
    | nil =>
      rw [intercalate_characters_cons, characters_eq] at htext
      cases htext
    | cons u us =>
      rw [intercalate_characters_cons, intercalate_characters_cons] at htext
      -- with a space in front, the first token is one of those behind a first one
      exact following_inj hletter hts' hus' (congrArg (List.cons ' ') htext)

/-- A zero before the letter `n`, with which `fin` ends too, is shown with its sign. -/
theorem listText_ne_zeros :
    listText 'n' [term ⟨.linear, .zero false⟩, finish] ≠
      listText 'n' [term ⟨.linear, .zero true⟩, finish] := by
  have hfinite : ∀ negative, ∀ s, term s ∈ [term ⟨.linear, .zero negative⟩, finish] →
      s.coefficient.isFinite = true := by
    intro negative s hs
    obtain rfl : s = ⟨.linear, .zero negative⟩ := by simpa using hs
    rfl
  intro h
  have heq := (listText_eq_iff 'n' (by decide) _ _ (hfinite false) (hfinite true)).mp h
  exact absurd heq (by decide)

end Token

end QuadraticSolver
