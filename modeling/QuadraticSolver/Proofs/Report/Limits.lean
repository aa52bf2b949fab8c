import QuadraticSolver.Proofs.Report.Soundness

/-!
# The limits of the search

The search for a fraction stops after 32 turns, and where a word overflows. Neither
limit changes what it comes to: it is compared here with `Search.ComesTo`, which
counts no turns, on unbounded integers.

From the second turn on every integer part is at least one, although the remainders
are rounded. So the denominators grow as the Fibonacci numbers, and the seventeenth
is beyond the limit of a thousand (`Bounded.turns_le`). And the numerators stay within
`10 ^ 9 + 1` times the denominators, for a combination of two convergents is bounded as
they are (`abs_mul_add_le`). A turn whose denominator is within the limit is therefore
computed on words without an overflow (`Bounded.mulAdd_eq`); any other turn is refused,
by the overflow or by the limit.

The law says nothing of whether an overflow ever arises.
-/

namespace QuadraticSolver.Fraction

open Binary64

/-! ## The search without limits -/

/-- The verdict that a search comes to, in however many turns. -/
inductive Search.ComesTo (w : Width) (x : Binary64) : Search → Verdict → Prop
  | found {s : Search} {num den : ℤ} (h : s.turn w x = .found num den) :
      ComesTo w x s (.found num den)
  | refused {s : Search} (h : s.turn w x = .refused) : ComesTo w x s .refused
  | next {s s' : Search} {verdict : Verdict} (h : s.turn w x = .next s')
      (hnext : ComesTo w x s' verdict) : ComesTo w x s verdict

section Runs

variable {w : Width} {x : Binary64}

/-- Further turns do not change a verdict. -/
theorem Search.run_eq_of_le :
    ∀ {turns turns' : ℕ} {s : Search}, turns ≤ turns' → s.run w x turns ≠ .unfinished →
      s.run w x turns' = s.run w x turns
  | 0, _, _, _, h => absurd rfl h
  | turns + 1, turns' + 1, s, hle, h => by
    rw [run] at h ⊢
    rw [run]
    cases hturn : s.turn w x with
    | found num den => rfl
    | refused => rfl
    | next s' =>
      rw [hturn] at h
      exact run_eq_of_le (Nat.le_of_succ_le_succ hle) h

/-- A search comes to one verdict only. -/
theorem Search.ComesTo.unique {s : Search} {verdict verdict' : Verdict}
    (h : s.ComesTo w x verdict) (h' : s.ComesTo w x verdict') : verdict = verdict' := by
  induction h with
  | found hturn =>
    cases h' with
    | found hturn' =>
      cases hturn.symm.trans hturn'
      rfl
    | refused hturn' | next hturn' => cases hturn.symm.trans hturn'
  | refused hturn =>
    cases h' with
    | refused => rfl
    | found hturn' | next hturn' => cases hturn.symm.trans hturn'
  | next hturn _ ih =>
    cases h' with
    | found hturn' | refused hturn' => cases hturn.symm.trans hturn'
    | next hturn' hnext' =>
      cases hturn.symm.trans hturn'
      exact ih hnext'

/-- A verdict within some number of turns is the one that the search comes to. -/
theorem Search.comesTo_run :
    ∀ {turns : ℕ} {s : Search}, s.run w x turns ≠ .unfinished → s.ComesTo w x (s.run w x turns)
  | 0, _, h => absurd rfl h
  | turns + 1, s, h => by
    rw [run] at h ⊢
    cases hturn : s.turn w x with
    | found num den => exact .found hturn
    | refused => exact .refused hturn
    | next s' =>
      rw [hturn] at h
      exact .next hturn (comesTo_run h)

theorem Search.comesTo_iff {turns : ℕ} {s : Search} {verdict : Verdict}
    (h : s.run w x turns ≠ .unfinished) : s.ComesTo w x verdict ↔ verdict = s.run w x turns := by
  constructor
  · intro hverdict
    exact hverdict.unique (comesTo_run h)
  · rintro rfl
    exact comesTo_run h

end Runs

/-! ## What every turn keeps -/

/-- A bound on the first of two terms, and on both together, is one on their combination. -/
theorem abs_mul_add_le {n a b c k l : ℤ} (hn : 1 ≤ n) (ha : |a| ≤ c * k)
    (hab : |a| + |b| ≤ c * (k + l)) : |n * a + b| ≤ c * (n * k + l) := by
  have hrest : 0 ≤ n - 1 := sub_nonneg.mpr hn
  calc |n * a + b| ≤ |n * a| + |b| := abs_add_le _ _
    _ = (n - 1) * |a| + (|a| + |b|) := by
      rw [abs_mul, abs_of_pos (zero_lt_one.trans_le hn)]
      ring
    _ ≤ (n - 1) * (c * k) + c * (k + l) :=
      add_le_add (mul_le_mul_of_nonneg_left ha hrest) hab
    _ = c * (n * k + l) := by ring

/-- The terms of the convergents are bounded from both sides: the denominators by the Fibonacci
numbers, the numerators by the denominators. The bounds on the numerators reach one convergent
ahead, because the one before the first has the denominator zero. -/
structure Search.Bounded (turns : ℕ) (s : Search) : Prop extends s.Regular where
  fib_le : (Nat.fib turns : ℤ) ≤ s.den
  fib_succ_le : (Nat.fib (turns + 1) : ℤ) ≤ s.den + s.previousDen
  den_le : s.den ≤ 1000
  num_add_le : |s.num| + |s.previousNum| ≤ (10 ^ 9 + 1) * (s.den + s.previousDen)
  nextNum_le : |s.nextNum ⌊s.remainder.toRat⌋| ≤ (10 ^ 9 + 1) * s.nextDen ⌊s.remainder.toRat⌋
  nextNum_add_le : |s.nextNum ⌊s.remainder.toRat⌋| + |s.num| ≤
    (10 ^ 9 + 1) * (s.nextDen ⌊s.remainder.toRat⌋ + s.den)

theorem bounded_start {x : Binary64} (hx : x.isFinite = true) (hx' : |x.toRat| ≤ 10 ^ 9) :
    (Search.start x).Bounded 0 := by
  obtain ⟨hlow, hhigh⟩ := abs_le.mp hx'
  have hfloor : |⌊x.toRat⌋| ≤ 10 ^ 9 := by
    have hge : -10 ^ 9 ≤ ⌊x.toRat⌋ := Int.le_floor.mpr (by exact_mod_cast hlow)
    have hle : ⌊x.toRat⌋ ≤ 10 ^ 9 := by exact_mod_cast (Int.floor_le x.toRat).trans hhigh
    exact abs_le.mpr ⟨hge, hle⟩
  have hnum : (Search.start x).nextNum ⌊x.toRat⌋ = ⌊x.toRat⌋ := by
    show ⌊x.toRat⌋ * 1 + 0 = _
    rw [mul_one, add_zero]
  have hden : (Search.start x).nextDen ⌊x.toRat⌋ = 1 := by
    show ⌊x.toRat⌋ * 0 + 1 = _
    rw [mul_zero, zero_add]
  exact {
    regular_start hx hx' with
    fib_le := le_rfl
    fib_succ_le := le_rfl
    den_le := by
      show (0 : ℤ) ≤ 1000
      decide
    num_add_le := by
      show |(1 : ℤ)| + |(0 : ℤ)| ≤ (10 ^ 9 + 1) * (0 + 1)
      decide
    nextNum_le := by
      show |(Search.start x).nextNum ⌊x.toRat⌋| ≤
        (10 ^ 9 + 1) * (Search.start x).nextDen ⌊x.toRat⌋
      rw [hnum, hden]
      omega
    nextNum_add_le := by
      show |(Search.start x).nextNum ⌊x.toRat⌋| + |(1 : ℤ)| ≤
        (10 ^ 9 + 1) * ((Search.start x).nextDen ⌊x.toRat⌋ + 0)
      rw [hnum, hden, abs_one]
      omega }

namespace Search

variable {w : Width} {x : Binary64} {s s' : Search} {turns : ℕ}

/-- Denominators do not decrease. -/
theorem Regular.den_add_previousDen_le_nextDen (h : s.Regular) :
    s.den + s.previousDen ≤ s.nextDen ⌊s.remainder.toRat⌋ := by
  rw [nextDen]
  rcases h.order with ⟨hden, -⟩ | ⟨hden, -, hone⟩
  · rw [hden, mul_zero]
  · have hfloor : 1 ≤ ⌊s.remainder.toRat⌋ := Int.le_floor.mpr (by exact_mod_cast hone)
    have hmul := le_mul_of_one_le_left (zero_le_one.trans hden) hfloor
    omega

namespace Bounded

/-- **There are few turns**: the seventeenth denominator is at least 1597. -/
theorem turns_le (h : s.Bounded turns) : turns ≤ 16 := by
  have hfib := h.fib_le.trans h.den_le
  exact le_of_fib_le (by exact_mod_cast hfib)

/-- **Within the limit nothing overflows.** -/
theorem mulAdd_eq (h : s.Bounded turns) (w : Width)
    (hle : s.nextDen ⌊s.remainder.toRat⌋ ≤ 1000) :
    w.mulAdd ⌊s.remainder.toRat⌋ s.num s.previousNum = some (s.nextNum ⌊s.remainder.toRat⌋) ∧
      w.mulAdd ⌊s.remainder.toRat⌋ s.den s.previousDen =
        some (s.nextDen ⌊s.remainder.toRat⌋) := by
  have hsum := h.den_add_previousDen_le_nextDen
  have hpos := h.nextDen_pos
  have hnum : |s.nextNum ⌊s.remainder.toRat⌋| ≤ 2 ^ 61 := by
    have := h.nextNum_le
    omega
  have hpreviousNum : |s.previousNum| ≤ 2 ^ 61 := by
    have := h.num_add_le
    have := abs_nonneg s.num
    omega
  have hden : |s.nextDen ⌊s.remainder.toRat⌋| ≤ 2 ^ 61 := by
    rw [abs_of_pos hpos]
    omega
  have hpreviousDen : |s.previousDen| ≤ 2 ^ 61 := by
    rcases h.order with ⟨-, hprevious⟩ | ⟨hden, hprevious, -⟩
    · rw [hprevious]
      norm_num
    · rw [abs_of_nonneg hprevious]
      omega
  exact ⟨mulAdd_of_abs_le w hpreviousNum hnum, mulAdd_of_abs_le w hpreviousDen hden⟩

/-- A turn is the same on words and on all integers. -/
theorem turn_eq (h : s.Bounded turns) (w : Width) :
    s.turn w x =
      if 1000 < s.nextDen ⌊s.remainder.toRat⌋ then .refused
      else if isClose x (.ofInt (s.nextNum ⌊s.remainder.toRat⌋) /
          .ofInt (s.nextDen ⌊s.remainder.toRat⌋)) then
        .found (s.nextNum ⌊s.remainder.toRat⌋) (s.nextDen ⌊s.remainder.toRat⌋)
      else if s.left.le leastRemainder then .refused
      else .next (s.advance ⌊s.remainder.toRat⌋) :=
  turn_eq_of_mulAdd h.finite rfl h.abs_floor_le (h.mulAdd_eq w)

/-- A turn after which the search goes on had a denominator within the limit. -/
theorem of_turn_eq_next (h : s.Bounded turns) (hturn : s.turn w x = .next s') :
    s' = s.advance ⌊s.remainder.toRat⌋ ∧ s.nextDen ⌊s.remainder.toRat⌋ ≤ 1000 ∧
      s.left.le leastRemainder = false := by
  rw [h.turn_eq] at hturn
  split at hturn
  next => cases hturn
  next hle =>
    split at hturn
    next => cases hturn
    next =>
      split at hturn
      next => cases hturn
      next hleft => exact ⟨(Turn.next.inj hturn).symm, not_lt.mp hle, Bool.not_eq_true _ ▸ hleft⟩

/-- **What one turn keeps.** -/
theorem next (h : s.Bounded turns) (hturn : s.turn w x = .next s') : s'.Bounded (turns + 1) := by
  obtain ⟨rfl, hle, hleft⟩ := h.of_turn_eq_next hturn
  have hregular := h.advance hleft
  have hpos := h.nextDen_pos
  have hsum := h.den_add_previousDen_le_nextDen
  have hfib := h.fib_le
  have hfib' := h.fib_succ_le
  have hnum := h.nextNum_le
  have hnums := h.nextNum_add_le
  generalize ⌊s.remainder.toRat⌋ = n at *
  -- the inverse of what is left is at least one, and it is rounded to at least one
  have hone : 1 ≤ ⌊(s.advance n).remainder.toRat⌋ := by
    rcases hregular.order with ⟨hden, -⟩ | ⟨-, -, hone⟩
    · exact absurd hden hpos.ne'
    · exact Int.le_floor.mpr (by exact_mod_cast hone)
  have hnext : |(s.advance n).nextNum ⌊(s.advance n).remainder.toRat⌋| ≤
      (10 ^ 9 + 1) * (s.advance n).nextDen ⌊(s.advance n).remainder.toRat⌋ :=
    abs_mul_add_le hone hnum hnums
  exact {
    hregular with
    fib_le := hfib'.trans hsum
    fib_succ_le := by
      show (Nat.fib (turns + 2) : ℤ) ≤ s.nextDen n + s.den
      rw [Nat.fib_add_two]
      push_cast
      omega
    den_le := hle
    num_add_le := hnums
    nextNum_le := hnext
    nextNum_add_le := by
      rw [mul_add]
      exact add_le_add hnext hnum }

/-- **The width of the integers makes no difference**, in any number of turns. -/
theorem run_eq_run_word (w : Width) :
    ∀ (more : ℕ) {turns : ℕ} {s : Search}, s.Bounded turns → s.run w x more = s.run .word x more
  | 0, _, _, _ => rfl
  | more + 1, _, s, h => by
    rw [run, run, h.turn_eq .word, ← h.turn_eq w]
    cases hturn : s.turn w x with
    | found num den => rfl
    | refused => rfl
    | next s' => exact run_eq_run_word w more (h.next hturn)

/-- **The search ends** when seventeen turns are reached at the latest. -/
theorem run_ne_unfinished :
    ∀ (more : ℕ) {turns : ℕ} {s : Search}, s.Bounded turns → 17 ≤ turns + more →
      s.run w x more ≠ .unfinished
  | 0, _, _, h, hle => by
    have := h.turns_le
    omega
  | more + 1, _, s, h, hle => by
    rw [run]
    cases hturn : s.turn w x with
    | found num den => exact Verdict.noConfusion
    | refused => exact Verdict.noConfusion
    | next s' => exact run_ne_unfinished more (h.next hturn) (by omega)

end Bounded

end Search

/-! ## Every turn of a search -/

/-- The searches at which a turn begins, with the number of turns before it. -/
inductive Search.Reached (x : Binary64) : ℕ → Search → Prop
  | start : Reached x 0 (.start x)
  | next {turns : ℕ} {s s' : Search} (h : Reached x turns s) (hturn : s.turn .word x = .next s') :
      Reached x (turns + 1) s'

/-- The integer that a turn computes with: the integer part, converted to a word. -/
def Search.whole (s : Search) : ℤ :=
  Width.word.saturated s.remainder.floor.toRat.floor

/-- A term of the next convergent is not computed: its product or its sum is no word. -/
def Search.Overflows (s : Search) : Prop :=
  Width.word.mulAdd s.whole s.num s.previousNum = none ∨
    Width.word.mulAdd s.whole s.den s.previousDen = none

/-- Nothing is lost in the turn by the use of words: the integer part is converted exactly, and
nothing overflows as long as the denominator is within the limit. -/
structure Search.FitsWords (s : Search) : Prop where
  finite : s.remainder.floor.isFinite = true
  whole_eq : (s.whole : ℚ) = s.remainder.floor.toRat
  whole_floor : s.whole = ⌊s.remainder.toRat⌋
  not_overflows : s.nextDen s.whole ≤ maxDenominator → ¬ s.Overflows

section Law

variable {x : Binary64} {s : Search} {turns : ℕ}

theorem Search.Bounded.fitsWords (h : s.Bounded turns) : s.FitsWords := by
  obtain ⟨hfinite, hvalue⟩ := floor_spec h.finite h.abs_floor_le
  have hwhole : s.whole = ⌊s.remainder.toRat⌋ := saturated_floor .word h.finite h.abs_floor_le
  refine ⟨hfinite, ?_, hwhole, ?_⟩
  · rw [hwhole, hvalue]
  · rw [Search.Overflows, hwhole]
    intro hle
    obtain ⟨hnum, hden⟩ := h.mulAdd_eq .word hle
    rw [hnum, hden]
    rintro (h | h) <;> cases h

theorem Search.Reached.bounded (hx : x.isFinite = true) (hx' : |x.toRat| ≤ 10 ^ 9)
    (h : Search.Reached x turns s) : s.Bounded turns := by
  induction h with
  | start => exact bounded_start hx hx'
  | next _ hturn ih => exact ih.next hturn

/-- A search that is long enough comes to one verdict on integers of any width. -/
theorem run_start_eq_of_le (hx : x.isFinite = true) (hx' : |x.toRat| ≤ 10 ^ 9) (w : Width)
    (hle : 17 ≤ turns) :
    (Search.start x).run w x turns = (Search.start x).run .word x 17 := by
  have hbounded := bounded_start hx hx'
  rw [hbounded.run_eq_run_word w]
  exact Search.run_eq_of_le hle (hbounded.run_ne_unfinished 17 (by decide))

/-- It is the verdict that the search comes to without limits. -/
theorem comesTo_start_iff (hx : x.isFinite = true) (hx' : |x.toRat| ≤ 10 ^ 9) {w : Width}
    {verdict : Verdict} :
    (Search.start x).ComesTo w x verdict ↔ verdict = (Search.start x).run .word x 17 := by
  rw [Search.comesTo_iff ((bounded_start hx hx').run_ne_unfinished 17 (by decide)),
    run_start_eq_of_le hx hx' w le_rfl]

/-- A fraction is found exactly where the search comes to it. -/
theorem simpleFraction?_eq_some_iff {r : ℚ} :
    simpleFraction? x = some r ↔ x.isFinite = true ∧ maxMagnitude.lt x.abs = false ∧
      ∃ p q : ℤ, (Search.start x).ComesTo .unbounded x (.found p q) ∧ r = Rat.divInt p q := by
  unfold simpleFraction?
  split
  next hguard =>
    rw [Bool.or_eq_true, Bool.not_eq_true'] at hguard
    constructor
    · intro h
      cases h
    · rintro ⟨hx, hmagnitude, -⟩
      rw [hx, hmagnitude] at hguard
      rcases hguard with h | h <;> cases h
  next hguard =>
    rw [Bool.not_eq_true, Bool.or_eq_false_iff, Bool.not_eq_false'] at hguard
    obtain ⟨hx, hmagnitude⟩ := hguard
    have hx' := abs_le_of_lt_eq_false hx hmagnitude
    simp only [comesTo_start_iff hx hx', hx, hmagnitude, true_and]
    rw [run_start_eq_of_le hx hx' .word (by decide)]
    cases (Search.start x).run .word x 17 with
    | found num den => simp [eq_comm]
    | refused => simp
    | unfinished => simp

/-- **The limits of the search change no result.** A fraction is found exactly where the search on
all integers comes to it, in however many turns. Within the limits on the number there is one
verdict: to it comes every search of at least seventeen turns, on words or on all integers, and the
search without limits; and no turn loses anything to the use of words. -/
theorem limits_law (x : Binary64) :
    (∀ r, simpleFraction? x = some r ↔ x.isFinite = true ∧ maxMagnitude.lt x.abs = false ∧
      ∃ p q : ℤ, (Search.start x).ComesTo .unbounded x (.found p q) ∧ r = Rat.divInt p q) ∧
    (x.isFinite = true → maxMagnitude.lt x.abs = false → ∃ verdict, verdict ≠ .unfinished ∧
      (∀ (w : Width) (turns : ℕ), 17 ≤ turns → (Search.start x).run w x turns = verdict) ∧
      (∀ (w : Width) (verdict' : Verdict),
        (Search.start x).ComesTo w x verdict' ↔ verdict' = verdict) ∧
      ∀ (turns : ℕ) (s : Search), Search.Reached x turns s → turns < 17 ∧ s.FitsWords) := by
  refine ⟨fun r => simpleFraction?_eq_some_iff, fun hx hmagnitude => ?_⟩
  have hx' := abs_le_of_lt_eq_false hx hmagnitude
  refine ⟨(Search.start x).run .word x 17, ?_, ?_, ?_, ?_⟩
  · exact (bounded_start hx hx').run_ne_unfinished 17 (by decide)
  · intro w turns hle
    exact run_start_eq_of_le hx hx' w hle
  · intro w verdict'
    exact comesTo_start_iff hx hx'
  · intro turns s hreached
    have hbounded := hreached.bounded hx hx'
    exact ⟨Nat.lt_succ_of_le hbounded.turns_le, hbounded.fitsWords⟩

/-- The number nearest to the golden ratio takes all of the seventeen turns. -/
theorem limits_law_golden_ratio :
    let x : Binary64 := round false (mkRat 7286977268806824 4503599627370496)
    x.isFinite = true ∧ maxMagnitude.lt x.abs = false ∧
      (Search.start x).run .word x 16 = .unfinished ∧
      (Search.start x).run .word x 32 = .refused ∧
      (Search.start x).ComesTo .unbounded x .refused ∧
      simpleFraction? x = none ∧ (Search.start x).FitsWords := by
  intro x
  have hx : x.isFinite = true := by decide +kernel
  have hmagnitude : maxMagnitude.lt x.abs = false := by decide +kernel
  have hverdict : (Search.start x).run .word x 17 = .refused := by decide +kernel
  obtain ⟨hfraction, hlimits⟩ := limits_law x
  obtain ⟨verdict, -, hrun, hcomes, hreached⟩ := hlimits hx hmagnitude
  have heq : .refused = verdict := hverdict.symm.trans (hrun .word 17 le_rfl)
  have hnone : simpleFraction? x = none := by
    rw [Option.eq_none_iff_forall_ne_some]
    intro r hr
    obtain ⟨-, -, p, q, hfound, -⟩ := (hfraction r).mp hr
    cases ((hcomes .unbounded _).mp hfound).trans heq.symm
  refine ⟨hx, hmagnitude, by decide +kernel, ?_, ?_, hnone, (hreached 0 _ .start).2⟩
  · exact (hrun .word 32 (by decide)).trans heq.symm
  · exact (hcomes .unbounded .refused).mpr heq

end Law

end QuadraticSolver.Fraction
