import QuadraticSolver.Proofs.Decimal.Rounded
import QuadraticSolver.Proofs.Report.Recognition
import QuadraticSolver.Report.Message

/-!
# Integers are shown as they are

Up to the limit of the search an integer is found as the fraction `n / 1`, and
beyond it the integer is rounded to the places, which moves no integer, and the
zeros behind the point go. The two ways give one text, the decimal digits of the
integer (`integer_law`): the limit is not seen in it, nor is the number of
places, and it has no point, no fraction stroke and no second value behind it.

The two zeros have one value and so one text, without a sign.
-/

namespace QuadraticSolver

open Binary64

/-! ## The two ways -/

namespace Binary64

variable {x : Binary64} {n : ℤ}

/-- An integer is rounded to itself, whatever the places. -/
theorem fixedText_of_toRat_eq (places : Places) (hx : x.isFinite = true) (hn : x.toRat = n) :
    x.fixedText places = Report.integerText n := by
  obtain ⟨s, m, rfl⟩ := exists_of_isFinite hx
  have hnearest := m.nearestInPlaces places.toNat s
  rw [hn] at hnearest
  exact congrArg Decimal.text (Magnitude.fixed_eq_ofInt_iff_signedInPlaces.mpr
    (hnearest.unique (NearestInPlaces.intCast places.toNat n)))

end Binary64

namespace Fraction

variable {x : Binary64} {n : ℤ}

theorem simpleFraction?_of_toRat_eq (hx : x.isFinite = true) (hn : x.toRat = n) :
    simpleFraction? x = if |n| ≤ 10 ^ 9 then some (n : ℚ) else none := by
  split
  next hle =>
    have ht : Target n 1 :=
      ⟨isCoprime_one_right, by decide, by decide, by rwa [mul_one]⟩
    have hnearest : x.IsNearest ((n : ℚ) / (1 : ℤ)) := by
      refine ⟨hx, fun y _ => ?_⟩
      rw [hn, Int.cast_one, div_one, sub_self, abs_zero]
      exact abs_nonneg _
    obtain ⟨r, hr⟩ := exists_recognises ht hnearest
    obtain ⟨hnum, hden⟩ := hr.exact (by norm_num)
    have hvalue := (Rat.den_eq_one_iff r).mp (by exact_mod_cast hden)
    rw [hr.found, ← hvalue, hnum]
  next hlt =>
    have hM := toRat_maxMagnitude
    have hbeyond : maxMagnitude.lt x.abs = true := by
      rw [lt_iff hM.1 (isFinite_abs_iff.mpr hx), toRat_abs, hM.2, hn]
      exact_mod_cast not_le.mp hlt
    unfold simpleFraction?
    rw [hbeyond, Bool.or_true]
    rfl

end Fraction

/-! ## The text -/

namespace Report

variable {x : Binary64} {n : ℤ} {c : Char}

theorem integerText_eq_toString (n : ℤ) : integerText n = toString n := by
  unfold integerText Decimal.text
  rw [Decimal.characters_eq, Decimal.unsigned_ofInt, String.ofList_append]
  cases n with
  | ofNat k => rfl
  | negSucc k =>
    have hminus : String.ofList ['-'] = "-" := by decide
    have hsign : (Decimal.ofInt (Int.negSucc k)).negative = true :=
      decide_eq_true (Int.negSucc_lt_zero k)
    rw [if_pos hsign, hminus]
    rfl

theorem mem_toString (hc : c ∈ (toString n).toList) : c.isDigit = true ∨ c = '-' := by
  rw [← integerText_eq_toString, integerText, Decimal.text, String.toList_ofList,
    Decimal.characters_eq, Decimal.unsigned_ofInt] at hc
  rcases List.mem_append.mp hc with hsign | hdigit
  · split at hsign
    · exact Or.inr (List.mem_singleton.mp hsign)
    · exact absurd hsign List.not_mem_nil
  · exact Or.inl (Decimal.isDigit_of_mem_toDigits hdigit)

/-- Both ways to write a number write an integer as itself, found or rounded. -/
theorem texts_of_toRat_eq (places : Places) (hx : x.isFinite = true) (hn : x.toRat = n) :
    numberText places x = integerText n ∧ partText places x = integerText n := by
  unfold numberText partText
  rw [Fraction.simpleFraction?_of_toRat_eq hx hn]
  by_cases hle : |n| ≤ 10 ^ 9
  · rw [if_pos hle]
    simp
  · rw [if_neg hle]
    exact ⟨fixedText_of_toRat_eq places hx hn, fixedText_of_toRat_eq places hx hn⟩

/-- The text is the digits of the integer under its sign, and nothing else. -/
structure ShownAsInteger (text : String) (n : ℤ) : Prop where
  eq : text = toString n
  no_point : '.' ∉ text.toList
  no_stroke : '/' ∉ text.toList
  no_second : '≈' ∉ text.toList

theorem shownAsInteger_integerText (n : ℤ) : ShownAsInteger (integerText n) n := by
  have hplain : ∀ c, c.isDigit = false → c ≠ '-' → c ∉ (integerText n).toList := by
    intro c hdigit hminus hc
    rw [integerText_eq_toString] at hc
    rcases mem_toString hc with h | h
    · exact Bool.false_ne_true (hdigit.symm.trans h)
    · exact hminus h
  refine ⟨integerText_eq_toString n, ?_, ?_, ?_⟩
  · exact hplain '.' rfl (by decide)
  · exact hplain '/' rfl (by decide)
  · exact hplain '≈' rfl (by decide)

/-- **An integer is shown as it is**, whatever its size and the places: as a real root and as either
part of a complex one, beside any other part. -/
theorem integer_law (places : Places) (hx : x.isFinite = true) (hn : x.toRat = n) :
    ShownAsInteger (numberText places x) n ∧ ShownAsInteger (partText places x) n ∧
      ∀ (v : Char) (y : Binary64),
        message (.conjugates x y) v places =
          "Deux solutions complexes : " ++ String.ofList [v] ++ "1 = " ++ toString n ++ " + " ++
            partText places y ++ "i, " ++ String.ofList [v] ++ "2 = " ++ toString n ++ " - " ++
            partText places y ++ "i" ∧
        message (.conjugates y x) v places =
          "Deux solutions complexes : " ++ String.ofList [v] ++ "1 = " ++ partText places y ++
            " + " ++ toString n ++ "i, " ++ String.ofList [v] ++ "2 = " ++ partText places y ++
            " - " ++ toString n ++ "i" := by
  obtain ⟨hnumber, hpart⟩ := texts_of_toRat_eq places hx hn
  have hshown := shownAsInteger_integerText n
  refine ⟨hnumber ▸ hshown, hpart ▸ hshown, ?_⟩
  intro v y
  have htext : partText places x = toString n := hpart.trans (integerText_eq_toString n)
  rw [← htext]
  exact ⟨rfl, rfl⟩

/-- The law beyond the limit of the search, at `-2 ^ 70` without any places. -/
theorem integer_law_beyond_limit :
    (Binary64.finite true ⟨2 ^ 52, 1092, by decide⟩).isFinite = true ∧
      (Binary64.finite true ⟨2 ^ 52, 1092, by decide⟩).toRat = ((-2 ^ 70 : ℤ) : ℚ) ∧
      ShownAsInteger (numberText ⟨0, by decide⟩ (.finite true ⟨2 ^ 52, 1092, by decide⟩))
        (-2 ^ 70) :=
  have hx : (Binary64.finite true ⟨2 ^ 52, 1092, by decide⟩).isFinite = true := rfl
  have hn : (Binary64.finite true ⟨2 ^ 52, 1092, by decide⟩).toRat = ((-2 ^ 70 : ℤ) : ℚ) := by
    decide +kernel
  ⟨hx, hn, (integer_law ⟨0, by decide⟩ hx hn).1⟩

example : numberText ⟨3, by decide⟩ (.zero true) = "0" := by decide +kernel

end Report

end QuadraticSolver
