import Mathlib
import QuadraticSolver.Exact.HalfEven

/-!
# How far a rounded quotient is from the quotient

`halfEven num den` is within one half of `num / den`, and even where it is just
one half away (`even_halfEven`). That fixes it (`halfEven_eq`) and leaves no
integer nearer (`abs_halfEven_sub_le`), and it depends on the quotient alone: a
common factor of the two numbers changes nothing.
-/

namespace QuadraticSolver

/-- The rounded quotient is within one half of the quotient, on either side. -/
theorem halfEven_within_half (num : ℕ) {den : ℕ} (h : 0 < den) :
    2 * (halfEven num den * den) ≤ 2 * num + den ∧
      2 * num ≤ 2 * (halfEven num den * den) + den := by
  have hsplit : num / den * den + num % den = num := Nat.div_add_mod' num den
  have hlt : num % den < den := Nat.mod_lt num h
  have hsucc : (num / den + 1) * den = num / den * den + den := Nat.succ_mul _ _
  unfold halfEven
  dsimp only
  split
  · omega
  · split
    · omega
    · split <;> omega

/-- The same with the quotient as a rational number. -/
theorem abs_halfEven_sub_le_half (num : ℕ) {den : ℕ} (h : 0 < den) :
    |(halfEven num den : ℚ) - num / den| ≤ 1 / 2 := by
  obtain ⟨hlow, hhigh⟩ := halfEven_within_half num h
  have hden : (0 : ℚ) < den := by exact_mod_cast h
  have hlow' : 2 * ((halfEven num den : ℚ) * den) ≤ 2 * num + den := by exact_mod_cast hlow
  have hhigh' : 2 * (num : ℚ) ≤ 2 * (halfEven num den * den) + den := by exact_mod_cast hhigh
  have hcancel : (num / den : ℚ) * den = num := div_mul_cancel₀ _ hden.ne'
  rw [abs_le]
  constructor <;> refine le_of_mul_le_mul_right ?_ hden <;> linarith

/-- No other integer is nearer to the quotient. -/
theorem abs_halfEven_sub_le (num k : ℕ) {den : ℕ} (h : 0 < den) :
    |(halfEven num den : ℚ) - num / den| ≤ |(k : ℚ) - num / den| := by
  have hhalf := abs_halfEven_sub_le_half num h
  by_cases hk : k = halfEven num den
  · rw [hk]
  · have hapart : (1 : ℚ) ≤ |(k : ℚ) - halfEven num den| := by
      have hne : (k : ℤ) - halfEven num den ≠ 0 := by omega
      exact_mod_cast Int.one_le_abs hne
    have htriangle := abs_sub_le (k : ℚ) (num / den) (halfEven num den)
    rw [abs_sub_comm (num / den : ℚ)] at htriangle
    linarith

/-- Half-way between two integers the even one is taken. -/
theorem even_halfEven {num den : ℕ} (h : 0 < den)
    (htie : |(halfEven num den : ℚ) - num / den| = 1 / 2) : Even (halfEven num den) := by
  have hden : (den : ℚ) ≠ 0 := by exact_mod_cast h.ne'
  have hcancel : (num / den : ℚ) * den = num := div_mul_cancel₀ _ hden
  have hmiddle : 2 * (halfEven num den * den) = 2 * num + den ∨
      2 * (halfEven num den * den) + den = 2 * num := by
    rcases eq_or_eq_neg_of_abs_eq htie with hup | hdown
    · left
      have hscaled : 2 * ((halfEven num den : ℚ) * den) = 2 * num + den := by
        linear_combination 2 * den * hup + 2 * hcancel
      exact_mod_cast hscaled
    · right
      have hscaled : 2 * ((halfEven num den : ℚ) * den) + den = 2 * num := by
        linear_combination 2 * den * hdown + 2 * hcancel
      exact_mod_cast hscaled
  have hsplit : num / den * den + num % den = num := Nat.div_add_mod' num den
  have hlt : num % den < den := Nat.mod_lt num h
  have hsucc : (num / den + 1) * den = num / den * den + den := Nat.succ_mul _ _
  rw [Nat.even_iff]
  revert hmiddle
  unfold halfEven
  dsimp only
  split
  · omega
  · split
    · omega
    · split <;> omega

/-- The only integer within one half of the quotient, or of the two the even one. -/
theorem halfEven_eq {n num den : ℕ} (h : 0 < den) (hlow : 2 * (n * den) ≤ 2 * num + den)
    (hhigh : 2 * num ≤ 2 * (n * den) + den)
    (htie : 2 * (n * den) = 2 * num + den ∨ 2 * num = 2 * (n * den) + den → n % 2 = 0) :
    halfEven num den = n := by
  have hsplit : num / den * den + num % den = num := Nat.div_add_mod' num den
  have hlt : num % den < den := Nat.mod_lt num h
  have hbelow : num / den ≤ n := by
    have hprod : num / den * den < (n + 1) * den := by
      rw [Nat.succ_mul]
      omega
    exact Nat.le_of_lt_succ (Nat.lt_of_mul_lt_mul_right hprod)
  have habove : n ≤ num / den + 1 := by
    have hprod : n * den < (num / den + 2) * den := by
      rw [Nat.add_mul]
      omega
    exact Nat.le_of_lt_succ (Nat.lt_of_mul_lt_mul_right hprod)
  have hsucc : (num / den + 1) * den = num / den * den + den := Nat.succ_mul _ _
  unfold halfEven
  dsimp only
  rcases Nat.eq_or_lt_of_le hbelow with rfl | hnext
  · split
    · rfl
    · split
      · omega
      · exact if_pos (htie (by omega))
  · obtain rfl : n = num / den + 1 := by omega
    split
    · omega
    · split
      · rfl
      · have := htie (by omega)
        exact if_neg (by omega)

/-- A common factor of the two numbers changes nothing. -/
theorem halfEven_mul_mul {k : ℕ} (h : 0 < k) (num den : ℕ) :
    halfEven (k * num) (k * den) = halfEven num den := by
  have hquotient : k * num / (k * den) = num / den := Nat.mul_div_mul_left num den h
  have htwice : 2 * (k * num % (k * den)) = k * (2 * (num % den)) := by
    rw [Nat.mul_mod_mul_left, Nat.mul_left_comm]
  unfold halfEven
  dsimp only
  simp only [hquotient, htwice, Nat.mul_lt_mul_left h]

end QuadraticSolver
