/-!
# Blank characters

The blank characters are those with the Unicode property `White_Space`: 25
code points. Zero-width characters and the byte order mark are not among
them. Equations are read with all blanks taken out (`Text.compact`), and what
a user enters is judged with the blanks at both ends taken off (`Text.trim`).
-/

namespace QuadraticSolver.Text

/-- The character has the property `White_Space`. -/
def isBlank (c : Char) : Bool :=
  let n := c.toNat
  (9 ≤ n && n ≤ 13) || n == 32 || n == 133 || n == 160 || n == 5760 ||
    (8192 ≤ n && n ≤ 8202) || n == 8232 || n == 8233 || n == 8239 || n == 8287 || n == 12288

/-- The text without its blanks. -/
def compact (s : List Char) : List Char :=
  s.filter fun c => !isBlank c

/-- The text without the blanks at its two ends. -/
def trim (s : List Char) : List Char :=
  ((s.dropWhile isBlank).reverse.dropWhile isBlank).reverse

/-! ## Small laws -/

/-- What is left holds no blank. -/
theorem not_isBlank_of_mem_compact {s : List Char} {c : Char} (h : c ∈ compact s) :
    isBlank c = false := by
  simpa [compact] using (List.mem_filter.mp h).2

/-- The first character that is left at the ends is not blank. -/
theorem head?_trim {s : List Char} {c : Char} (h : (trim s).head? = some c) :
    isBlank c = false := by
  have hsuffix := List.dropWhile_suffix (l := (s.dropWhile isBlank).reverse) isBlank
  unfold trim at h
  rw [List.head?_reverse] at h
  obtain ⟨dropped, hsplit⟩ := hsuffix
  have hlast : (s.dropWhile isBlank).reverse.getLast? = some c := by
    rw [← hsplit, List.getLast?_append, h]
    rfl
  rw [List.getLast?_reverse] at hlast
  have hnot := List.head?_dropWhile_not isBlank s
  rw [hlast] at hnot
  simpa using hnot

/-- Neither is the last one. -/
theorem getLast?_trim {s : List Char} {c : Char} (h : (trim s).getLast? = some c) :
    isBlank c = false := by
  unfold trim at h
  rw [List.getLast?_reverse] at h
  have hnot := List.head?_dropWhile_not isBlank (s.dropWhile isBlank).reverse
  rw [h] at hnot
  simpa using hnot

/-- A text that begins with no blank loses none there. -/
theorem dropWhile_isBlank {s : List Char} (h : ∀ c, s.head? = some c → isBlank c = false) :
    s.dropWhile isBlank = s := by
  cases s with
  | nil => rfl
  | cons c rest => rw [List.dropWhile_cons_of_neg (by simp [h c rfl])]

end QuadraticSolver.Text
