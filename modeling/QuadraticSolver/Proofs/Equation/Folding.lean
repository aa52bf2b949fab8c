import Mathlib
import QuadraticSolver.Equation.Coefficients

/-!
# The sum of each class

The three coefficients are summed together, in one pass over both sides. No
class sees the others: the coefficient of a degree is the running sum of the
terms of that degree alone (`ofSides_eq`), the left side in order and then the
opposites of the right side in order.
-/

namespace QuadraticSolver

/-- The coefficients of the terms of one degree, in order. -/
def coefficientsOf (degree : Degree) (ts : List Term) : List Binary64 :=
  (ts.filter (·.degree = degree)).map Term.coefficient

/-- The running sum of one class, from zero: the left side, then the right side with its signs
changed. -/
def classSum (degree : Degree) (left right : List Term) : Binary64 :=
  (coefficientsOf degree left ++ (coefficientsOf degree right).map (- ·)).foldl (· + ·)
    (.zero false)

theorem coefficientsOf_append (degree : Degree) (ts us : List Term) :
    coefficientsOf degree (ts ++ us) = coefficientsOf degree ts ++ coefficientsOf degree us := by
  simp only [coefficientsOf, List.filter_append, List.map_append]

/-- The right side keeps its degrees. -/
theorem coefficientsOf_opposite (degree : Degree) (ts : List Term) :
    coefficientsOf degree (ts.map Term.opposite) = (coefficientsOf degree ts).map (- ·) := by
  simp only [coefficientsOf, List.filter_map, List.map_map]
  rfl

namespace Coefficients

/-- The coefficient of a degree. -/
def ofDegree (k : Coefficients) : Degree → Binary64
  | .square => k.a
  | .linear => k.b
  | .constant => k.c

/-- One more term counts for its own class only. -/
theorem ofDegree_add (k : Coefficients) (t : Term) (degree : Degree) :
    (k.add t).ofDegree degree =
      if t.degree = degree then k.ofDegree degree + t.coefficient else k.ofDegree degree := by
  unfold add
  cases t.degree <;> cases degree <;> rfl

theorem ofDegree_foldl_add (ts : List Term) (k : Coefficients) (degree : Degree) :
    (ts.foldl add k).ofDegree degree =
      (coefficientsOf degree ts).foldl (· + ·) (k.ofDegree degree) := by
  induction ts generalizing k with
  | nil => rfl
  | cons t ts ih =>
    rw [List.foldl_cons, ih, ofDegree_add]
    by_cases h : t.degree = degree
    · simp [coefficientsOf, h]
    · simp [coefficientsOf, h]

theorem ofDegree_ofSides (left right : List Term) (degree : Degree) :
    (ofSides left right).ofDegree degree = classSum degree left right := by
  rw [ofSides, ofDegree_foldl_add, coefficientsOf_append, coefficientsOf_opposite, classSum]
  cases degree <;> rfl

/-- **Each coefficient is the sum of its own class.** -/
theorem ofSides_eq (left right : List Term) :
    ofSides left right = ⟨classSum .square left right, classSum .linear left right,
      classSum .constant left right⟩ := by
  simp only [← ofDegree_ofSides]
  rfl

theorem isFinite_iff (k : Coefficients) :
    k.isFinite = true ↔ ∀ d, (k.ofDegree d).isFinite = true := by
  unfold isFinite
  rw [Bool.and_eq_true, Bool.and_eq_true]
  constructor
  · rintro ⟨⟨ha, hb⟩, hc⟩ d
    cases d
    · exact hc
    · exact hb
    · exact ha
  · intro h
    exact ⟨⟨h .square, h .linear⟩, h .constant⟩

end Coefficients

end QuadraticSolver
