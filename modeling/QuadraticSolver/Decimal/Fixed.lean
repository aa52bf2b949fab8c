import QuadraticSolver.Binary64.Basic
import QuadraticSolver.Decimal.Basic
import QuadraticSolver.Exact.HalfEven

/-!
# Numerals with a bounded number of places

`Binary64.fixed places x` is the multiple of `10 ^ -places` nearest to the
exact value of `x`, a tie going to the even multiple, written with no more
places than it needs. The exact binary value is rounded, not its shortest
decimal text.

A number is written with at most 65535 places: their count is kept in 16 bits,
and to ask for more stops the program. `Places` is a count within this limit.
-/

namespace QuadraticSolver

/-- A number of places that a number can be written with. -/
structure Places where
  toNat : Nat
  fits : toNat ≤ 65535
  deriving DecidableEq

namespace Places

/-- So many places, if a number can be written with them. -/
def ofNat? (n : Nat) : Option Places :=
  if h : n ≤ 65535 then some ⟨n, h⟩ else none

theorem ofNat?_of_le {n : Nat} (h : n ≤ 65535) : ofNat? n = some ⟨n, h⟩ :=
  dif_pos h

theorem ofNat?_of_lt {n : Nat} (h : 65535 < n) : ofNat? n = none :=
  dif_neg (Nat.not_le_of_lt h)

end Places

/-- The number of units of the last of so many places, to the nearest. -/
def Magnitude.inPlaces (places : Nat) (m : Magnitude) : Nat :=
  halfEven (m.units * Nat.pow 10 places) unitsPerOne

/-- The nearest numeral of at most so many places; zero has no sign. -/
def Magnitude.fixed (places : Nat) (negative : Bool) (m : Magnitude) : Decimal :=
  Decimal.trimmed ⟨negative, m.inPlaces places, places⟩

/-- Writes a finite number by `numeral`, and what is not finite by its name. -/
def Binary64.charactersBy (numeral : Bool → Magnitude → Decimal) : Binary64 → List Char
  | .nan => ['N', 'a', 'N']
  | .infinity negative => if negative then ['-', 'i', 'n', 'f'] else ['i', 'n', 'f']
  | .finite negative m => (numeral negative m).characters

/-- The text of a number, rounded to so many places, zeros at the end left out. -/
def Binary64.fixedText (places : Places) (x : Binary64) : String :=
  String.ofList (x.charactersBy (Magnitude.fixed places.toNat))

end QuadraticSolver
