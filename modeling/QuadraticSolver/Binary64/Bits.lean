import QuadraticSolver.Binary64.Basic

/-!
# Bit patterns

A word of 64 bits is a sign bit, eleven bits of exponent and 52 bits of
fraction. The exponent field zero holds the numbers without the leading bit,
the field 2047 the infinities and "not a number", and every other field the
numbers whose leading bit is implied.
-/

namespace QuadraticSolver.Binary64

/-- The number that a word stands for; all patterns of "not a number" are one value. -/
def ofBits (word : UInt64) : Binary64 :=
  let bits := word.toNat
  let negative := decide (9223372036854775808 ≤ bits)
  let exponent := bits / 4503599627370496 % 2048
  let fraction := bits % 4503599627370496
  have fraction_lt : fraction < 4503599627370496 := Nat.mod_lt _ (by decide)
  if special : exponent = 2047 then
    if fraction = 0 then infinity negative else nan
  else if exponent = 0 then
    finite negative ⟨fraction, 0, by omega, by omega, Or.inl rfl⟩
  else
    have exponent_lt : exponent < 2048 := Nat.mod_lt _ (by decide)
    finite negative
      ⟨4503599627370496 + fraction, exponent - 1, by omega, by omega, Or.inr (by omega)⟩

/-- The word of a number, with one quiet pattern for "not a number". -/
def toBits : Binary64 → UInt64
  | nan => 0x7ff8000000000000
  | infinity negative =>
    UInt64.ofNat ((if negative then 9223372036854775808 else 0) + 2047 * 4503599627370496)
  | finite negative m =>
    let field := if m.mantissa < 4503599627370496 then 0 else m.shift + 1
    UInt64.ofNat ((if negative then 9223372036854775808 else 0) + field * 4503599627370496 +
      m.mantissa % 4503599627370496)

end QuadraticSolver.Binary64
