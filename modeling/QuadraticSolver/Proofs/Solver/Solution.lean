import QuadraticSolver.Proofs.Binary64.Signs
import QuadraticSolver.Solver.Roots

/-!
# What the check of a solution does

A solution that passes is the candidate with its values finite and the sign of
a zero removed (`Settled`), so exact values are what they were. A candidate whose
values pass is accepted.
-/

namespace QuadraticSolver

/-- The real numbers of an answer. -/
def Solution.roots : Solution → List Binary64
  | .single x => [x]
  | .pair x₁ x₂ => [x₁, x₂]
  | _ => []

/-- The second value is the first one settled. -/
structure Binary64.SettlesTo (x y : Binary64) : Prop where
  finite : x.isFinite = true
  result : y = if x.isZero then .zero false else x

/-- The second solution is the first one settled, value by value. -/
inductive Solution.Settled : Solution → Solution → Prop
  | everyNumber : Settled .everyNumber .everyNumber
  | noNumber : Settled .noNumber .noNumber
  | single {x y : Binary64} (h : x.SettlesTo y) : Settled (.single x) (.single y)
  | pair {x₁ x₂ y₁ y₂ : Binary64} (h₁ : x₁.SettlesTo y₁) (h₂ : x₂.SettlesTo y₂) :
      Settled (.pair x₁ x₂) (.pair y₁ y₂)
  | conjugates {re im re' im' : Binary64} (hre : re.SettlesTo re') (him : im.SettlesTo im') :
      Settled (.conjugates re im) (.conjugates re' im')

section Settle

variable {x y : Binary64} {candidate solution : Solution}

theorem Binary64.settle_eq_ok (h : x.isFinite = true) : x.settle = .ok x.unsignZero :=
  if_pos h

theorem Binary64.settle_eq_error (h : x.isFinite = false) : x.settle = .error x :=
  if_neg (by rw [h]; decide)

theorem Binary64.settlesTo_of_settle (h : x.settle = .ok y) : x.SettlesTo y := by
  unfold settle at h
  split at h
  next hfinite => exact ⟨hfinite, (Except.ok.inj h).symm⟩
  next => cases h

theorem Binary64.SettlesTo.isFinite (h : x.SettlesTo y) : y.isFinite = true := by
  rw [h.result]
  split
  · rfl
  · exact h.finite

/-- Settling moves no value. -/
theorem Binary64.SettlesTo.toRat_eq (h : x.SettlesTo y) : y.toRat = x.toRat := by
  rw [h.result]
  split
  next hzero =>
    rw [toRat_of_isZero hzero]
    exact toRat_of_isZero (by decide)
  next => rfl

/-- A sequence that succeeds has a first step that does. -/
theorem exists_of_bind_eq_ok {ε α β : Type} {x : Except ε α} {f : α → Except ε β} {b : β}
    (h : (x >>= f) = .ok b) : ∃ a, x = .ok a ∧ f a = .ok b := by
  cases x with
  | error e => cases h
  | ok a => exact ⟨a, rfl, h⟩

theorem Solution.settled_of_settle (h : candidate.settle = .ok solution) :
    candidate.Settled solution := by
  cases candidate with
  | everyNumber =>
    cases h
    exact .everyNumber
  | noNumber =>
    cases h
    exact .noNumber
  | single x =>
    obtain ⟨y, hy, h⟩ := exists_of_bind_eq_ok h
    cases h
    exact .single (Binary64.settlesTo_of_settle hy)
  | pair x₁ x₂ =>
    obtain ⟨y₁, hy₁, h⟩ := exists_of_bind_eq_ok h
    obtain ⟨y₂, hy₂, h⟩ := exists_of_bind_eq_ok h
    cases h
    exact .pair (Binary64.settlesTo_of_settle hy₁) (Binary64.settlesTo_of_settle hy₂)
  | conjugates re im =>
    obtain ⟨re', hre, h⟩ := exists_of_bind_eq_ok h
    obtain ⟨im', him, h⟩ := exists_of_bind_eq_ok h
    cases h
    exact .conjugates (Binary64.settlesTo_of_settle hre) (Binary64.settlesTo_of_settle him)

/-- **An answer is its candidate, settled.** -/
theorem Solution.settled_of_accept (h : candidate.accept = .ok solution) :
    candidate.Settled solution := by
  unfold accept at h
  cases hsettle : candidate.settle with
  | error value =>
    rw [hsettle] at h
    cases h
  | ok s =>
    rw [hsettle] at h
    cases h
    exact settled_of_settle hsettle

end Settle

section Accept

variable {x y x₁ x₂ y₁ y₂ : Binary64}

theorem Solution.accept_single (h : x.settle = .ok y) :
    (Solution.single x).accept = .ok (.single y) := by
  unfold accept settle
  dsimp only
  rw [h]
  rfl

theorem Solution.accept_pair (h₁ : x₁.settle = .ok y₁) (h₂ : x₂.settle = .ok y₂) :
    (Solution.pair x₁ x₂).accept = .ok (.pair y₁ y₂) := by
  unfold accept settle
  dsimp only
  rw [h₁, h₂]
  rfl

theorem Solution.accept_conjugates (h₁ : x₁.settle = .ok y₁) (h₂ : x₂.settle = .ok y₂) :
    (Solution.conjugates x₁ x₂).accept = .ok (.conjugates y₁ y₂) := by
  unfold accept settle
  dsimp only
  rw [h₁, h₂]
  rfl

end Accept

end QuadraticSolver
