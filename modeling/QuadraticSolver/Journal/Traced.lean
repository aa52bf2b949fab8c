import QuadraticSolver.Equation.Error
import QuadraticSolver.Journal.Record

/-!
# Computations that keep a journal

A traced computation has an outcome and the records written on the way to it,
oldest first. The pipeline is written once in this form, so what is recorded
cannot drift from what is done; who does not want the journal takes the
outcome. A failure stops the computation, and nothing is recorded after it.
-/

namespace QuadraticSolver

/-- An outcome and the records that led to it. -/
structure Traced (α : Type) where
  records : List Record
  outcome : Except EquationError α

namespace Traced

/-- Nothing happens. -/
def done {α : Type} (a : α) : Traced α :=
  ⟨[], .ok a⟩

/-- The computation fails here. -/
def fail {α : Type} (e : EquationError) : Traced α :=
  ⟨[], .error e⟩

/-- One record is written. -/
def write (r : Record) : Traced Unit :=
  ⟨[r], .ok ()⟩

/-- An outcome that writes nothing. -/
def ofExcept {α : Type} (outcome : Except EquationError α) : Traced α :=
  ⟨[], outcome⟩

/-- The second computation follows the first, unless the first has failed. -/
def andThen {α β : Type} (x : Traced α) (f : α → Traced β) : Traced β :=
  match x.outcome with
  | .ok a => ⟨x.records ++ (f a).records, (f a).outcome⟩
  | .error e => ⟨x.records, .error e⟩

instance : Monad Traced where
  pure := done
  bind := andThen

/-! ## Reading off the outcome and the records -/

@[simp]
theorem outcome_pure {α : Type} (a : α) : (pure a : Traced α).outcome = .ok a := rfl

@[simp]
theorem records_pure {α : Type} (a : α) : (pure a : Traced α).records = [] := rfl

@[simp]
theorem outcome_fail {α : Type} (e : EquationError) : (fail e : Traced α).outcome = .error e := rfl

@[simp]
theorem records_fail {α : Type} (e : EquationError) : (fail e : Traced α).records = [] := rfl

@[simp]
theorem outcome_write (r : Record) : (write r).outcome = .ok () := rfl

@[simp]
theorem records_write (r : Record) : (write r).records = [r] := rfl

@[simp]
theorem outcome_ofExcept {α : Type} (x : Except EquationError α) : (ofExcept x).outcome = x := rfl

@[simp]
theorem records_ofExcept {α : Type} (x : Except EquationError α) : (ofExcept x).records = [] := rfl

/-- The outcome of a sequence is the sequence of the outcomes: the journal changes nothing. -/
@[simp]
theorem outcome_bind {α β : Type} (x : Traced α) (f : α → Traced β) :
    (x >>= f).outcome = x.outcome.bind fun a => (f a).outcome := by
  show (andThen x f).outcome = _
  unfold andThen
  cases x.outcome <;> rfl

/-- The second computation's records follow, if it is reached. -/
theorem records_bind {α β : Type} (x : Traced α) (f : α → Traced β) :
    (x >>= f).records = x.records ++
      match x.outcome with
      | .ok a => (f a).records
      | .error _ => [] := by
  show (andThen x f).records = _
  unfold andThen
  cases x.outcome <;> simp

end Traced

end QuadraticSolver
