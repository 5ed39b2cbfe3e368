import GrammarShapes.Grammar.Basic
import GrammarShapes.Log.Event

set_option autoImplicit false

/-! # Operations that leave records

An operation on a grammar has an outcome and leaves records. A sequence of operations stops at the first
error and keeps the records up to it. `outcome_bind` says that the outcome does not depend on the records.
-/

namespace GrammarShapes

/-- The outcome of an operation and the records that it left, in order. -/
structure Logged (α : Type) where
  outcome : Except SchemaError α
  events : List Event

namespace Logged

variable {α β : Type}

/-- Goes on with the result, if there is one. -/
def andThen (x : Logged α) (f : α → Logged β) : Logged β :=
  match x.outcome with
  | .error e => ⟨.error e, x.events⟩
  | .ok a => ⟨(f a).outcome, x.events ++ (f a).events⟩

instance : Monad Logged where
  pure a := ⟨.ok a, []⟩
  bind := andThen

def fail (e : SchemaError) : Logged α :=
  ⟨.error e, []⟩

def record (event : Event) : Logged Unit :=
  ⟨.ok (), [event]⟩

theorem outcome_bind (x : Logged α) (f : α → Logged β) :
    (x >>= f).outcome = x.outcome.bind fun a => (f a).outcome := by
  obtain ⟨outcome, events⟩ := x
  cases outcome <;> rfl

theorem outcome_pure (a : α) : (pure a : Logged α).outcome = .ok a :=
  rfl

theorem outcome_bind_eq_ok_iff {x : Logged α} {f : α → Logged β} {b : β} :
    (x >>= f).outcome = .ok b ↔ ∃ a, x.outcome = .ok a ∧ (f a).outcome = .ok b := by
  rw [outcome_bind]
  cases x.outcome <;> simp [Except.bind]

theorem outcome_bind_eq_error_iff {x : Logged α} {f : α → Logged β} {e : SchemaError} :
    (x >>= f).outcome = .error e ↔
      x.outcome = .error e ∨ ∃ a, x.outcome = .ok a ∧ (f a).outcome = .error e := by
  rw [outcome_bind]
  cases x.outcome <;> simp [Except.bind]

end Logged

end GrammarShapes
