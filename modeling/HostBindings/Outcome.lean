import HostBindings.Failure
import HostBindings.Warning

/-!
Outcomes: a result or the reason why there is none, beside the warnings given on the way.
-/

namespace HostBindings

/-- A result with the warnings that came before it. Warnings stay when the work ends early. -/
structure Outcome (α : Type) where
  warnings : List Warning
  result : Except Halt α

namespace Outcome

variable {α β : Type}

/-- A result without warnings. -/
def done (a : α) : Outcome α := ⟨[], .ok a⟩

/-- Goes on with a result, if there is one. -/
def andThen (x : Outcome α) (f : α → Outcome β) : Outcome β :=
  match x.result with
  | .ok a => ⟨x.warnings ++ (f a).warnings, (f a).result⟩
  | .error e => ⟨x.warnings, .error e⟩

instance : Monad Outcome where
  pure := done
  bind := andThen

/-- Gives a warning. -/
def warn (concern : Concern) (loc : Option Location) : Outcome Unit := ⟨[⟨concern, loc⟩], .ok ()⟩

/-- Ends the work with a failure. -/
def fail (cause : Cause) (loc : Option Location) : Outcome α :=
  ⟨[], .error (.failure (Failure.ofCause cause loc))⟩

/-- Ends the work with a fault. -/
def breakOff (fault : Fault) : Outcome α := ⟨[], .error (.fault fault)⟩

/-- Adds to a failure what is known about where it arose. -/
def within (declaration member : Option Text) (loc : Option Location) (x : Outcome α) :
    Outcome α :=
  { x with
    result := x.result.mapError
      (Halt.within declaration member (loc.map fun l => Span.ofLocation (some l))) }

@[simp] theorem result_pure (a : α) : (pure a : Outcome α).result = .ok a := rfl

@[simp] theorem warnings_pure (a : α) : (pure a : Outcome α).warnings = [] := rfl

theorem bind_eq (x : Outcome α) (f : α → Outcome β) : (x >>= f) = x.andThen f := rfl

theorem result_bind_eq_ok_iff (x : Outcome α) (f : α → Outcome β) (b : β) :
    (x >>= f).result = .ok b ↔ ∃ a, x.result = .ok a ∧ (f a).result = .ok b := by
  rw [bind_eq, andThen]
  cases h : x.result <;> simp

end Outcome

end HostBindings
