import Mixfix.Position

/-!
# Diagnostics

A remark about the user's declarations, with its severity and, where known, its place.
-/

namespace Mixfix

/-- How serious a diagnostic is, the most serious first. -/
inductive Severity where
  | error
  | warning
  | hint
  | info
deriving DecidableEq, Inhabited

namespace Severity

/-- The place of a severity in the order, the most serious first. -/
def rank : Severity → Nat
  | error => 0
  | warning => 1
  | hint => 2
  | info => 3

instance : LE Severity := ⟨fun a b => a.rank ≤ b.rank⟩

instance : DecidableLE Severity := fun a b => inferInstanceAs (Decidable (a.rank ≤ b.rank))

/-- The word for a severity. -/
def render : Severity → String
  | error => "error"
  | warning => "warning"
  | hint => "hint"
  | info => "info"

end Severity

/-- A remark about a declaration. -/
structure Diagnostic where
  span : Option Span
  severity : Severity
  message : String
deriving DecidableEq

namespace Diagnostic

/-- A remark that an entry cannot be used. -/
def error (span : Option Span) (message : String) : Diagnostic := ⟨span, .error, message⟩

/-- A remark that an entry may not mean what was meant. -/
def warning (span : Option Span) (message : String) : Diagnostic := ⟨span, .warning, message⟩

/-- The severity, the place if there is one, and the message. -/
def render (d : Diagnostic) : String :=
  match d.span with
  | some span => s!"{d.severity.render} at {span.render}: {d.message}"
  | none => s!"{d.severity.render}: {d.message}"

end Diagnostic

end Mixfix
