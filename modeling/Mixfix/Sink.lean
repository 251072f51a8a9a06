import Mixfix.Traced

/-!
# Sinks of diagnostics

A sink keeps diagnostics in the order of their reports until they are drained. One that announces
also makes every report an event.
-/

namespace Mixfix

/-- The diagnostics reported so far. -/
structure Sink where
  entries : List Diagnostic := []
  /-- Every report is an event. -/
  announces : Bool := true

namespace Sink

/-- Adds a diagnostic. -/
def report (sink : Sink) (d : Diagnostic) {ε : Type} : Traced ε Sink := do
  if sink.announces then Traced.emit (.reported d)
  return { sink with entries := sink.entries ++ [d] }

/-- Takes everything out. -/
def drain (sink : Sink) : List Diagnostic × Sink := (sink.entries, { sink with entries := [] })

/-- Some diagnostic is an error. -/
def hasErrors (sink : Sink) : Bool := sink.entries.any (·.severity == .error)

end Sink

end Mixfix
