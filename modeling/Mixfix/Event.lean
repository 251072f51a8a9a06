import Mixfix.Diagnostic
import Mixfix.Handle

/-!
# Events

What the engine reports of its own progress: the constructions it finished and the moves of its
runs.
-/

namespace Mixfix

/-- One step of the engine worth reporting. -/
inductive Event where
  /-- An expression grammar became plain rules. -/
  | lowered (rules : Nat)
  /-- The canonical collection is complete. -/
  | collected (states : Nat)
  /-- Every state has its plan. -/
  | planned (states errors : Nat)
  /-- The parse table is complete. -/
  | tabulated (states conflicts : Nat)
  /-- A declared syntax became a parser. -/
  | assembled (declarations states conflicts : Nat)
  /-- A diagnostic went to a sink. -/
  | reported (diagnostic : Diagnostic)
  /-- An edge was refused because it closes a cycle. -/
  | cycleRefused
  /-- Two terminals match at one place. -/
  | clash (first second : Handle) (position : Position)
  /-- A token was read ahead. -/
  | read (terminal : Handle) (position : Position)
  /-- A failing run gives an invalid tree. -/
  | recovered (position : Position)
  | shift (state target munch : Nat)
  | reduce (state rule goto : Nat)
  | accept (state : Nat)
deriving DecidableEq

/-- An event as a line of text: its level, what happened, and its data. -/
def Event.render : Event → String
  | .lowered rules => s!"DEBUG desugared expression grammar rules={rules}"
  | .collected states => s!"DEBUG built canonical LR(1) collection states={states}"
  | .planned states errors => s!"DEBUG compiled action plans states={states} errors={errors}"
  | .tabulated states conflicts => s!"DEBUG built LR table states={states} conflicts={conflicts}"
  | .assembled declarations states conflicts =>
    s!"DEBUG assembled custom syntax declarations={declarations} states={states} " ++
      s!"conflicts={conflicts}"
  | .reported diagnostic => s!"DEBUG diagnostic reported diagnostic={diagnostic.render}"
  | .cycleRefused => "DEBUG rejected an edge closing a cycle"
  | .clash first second position =>
    s!"TRACE two terminals match, giving up first={first.render} second={second.render} " ++
      s!"at={position.render}"
  | .read terminal position => s!"TRACE read terminal={terminal.render} at={position.render}"
  | .recovered position => s!"TRACE recovering as an invalid tree at={position.render}"
  | .shift state target munch => s!"TRACE shift state={state} target={target} munch={munch}"
  | .reduce state rule goto => s!"TRACE reduce state={state} rule={rule} goto={goto}"
  | .accept state => s!"TRACE accept state={state}"

end Mixfix
