import Mixfix.Parser
import Mixfix.Table

/-!
# The executor

Runs a parse table over a window. Every terminal has a parser of its own, so a token is whatever
that parser takes. The plan of the current state is walked down to a move; reads along the way fill
a buffer of tokens ahead, which later shifts take from.

A step is a function of the machine; a run makes steps up to a limit.
-/

namespace Mixfix

/-- What a run does when it cannot go on. -/
structure ExecutorConfig where
  /-- Give a tree with this tag over what was taken, instead of failing. -/
  invalid : Option String := none
  /-- Follow the best guess of an unresolved conflict, instead of failing. -/
  resolve : Bool := false

/-- Binds something to every terminal of a table by name: the symbols of the terminal, or `$` for
the end of input, which has a default. A later binding of a terminal replaces an earlier one. -/
def Table.bind {α : Type} (t : Table) (atEnd : α) (named : List (String × α)) :
    Except Failure (List (Handle × α)) := do
  let r := t.grammar.registry
  let bound ← named.foldlM (fun bound (name, a) => do
    let handle ← if name = "$" then pure Handle.endOfInput else
      match r.find? (symbolsOfName name) with
      | some handle => pure handle
      | none => throw (.problem (.unknownSymbol name))
    if handle.isTerminal then return (handle, a) :: bound
    else throw (.problem (.notATerminal name))) [(Handle.endOfInput, atEnd)]
  match t.grammar.terminals.find? fun terminal => (bound.lookup terminal).isNone with
  | some missing => throw (.problem (.missingTerminalParser (← r.name missing)))
  | none => return bound

/-- A table with the parsers of its terminals. -/
structure Executor (σ : Type) where
  table : Table
  terminals : List (Handle × Parser σ)
  config : ExecutorConfig

namespace Executor

variable {σ : Type}

/-- Binds the parsers of the terminals. The end of input is the end of the window, unless named. -/
def bind (table : Table) (named : List (String × Parser σ)) (config : ExecutorConfig) :
    Except Failure (Executor σ) := do
  return ⟨table, ← table.bind Parser.endOfWindow named, config⟩

/-- A token read ahead of its shift. -/
structure Ahead (σ : Type) where
  terminal : Handle
  parsed : Parsed σ

/-- The state of a run. Both stacks have their top first. -/
structure Machine (σ : Type) where
  user : σ
  position : Position
  states : List Nat
  nodes : List Node
  /-- The tokens read ahead, the next one first. -/
  buffer : List (Ahead σ)

/-- The machine at the start of a run. -/
def start (s : σ) (p : Position) : Machine σ := ⟨s, p, [0], [], []⟩

/-- A move that a plan decides on. -/
inductive Move where
  | shift (target : Nat) (terminal : Handle) (munch : Nat)
  | reduce (rule : Nat)
  | accept

/-- How a step ends: with a machine to go on with, or with an answer. -/
inductive Outcome (σ : Type) where
  | running (machine : Machine σ)
  | finished (answer : Option (Parsed σ))

/-- The parser of a terminal. -/
def parserOf (e : Executor σ) (t : Handle) : Except Fault (Parser σ) :=
  match e.terminals.lookup t with
  | some parser => .ok parser
  | none => do throw (.unboundTerminal (← e.table.grammar.registry.name t))

/-- Tries terminals at one place. Gives up when a second one matches. -/
def scan (e : Executor σ) (s : σ) (w : Window) (p : Position) :
    List Handle → Option (Ahead σ) → Traced Fault (Option (Ahead σ))
  | [], found => return found
  | t :: terminals, found => do
    let parser ← e.parserOf t
    match ← parser s w p with
    | none => scan e s w p terminals found
    | some parsed =>
      match found with
      | none => scan e s w p terminals (some ⟨t, parsed⟩)
      | some other =>
        Traced.emit (.clash other.terminal t p)
        return none

/-- The terminal at a depth of the buffer, read now if it is not there, and the buffer after
that. -/
def read (e : Executor σ) (w : Window) (m : Machine σ) (terminals : List Handle) (depth : Nat)
    (buffer : List (Ahead σ)) : Traced Fault (Option (Handle × List (Ahead σ))) :=
  match buffer[depth]? with
  | some token => return some (token.terminal, buffer)
  | none => do
    let (s, p) := match buffer.getLast? with
      | some last => (last.parsed.state, last.parsed.stop)
      | none => (m.user, m.position)
    match ← e.scan s w p terminals none with
    | none => return none
    | some token =>
      Traced.emit (.read token.terminal p)
      return some (token.terminal, buffer ++ [token])

mutual

/-- The move that a plan comes to, and the buffer after its reads; none if a read fails or a
conflict stays. -/
def walk (e : Executor σ) (w : Window) (m : Machine σ) :
    Plan → Nat → List (Ahead σ) → Traced Fault (Option (Move × List (Ahead σ)))
  | .shift target terminal munch, _, buffer => return some (.shift target terminal munch, buffer)
  | .reduce rule, _, buffer => return some (.reduce rule, buffer)
  | .accept, _, buffer => return some (.accept, buffer)
  | .error none, _, _ => return none
  | .error (some guess), depth, buffer =>
    if e.config.resolve then walk e w m guess depth buffer else return none
  | .read branches, depth, buffer => do
    match ← e.read w m (branches.flatMap (·.1)) depth buffer with
    | none => return none
    | some (terminal, buffer) => walkBranch e w m branches terminal (depth + 1) buffer

/-- Walks the branch whose class has the terminal. -/
def walkBranch (e : Executor σ) (w : Window) (m : Machine σ) :
    List (List Handle × Plan) → Handle → Nat → List (Ahead σ) →
      Traced Fault (Option (Move × List (Ahead σ)))
  | [], _, _, _ => return none
  | (cls, plan) :: branches, terminal, depth, buffer =>
    if cls.contains terminal then walk e w m plan depth buffer
    else walkBranch e w m branches terminal depth buffer

end

/-- The answer of a run that cannot go on. -/
def giveUp (e : Executor σ) (w : Window) (origin : Position) (m : Machine σ) :
    Traced Fault (Outcome σ) :=
  match e.config.invalid with
  | none => return .finished none
  | some tag => do
    Traced.emit (.recovered m.position)
    let node := Node.make (.tagged tag) (w.spanBetween origin m.position) m.nodes.reverse
    return .finished (some ⟨m.user, node, m.position⟩)

/-- Where the token of a shift comes from. -/
inductive Supply (σ : Type) where
  /-- There is none: the terminal is empty here. -/
  | empty
  /-- The next token of the buffer. -/
  | buffered (parsed : Parsed σ) (others : List (Ahead σ))
  /-- The window. -/
  | unread
  /-- The next token of the buffer is another terminal. -/
  | other

/-- The source of the token for a shift over a terminal. -/
def supply (e : Executor σ) (terminal : Handle) (munch : Nat) (buffer : List (Ahead σ)) :
    Supply σ :=
  if munch = 0 then .empty
  else
    match buffer with
    | [] => .unread
    | token :: others =>
      let nonEmpty := e.table.grammar.registry.nonEmptyOf terminal
      if token.terminal = terminal ∨ nonEmpty = some token.terminal then
        .buffered token.parsed others
      else if nonEmpty.isSome then .empty
      else .other

/-- Shifts a token: its node and the target go on the stacks. -/
def push (m : Machine σ) (parsed : Parsed σ) (buffer : List (Ahead σ)) (target : Nat) :
    Machine σ :=
  ⟨parsed.state, parsed.stop, target :: m.states, parsed.node :: m.nodes, buffer⟩

/-- Shifts over a terminal. -/
def shift (e : Executor σ) (w : Window) (origin : Position) (m : Machine σ)
    (current target : Nat) (terminal : Handle) (munch : Nat) : Traced Fault (Outcome σ) :=
  match e.supply terminal munch m.buffer with
  | .other => e.giveUp w origin m
  | .empty => do
    Traced.emit (.shift current target munch)
    return .running (push m (Parser.nothing m.user w m.position) m.buffer target)
  | .buffered parsed others => do
    Traced.emit (.shift current target munch)
    return .running (push m parsed others target)
  | .unread => do
    let parser ← e.parserOf terminal
    match ← parser m.user w m.position with
    | none => e.giveUp w origin m
    | some parsed =>
      Traced.emit (.shift current target munch)
      return .running (push m parsed [] target)

/-- The span of the children of a reduction, or the empty span at a position. -/
def childrenSpan (children : List Node) (p : Position) : Span :=
  match children.head?, children.getLast? with
  | some first, some last => ⟨first.span.start, last.span.stop⟩
  | _, _ => .point p

/-- Reduces by a rule: the nodes of its right-hand side become one. -/
def reduce (e : Executor σ) (w : Window) (m : Machine σ) (current id : Nat) :
    Traced Fault (Outcome σ) :=
  let g := e.table.grammar
  match g.rules[id]? with
  | none => throw .missingRule
  | some rule => do
    let n := rule.rhs.length
    if m.nodes.length < n ∨ m.states.length ≤ n then throw (.shortStack id)
    let children := (m.nodes.take n).reverse
    match m.states.drop n with
    | [] => throw .emptyStack
    | below :: states =>
      match e.table.goto? below rule.lhs with
      | none => throw (.missingGoto below (← g.registry.name rule.lhs))
      | some target =>
        Traced.emit (.reduce current id target)
        let kind ← g.kind rule.lhs
        let node := Node.make kind (childrenSpan children (w.absolute m.position)) children
        return .running { m with
          states := target :: below :: states
          nodes := node :: m.nodes.drop n }

/-- Accepts the input, if its end is here. -/
def accept (e : Executor σ) (w : Window) (origin : Position) (m : Machine σ) (current : Nat) :
    Traced Fault (Outcome σ) := do
  let ending ← match m.buffer with
    | token :: _ =>
      pure (if token.terminal = Handle.endOfInput then some token.parsed else none)
    | [] => do
      let parser ← e.parserOf .endOfInput
      parser m.user w m.position
  match ending with
  | none => e.giveUp w origin m
  | some parsed =>
    match m.nodes with
    | [root] =>
      Traced.emit (.accept current)
      return .finished (some ⟨parsed.state, root, parsed.stop⟩)
    | _ => throw .malformedStack

/-- One move of the machine. -/
def step (e : Executor σ) (w : Window) (origin : Position) (m : Machine σ) :
    Traced Fault (Outcome σ) :=
  match m.states with
  | [] => throw .emptyStack
  | current :: _ =>
    match e.table.plan? current with
    | none => throw .missingState
    | some plan => do
      match ← e.walk w m plan 0 m.buffer with
      | none => e.giveUp w origin m
      | some (move, buffer) =>
        let m := { m with buffer }
        match move with
        | .shift target terminal munch => e.shift w origin m current target terminal munch
        | .reduce rule => e.reduce w m current rule
        | .accept => e.accept w origin m current

/-- Moves until there is an answer, at most `limit` times. -/
def run (e : Executor σ) (w : Window) (origin : Position) :
    (limit : Nat) → Machine σ → Traced Fault (Option (Parsed σ))
  | 0, _ => throw .exhausted
  | limit + 1, m => do
    match ← e.step w origin m with
    | .finished answer => return answer
    | .running m => run e w origin limit m

/-- The executor as a parser that makes at most `limit` moves. -/
def parser (e : Executor σ) (limit : Nat) : Parser σ := fun s w p =>
  e.run w p limit (start s p)

end Executor

end Mixfix
