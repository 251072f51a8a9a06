import Mixfix.Catalogue
import Mixfix.Executor
import Mixfix.Grammar.Lowering
import Mixfix.LevelGraph
import Mixfix.Sink
import Mixfix.Terminal

/-!
# Assembling a parser from declared syntax

Every usable declaration is a form of its category. A category has a nonterminal for its own forms
and, where some slot asks for a term that binds tighter, one for the forms of all categories above
it. Variables and terms in parentheses stand wherever a term may.

Faulty entries are reported and left out. States that the plans cannot decide are reported as
warnings, blamed on the categories whose rules are active in them.
-/

namespace Mixfix

/-- Where the rules of an undecided state come from. -/
inductive Origin where
  | category (name : String)
  | unknown
deriving DecidableEq

namespace Origin

/-- Categories by name, then the unknown origin. -/
instance : LT Origin :=
  ⟨fun
    | .category a, .category b => a < b
    | .category _, .unknown => True
    | .unknown, _ => False⟩

instance : DecidableLT Origin := fun a b =>
  match a, b with
  | .category a, .category b => inferInstanceAs (Decidable (a < b))
  | .category _, .unknown => .isTrue trivial
  | .unknown, .category _ | .unknown, .unknown => .isFalse id

/-- How a warning names an origin. -/
def render : Origin → String
  | category name => s!"category {name}"
  | unknown => "unknown source"

end Origin

/-- Undecided states, blamed on one origin. -/
structure Blame where
  origin : Origin
  states : List Nat

/-- A parser for declared syntax, with what its construction found. -/
structure Assembled where
  table : Table
  terminals : List (Handle × Terminal)
  /-- Every literal, parentheses included. -/
  literals : List String
  config : ExecutorConfig
  /-- The accepted priorities, from the lower category to the higher. -/
  priorities : LevelGraph String
  conflicts : List Blame

/-- The executor of an assembled parser. -/
def Assembled.executor (a : Assembled) {σ : Type} : Executor σ :=
  ⟨a.table, a.terminals.map fun (h, t) => (h, t.parser a.literals), a.config⟩

namespace Catalogue

/-! ### Accepting entries -/

/-- The categories without repetitions; a repetition is reported. -/
def acceptCategories (c : Catalogue) (sink : Sink) {ε : Type} :
    Traced ε (Sink × List (String × Option Span)) :=
  c.categories.foldlM (fun (sink, known) (name, span) => do
    if (known.lookup name).isSome then
      let sink ← sink.report (.error span s!"category {name} is already declared")
      return (sink, known)
    else
      return (sink, known ++ [(name, span)])) (sink, [])

/-- Adds a priority to the accepted ones, or reports why it cannot be. -/
def acceptPriority (known : List String) (sink : Sink) (graph : LevelGraph String) (p : Priority)
    {ε : Type} : Traced ε (Sink × LevelGraph String) := do
  match [p.lower, p.higher].find? fun name => !known.contains name with
  | some name => return (← sink.report (.error p.span s!"unknown category {name}"), graph)
  | none =>
    let (accepted, graph) ← graph.offerEdge p.lower p.higher
    if accepted then return (sink, graph)
    else
      let message := s!"priority {p.lower} < {p.higher} closes a cycle"
      return (← sink.report (.error p.span message), graph)

/-- The priorities that fit together, each accepted after those before it. -/
def acceptPriorities (c : Catalogue) (known : List String) (sink : Sink) {ε : Type} :
    Traced ε (Sink × LevelGraph String) :=
  let vertices := known.foldl (fun graph name => (graph.addVertex name).2) {}
  c.priorities.foldlM (fun (sink, graph) p => acceptPriority known sink graph p) (sink, vertices)

/-- The usable declarations with their numbers; the others are reported. -/
def acceptDeclarations (c : Catalogue) (known : List String) (sink : Sink) {ε : Type} :
    Traced ε (Sink × List (Nat × Declaration)) :=
  c.declarations.zipIdx.foldlM (fun (sink, usable) (d, i) => do
    match d.objection known with
    | some message => return (← sink.report (.error d.span message), usable)
    | none => return (sink, usable ++ [(i, d)])) (sink, [])

/-! ### The grammar -/

/-- The nonterminal of all terms. -/
def anyName : String := "Any"

/-- The nonterminal of terms in parentheses. -/
def parensName : String := "Parens"

/-- The nonterminal of a category's own forms. -/
def atomicName (category : String) : String := "Atomic:" ++ category

/-- The nonterminal of the terms that bind tighter than a category. -/
def greaterName (category : String) : String := "Greater:" ++ category

/-- The nonterminal of a form. -/
def formName (index : Nat) : String := s!"Form:{index}"

/-- A terminal as an expression. -/
def termExpr (t : Terminal) : Expr := .named t.key

/-- What every term position accepts besides forms. -/
def termAlternatives : List Expr := [termExpr .identifier, .nonTerminal parensName]

/-- A fragment as an expression. -/
def fragmentExpr : Fragment → Expr
  | .text text => termExpr (.literal text)
  | .space false => termExpr .blank
  | .space true => termExpr .optionalBlank
  | .bound _ => termExpr .identifier
  | .free none => .nonTerminal anyName
  | .free (some category) => .nonTerminal (greaterName category)

/-- The literal texts of declarations, ascending. -/
def literalsOf (ds : List (Nat × Declaration)) : List String :=
  Ascending.ofList (ds.flatMap fun (_, d) => d.fragments.filterMap Fragment.text?)

/-- The categories with a usable declaration, ascending. -/
def populated (ds : List (Nat × Declaration)) : List String :=
  Ascending.ofList (ds.map fun (_, d) => d.category)

/-- The categories that some slot asks to bind tighter than, ascending. -/
def tighter (ds : List (Nat × Declaration)) : List String :=
  Ascending.ofList (ds.flatMap fun (_, d) => d.fragments.filterMap fun
    | .free above => above
    | _ => none)

/-- The rules that every grammar has: terms without forms, and parentheses. -/
def baseRules : List (String × Expr) :=
  [(anyName, .alt termAlternatives),
    (parensName, .seq [termExpr (.literal "("), termExpr .optionalBlank, .nonTerminal anyName,
      termExpr .optionalBlank, termExpr (.literal ")")])]

/-- The rules of a form: its fragments, and its place in its category. -/
def formRules (d : Nat × Declaration) : List (String × Expr) :=
  [(formName d.1, .seq (d.2.fragments.map fragmentExpr)),
    (atomicName d.2.category, .nonTerminal (formName d.1))]

/-- An exact entry into a category without forms accepts plain terms. -/
def entryRules (entry : Entry) (ds : List (Nat × Declaration)) : List (String × Expr) :=
  match entry with
  | .any => []
  | .category name =>
    if (populated ds).contains name then [] else [(atomicName name, .alt termAlternatives)]

/-- The terms that bind tighter than a category: the forms of the categories above it that have
any, variables, and terms in parentheses. -/
def greaterRule (priorities : LevelGraph String) (ds : List (Nat × Declaration))
    (category : String) : String × Expr :=
  let above := Ascending.ofList (priorities.successors category)
  let forms := (above.filter (populated ds).contains).map fun name =>
    Expr.nonTerminal (atomicName name)
  (greaterName category, .alt (forms ++ termAlternatives))

/-- The expression grammar of usable declarations. -/
def grammarOf (entry : Entry) (start : String) (priorities : LevelGraph String)
    (ds : List (Nat × Declaration)) : ExprGrammar :=
  let anyRules := (populated ds).map fun name => (anyName, Expr.nonTerminal (atomicName name))
  let entries := entryRules entry ds
  let greater := (tighter ds).map (greaterRule priorities ds)
  { start
    rules := baseRules ++ ds.flatMap formRules ++ anyRules ++ entries ++ greater
    distinct := [(Terminal.distinctKeys (literalsOf ds)).map symbolsOfName]
    emptyPairs := [(symbolsOfName Terminal.optionalBlank.key, symbolsOfName Terminal.blank.key)]
    kinds :=
      [(anyName, .transparent), (parensName, .tagged "parens")] ++
        ds.map (fun (i, d) => (formName i, .tagged d.tag)) ++
        (populated ds).map (fun name => (atomicName name, .transparent)) ++
        entries.map (fun (name, _) => (name, .transparent)) ++
        greater.map fun (name, _) => (name, .transparent) }

/-- The start symbol of an entry: its category must be known. -/
def startOf (known : List String) : Entry → Except Problem String
  | .any => .ok anyName
  | .category name =>
    if known.contains name then .ok (atomicName name) else .error (.unknownCategory name)

/-! ### Conflicts -/

/-- The nonterminals whose rules come from a category. -/
def originTable (ds : List (Nat × Declaration)) : List (String × String) :=
  ds.map (fun (i, d) => (formName i, d.category)) ++
    (populated ds).map (fun name => (atomicName name, name)) ++
    (tighter ds).map fun name => (greaterName name, name)

/-- The origin of a rule's nonterminal. -/
def originOf (origins : List (String × String)) (r : Registry) (lhs : Handle) :
    Except Fault Origin := do
  match (← r.symbolsOf lhs).head?.bind fun name => origins.lookup name with
  | some category => return .category category
  | none => return .unknown

/-- An item that takes part in decisions: a complete one, or one before a terminal. -/
def isActive (g : Grammar) (item : Item) : Bool :=
  item.isComplete g || (item.next? g).any (·.isTerminal)

/-- The origins of the active items of a state. -/
def originsIn (origins : List (String × String)) (g : Grammar) (items : ItemSet) :
    Except Fault (List Origin) :=
  (items.filter (isActive g)).mapM fun item =>
    match g.rules[item.rule]? with
    | none => .error .missingRule
    | some rule => originOf origins g.registry rule.lhs

/-- The undecided states by origin: those with a conflict left, or a read that cannot tell its
terminals apart. -/
def blame (origins : List (String × String)) (t : Table) : Except Fault (List Blame) := do
  let undecided := t.rows.zipIdx.filter fun (row, _) => row.plan.hasError || row.plan.isVague
  let blamed ← undecided.foldlM (fun blamed (row, state) => do
    let found ← originsIn origins t.grammar row.items
    return found.foldl (fun blamed origin => Ascending.insertAt origin state blamed) blamed) []
  return blamed.map fun (origin, states) => ⟨origin, states⟩

/-- Where the warning about an origin points: at the first usable declaration of the category, if
that has a place, or else at the category itself. -/
def blameSpan (known : List (String × Option Span)) (ds : List (Nat × Declaration)) :
    Origin → Option Span
  | .unknown => none
  | .category name =>
    ((ds.find? fun (_, d) => d.category == name).bind fun (_, d) => d.span).or
      ((known.lookup name).bind id)

/-- The warning about an origin. -/
def warning (known : List (String × Option Span)) (ds : List (Nat × Declaration)) (b : Blame) :
    Diagnostic :=
  let states := ", ".intercalate (b.states.map fun state => s!"{state}")
  .warning (blameSpan known ds b.origin)
    s!"ambiguous syntax in {b.origin.render} (states {states})"

/-! ### Assembly -/

/-- The parser of usable declarations, and the sink after its warnings. -/
def construct (known : List (String × Option Span)) (priorities : LevelGraph String)
    (ds : List (Nat × Declaration)) (entry : Entry) (start : String) (config : ExecutorConfig)
    (sink : Sink) : Traced Failure (Sink × Assembled) := do
  let g ← (grammarOf entry start priorities ds).lower
  let table ← Table.build g
  let conflicts ← blame (originTable ds) table
  let sink ← conflicts.foldlM (fun sink b => sink.report (warning known ds b)) sink
  Traced.emit (.assembled ds.length table.rows.length conflicts.length)
  let literals := literalsOf ds
  let terminals ← table.bind Terminal.endOfInput (Terminal.named literals)
  return (sink, {
    table, terminals, config, priorities, conflicts
    literals := Terminal.allLiterals literals })

/-- Builds a parser for everything usable in a catalogue. The sink gets an error for each entry that
is left out and a warning for each origin of undecided states. -/
def assemble (c : Catalogue) (entry : Entry) (config : ExecutorConfig) (sink : Sink) :
    Traced Fault (Sink × Except Problem Assembled) := do
  let (sink, known) ← c.acceptCategories sink
  let names := known.map (·.1)
  let (sink, priorities) ← c.acceptPriorities names sink
  let (sink, ds) ← c.acceptDeclarations names sink
  match startOf names entry with
  | .error problem => return (sink, .error problem)
  | .ok start =>
    match ← (construct known priorities ds entry start config sink).catchProblem with
    | .error problem => return (sink, .error problem)
    | .ok (sink, assembled) => return (sink, .ok assembled)

end Catalogue

end Mixfix
