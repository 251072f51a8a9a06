import Mixfix.Problem
import Mixfix.Registry.Index
import Mixfix.Unicode.Blank

/-!
# The symbol registry

A registry gives a handle to every symbol of a grammar. A nonterminal is one symbol that begins with
an uppercase letter; a terminal is a group of one or more symbols none of which does. Handles are
issued in order and never change their meaning.

Terminals carry declarations: groups of terminals that never match at one place, pairs of a
possibly empty terminal and its non-empty variant, and final terminals.
-/

namespace Mixfix

/-- The symbols of a name: its parts between blank characters. -/
def symbolsOfName (name : String) : List String :=
  let step (c : Char) (parts : List Char × List (List Char)) :=
    if isBlank c then ([], if parts.1.isEmpty then parts.2 else parts.1 :: parts.2)
    else (c :: parts.1, parts.2)
  let (last, parts) := name.toList.foldr step ([], [])
  (if last.isEmpty then parts else last :: parts).map String.ofList

/-- The known symbols and what is declared of the terminals. The handles are kept by symbols too,
and the groups by terminals; both maps agree with the lists at all times. -/
structure Registry where
  /-- The nonterminals, in the order of their handles. -/
  nonTerminals : List String := []
  /-- The terminals, in the order of their handles. -/
  terminals : List (List String) := []
  /-- The handle of every group that was interned. -/
  handles : List String → Option Handle := Registry.indexed nonTerminals terminals
  /-- Groups of terminals that never match at one place. -/
  groups : List (List Handle) := []
  /-- The groups that a terminal is in, by their places. -/
  memberships : Handle → List Nat := Registry.places groups
  /-- Possibly empty terminals, each with its non-empty variant. -/
  emptyPairs : List (Handle × Handle) := []
  /-- The terminals that end a sub-grammar. -/
  finals : List Handle := []
  handles_eq : ∀ symbols, handles symbols = Registry.indexed nonTerminals terminals symbols := by
    exact fun _ => rfl
  memberships_eq : ∀ t, memberships t = Registry.places groups t := by exact fun _ => rfl

namespace Registry

/-- Registries with the same lists are equal: the maps follow from the lists. -/
theorem eq_of_lists {r r' : Registry} (hn : r.nonTerminals = r'.nonTerminals)
    (ht : r.terminals = r'.terminals) (hg : r.groups = r'.groups)
    (he : r.emptyPairs = r'.emptyPairs) (hf : r.finals = r'.finals) : r = r' := by
  obtain ⟨nonTerminals, terminals, handles, groups, memberships, _, _, hh, hm⟩ := r
  obtain ⟨_, _, handles', _, memberships', _, _, hh', hm'⟩ := r'
  cases hn; cases ht; cases hg; cases he; cases hf
  obtain rfl : handles = handles' := funext fun symbols => (hh symbols).trans (hh' symbols).symm
  obtain rfl : memberships = memberships' := funext fun t => (hm t).trans (hm' t).symm
  rfl

/-- The registry of some symbols and of what is declared of them; no terminal is final. -/
def ofLists (nonTerminals : List String) (terminals : List (List String))
    (groups : List (List Handle)) (emptyPairs : List (Handle × Handle)) : Registry :=
  { nonTerminals, terminals, groups, emptyPairs }

/-! ### Operations -/

variable {ε α : Type}

/-- The handle of an interned group. -/
def find? (r : Registry) (symbols : List String) : Option Handle := r.handles symbols

/-- The registry with a nonterminal more. -/
def pushNonTerminal (r : Registry) (symbol : String) (hs : isNonTerminalSymbol symbol)
    (hnew : r.find? [symbol] = none) : Registry :=
  { r with
    nonTerminals := r.nonTerminals ++ [symbol]
    handles := put r.handles [symbol] (some (.ofNonTerminalIndex r.nonTerminals.length))
    handles_eq := funext r.handles_eq ▸ put_nonTerminal hs (r.handles_eq _ ▸ hnew) }

/-- The registry with a terminal more. -/
def pushTerminal (r : Registry) (symbols : List String) (hs : IsTerminalGroup symbols)
    (hnew : r.find? symbols = none) : Registry :=
  { r with
    terminals := r.terminals ++ [symbols]
    handles := put r.handles symbols (some (.ofTerminalIndex r.terminals.length))
    handles_eq := funext r.handles_eq ▸ put_terminal hs (r.handles_eq _ ▸ hnew) }

/-- The handle of a group, interned now if it is new. -/
def internM (symbols : List String) : EStateM Problem Registry Handle := fun r =>
  match hnew : r.find? symbols with
  | some handle => .ok handle r
  | none =>
    match symbols, hnew with
    | [], _ => .error .emptySymbolGroup r
    | symbol :: others, hnew =>
      if hany : ∃ s ∈ symbol :: others, isNonTerminalSymbol s then
        if hone : others = [] then
          .ok (.ofNonTerminalIndex r.nonTerminals.length)
            (r.pushNonTerminal symbol (by simpa [hone] using hany) (by simpa [hone] using hnew))
        else
          .error (.mixedSymbolGroup (symbol :: others)) r
      else
        .ok (.ofTerminalIndex r.terminals.length)
          (r.pushTerminal (symbol :: others) ⟨List.cons_ne_nil _ _, by simpa using hany⟩ hnew)

/-- What an operation gives and the registry after it, for a caller that gives up the registry if
the operation fails. -/
def outcome (op : EStateM ε Registry α) (r : Registry) : Except ε (α × Registry) :=
  match op r with
  | .ok a r => .ok (a, r)
  | .error e _ => .error e

/-- Interning a group in a registry. -/
def intern (r : Registry) (symbols : List String) : Except Problem (Handle × Registry) :=
  outcome (internM symbols) r

/-- The handle of a single symbol, interned now if it is new. -/
def internSymbol (r : Registry) (symbol : String) : Except Problem (Handle × Registry) :=
  r.intern [symbol]

/-- The symbols of an issued handle; the end of input has none. -/
def lookup? (r : Registry) (h : Handle) : Option (List String) :=
  match h.id with
  | .ofNat 0 => some []
  | .ofNat (n + 1) => r.nonTerminals[n]?.map ([·])
  | .negSucc n => r.terminals[n]?

/-- The symbols a handle stands for. -/
def symbolsOf (r : Registry) (h : Handle) : Except Fault (List String) :=
  match r.lookup? h with
  | some symbols => .ok symbols
  | none => .error (.unknownHandle h)

/-- A printable name: the nonterminal, the terminal's symbols between quotes, or `$`. -/
def name (r : Registry) (h : Handle) : Except Fault String :=
  if h.isEnd then .ok "$"
  else
    (r.symbolsOf h).map fun symbols =>
      if h.isNonTerminal then " ".intercalate symbols
      else " ".intercalate (symbols.map fun s => "'" ++ s ++ "'")

/-- Refuses a nonterminal. -/
def expectTerminal (r : Registry) (h : Handle) : Except Failure Unit := do
  if h.isTerminal then
    return ()
  else
    throw (.problem (.notATerminal (← r.name h)))

/-- The non-empty variant of a possibly empty terminal. -/
def nonEmptyOf (r : Registry) (t : Handle) : Option Handle := r.emptyPairs.lookup t

/-- Why two terminals cannot be a pair, if they cannot. -/
def pairObjection (r : Registry) (empty nonEmpty : Handle) : Option String :=
  if empty.isEnd || nonEmpty.isEnd then
    some "the end of input cannot be paired"
  else if empty = nonEmpty then
    some "a terminal cannot be its own non-empty variant"
  else if (r.nonEmptyOf nonEmpty).isSome || r.emptyPairs.any (·.2 == empty) then
    some "empty pairs cannot be chained"
  else if (r.nonEmptyOf empty).any (· != nonEmpty) then
    some "the terminal already has a non-empty variant"
  else
    none

/-- Refuses two terminals that cannot be a pair. -/
def expectPair (r : Registry) (empty nonEmpty : Handle) : Except Failure Unit := do
  r.expectTerminal empty
  r.expectTerminal nonEmpty
  match r.pairObjection empty nonEmpty with
  | some reason =>
    throw (.problem (.invalidEmptyPair (← r.name empty) (← r.name nonEmpty) reason))
  | none => return ()

/-- An operation that only looks whether the registry refuses something. -/
def check (test : Registry → Except ε Unit) : EStateM ε Registry Unit := fun r =>
  match test r with
  | .ok () => .ok () r
  | .error e => .error e r

/-- The registry with a group of distinct terminals more. -/
def pushGroup (r : Registry) (group : List Handle) : Registry :=
  { r with
    groups := r.groups ++ [group]
    memberships := enroll r.groups.length (Ascending.ofList group) r.memberships
    memberships_eq := funext r.memberships_eq ▸ enroll_places r.groups group }

/-- The registry with a pair more; a pair that is there already stays as it is. -/
def pushPair (r : Registry) (empty nonEmpty : Handle) : Registry :=
  if (r.nonEmptyOf empty).isSome then r
  else { r with emptyPairs := r.emptyPairs ++ [(empty, nonEmpty)] }

/-- The registry with a final terminal more. -/
def pushFinal (r : Registry) (t : Handle) : Registry :=
  { r with finals := if r.finals.contains t then r.finals else r.finals ++ [t] }

/-- Declares terminals that never match at one place. -/
def declareDistinctM (group : List Handle) : EStateM Failure Registry Unit := do
  check fun r => group.forM r.expectTerminal
  modify (·.pushGroup group)

/-- Declares a possibly empty terminal and its non-empty variant. -/
def declareEmptyPairM (empty nonEmpty : Handle) : EStateM Failure Registry Unit := do
  check (·.expectPair empty nonEmpty)
  modify (·.pushPair empty nonEmpty)

/-- Marks a terminal as the end of a sub-grammar. -/
def markFinalM (t : Handle) : EStateM Failure Registry Unit := do
  check (·.expectTerminal t)
  modify (·.pushFinal t)

/-- The registry after a declaration. -/
def declared (op : EStateM ε Registry Unit) (r : Registry) : Except ε Registry :=
  (outcome op r).map (·.2)

/-- A registry with a declared group of distinct terminals. -/
def declareDistinct (r : Registry) (group : List Handle) : Except Failure Registry :=
  declared (declareDistinctM group) r

/-- A registry with a declared pair. -/
def declareEmptyPair (r : Registry) (empty nonEmpty : Handle) : Except Failure Registry :=
  declared (declareEmptyPairM empty nonEmpty) r

/-- A registry with a terminal marked final. -/
def markFinal (r : Registry) (t : Handle) : Except Failure Registry := declared (markFinalM t) r

/-- Both terminals can never match at one place. The end of input is distinct from every other
terminal. -/
def distinct (r : Registry) (a b : Handle) : Bool :=
  if a = b then false
  else if a.isEnd || b.isEnd then true
  else (r.memberships a).any (r.memberships b).contains

/-- The terminal ends a sub-grammar. -/
def isFinal (r : Registry) (t : Handle) : Bool := r.finals.contains t

/-- Every terminal, in the order of creation. The end of input is not among them. -/
def terminalHandles (r : Registry) : List Handle :=
  (List.range r.terminals.length).map .ofTerminalIndex

/-- Every nonterminal, in the order of creation. -/
def nonTerminalHandles (r : Registry) : List Handle :=
  (List.range r.nonTerminals.length).map .ofNonTerminalIndex

end Registry

end Mixfix
