import Mixfix.Automaton.First
import Mixfix.Reach

/-!
# LR(1) items

An item is a rule with a dot in its right-hand side and the terminal expected after it. The closure
of a set of items adds, for every nonterminal after a dot, the rules it may be derived by, with the
terminals that may follow.

The closure is computed by nonterminals: each one that stands after a dot is kept with all its
lookaheads, and the rules that begin with a nonterminal hand them on.
-/

namespace Mixfix

/-- A rule, how far it has been seen, and the terminal to follow it. -/
structure Item where
  rule : Nat
  dot : Nat
  lookahead : Handle
deriving DecidableEq

namespace Item

instance : LT Item :=
  ⟨fun a b => a.rule < b.rule ∨ a.rule = b.rule ∧
    (a.dot < b.dot ∨ a.dot = b.dot ∧ a.lookahead < b.lookahead)⟩

theorem lt_iff {a b : Item} : a < b ↔ a.rule < b.rule ∨ a.rule = b.rule ∧
    (a.dot < b.dot ∨ a.dot = b.dot ∧ a.lookahead < b.lookahead) := Iff.rfl

instance : DecidableLT Item := fun a b => decidable_of_iff _ (lt_iff (a := a) (b := b)).symm

instance : Ascending.StrictTotal Item where
  irrefl a h := by rw [lt_iff, Handle.lt_iff] at h; omega
  trans h h' := by rw [lt_iff, Handle.lt_iff] at *; omega
  tri {a b} h h' := by
    rw [lt_iff, Handle.lt_iff] at h h'
    have hr : a.rule = b.rule := by omega
    have hd : a.dot = b.dot := by omega
    have hl : a.lookahead = b.lookahead := Handle.ext_id (by omega)
    cases a; cases b; simp_all only

/-- The symbols after the dot. -/
def rest (g : Grammar) (item : Item) : List Handle := (g.rhs item.rule).drop item.dot

/-- The symbol right after the dot. -/
def next? (g : Grammar) (item : Item) : Option Handle := (item.rest g).head?

/-- Nothing is left after the dot. -/
def isComplete (g : Grammar) (item : Item) : Bool := (item.rest g).isEmpty

/-- The item with the dot one symbol further. -/
def advance (item : Item) : Item := { item with dot := item.dot + 1 }

/-- An item is written with its rule, its dot and its lookahead. -/
def render (item : Item) : String := s!"[r{item.rule} @{item.dot}, {item.lookahead.render}]"

end Item

/-- A set of items, ascending. -/
abbrev ItemSet := List Item

namespace ItemSet

/-- The nonterminals after a dot, each with its lookaheads. -/
abbrev Goals := List (Handle × List Handle)

/-- Adds what the symbols after a dot ask for: their first one, if it is a nonterminal, before the
others and the lookaheads. -/
def ask (first : First) (symbols lookaheads : List Handle) (goals : Goals) : Goals :=
  match symbols with
  | [] => goals
  | s :: rest =>
    if s.isNonTerminal then Ascending.unionAt s (first.startsBefore rest lookaheads) goals
    else goals

/-- What the items themselves ask for. -/
def goals (g : Grammar) (first : First) (items : ItemSet) : Goals :=
  items.foldl (fun goals item => ask first (item.rest g) [item.lookahead] goals) []

/-- Adds what the rules of the nonterminals asked for ask for in turn. -/
def spread (g : Grammar) (first : First) (goals : Goals) : Goals :=
  g.rules.foldl (fun goals rule => ask first rule.rhs ((goals.lookup rule.lhs).getD []) goals) goals

/-- The initial items of the nonterminals asked for. -/
def predicted (g : Grammar) (goals : Goals) : ItemSet :=
  (g.rules.mapIdx fun id rule =>
    ((goals.lookup rule.lhs).getD []).map fun lookahead => Item.mk id 0 lookahead).flatten

/-- The items with all that follow from them. -/
def closure (g : Grammar) (first : First) (kernel : ItemSet) : ItemSet :=
  let bound := g.rules.length * (g.size + kernel.length) + 1
  Ascending.union (predicted g (settle (spread g first) bound (goals g first kernel))) kernel

/-- The closure of the items that expect a symbol, moved over it. -/
def goto (g : Grammar) (first : First) (items : ItemSet) (s : Handle) : ItemSet :=
  closure g first ((items.filter fun item => item.next? g = some s).map Item.advance)

/-- The symbols that some item expects. -/
def expected (g : Grammar) (items : ItemSet) : List Handle :=
  Ascending.ofList (items.filterMap fun item => item.next? g)

/-- The closure of items given from outside, whose rules must exist. -/
def closure? (g : Grammar) (first : First) (kernel : ItemSet) : Except Fault ItemSet :=
  if kernel.all fun item => item.rule < g.rules.length then .ok (closure g first kernel)
  else .error .missingRule

end ItemSet

end Mixfix
