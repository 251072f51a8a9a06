import Mixfix.Proofs.Executor.Acceptance
import Mixfix.Proofs.Executor.Binding
import Mixfix.Proofs.Executor.Decisive
import Mixfix.Proofs.Terminal.Totality

/-!
# Runs that end

A step that does not move on in the text is a reduction, or takes a possibly empty terminal for
nothing.  Where every right-hand side has something else than a possibly empty terminal at both
ends, and a rule over a single symbol leads to a symbol of a higher rank, the stack allows only so
many of these; and the places of a window run out.  So a run ends, and it never stops with a fault
if the parsers of its terminals answer.

* `Grammar.Laddered`: what the rules must be like.
* `Grammar.patience`: how many steps a stack allows before the next one that moves on.
* `Executor.Steady`: what the executor must be like.
* `Executor.Going.step`: a step moves on, or lowers the patience.
* `Executor.Steady.returns`, `Executor.Steady.idles_le`: a run ends; the steps that do not move on
  are bounded.
-/

namespace Mixfix

/-! ### Places -/

namespace Window

variable {w : Window} {p q : Position}

/-- The second place lies behind the first, on a line of the window. -/
def Onward (w : Window) (p q : Position) : Prop := p < q ∧ q.line < w.count

/-- The bytes of a line from a place on. -/
def room (w : Window) (p : Position) : Nat :=
  match w.line p.line with
  | .ok line => byteSize line - p.offset
  | .error _ => 0

/-- Further on there are fewer lines, or there is less room on the line. -/
theorem Onward.less (h : w.Onward p q) (hq : w.Boundary q) :
    w.count - q.line < w.count - p.line ∨ w.count - q.line = w.count - p.line ∧
      w.room q < w.room p := by
  obtain ⟨hpq, hlt⟩ := h
  rcases Position.lt_iff.1 hpq with hline | ⟨hline, hoffset⟩
  · exact .inl (by omega)
  · obtain ⟨rest, -, line, hread, hrest⟩ := hq hlt
    have hsize := byteSize_of_dropBytes hrest
    refine .inr ⟨by rw [hline], ?_⟩
    rw [room, room, hline, hread]
    show byteSize line - q.offset < byteSize line - p.offset
    omega

end Window

/-! ### Stacks -/

namespace Grammar

variable {g : Grammar} {rank : Handle → Nat} {top : Nat}

/-- The rules have something else than a possibly empty terminal at both ends, never name the end of
input, and climb where they have a single symbol. -/
structure Laddered (g : Grammar) (rank : Handle → Nat) (top : Nat) : Prop where
  rank_le : ∀ X, rank X ≤ top
  head : ∀ rule ∈ g.rules, ∃ X, rule.rhs.head? = some X ∧ g.registry.nonEmptyOf X = none
  last : ∀ rule ∈ g.rules, ∃ X, rule.rhs.getLast? = some X ∧ g.registry.nonEmptyOf X = none
  lhs : ∀ rule ∈ g.rules, g.registry.nonEmptyOf rule.lhs = none
  climbs : ∀ rule ∈ g.rules.tail, ∀ X, rule.rhs = [X] → rank X < rank rule.lhs
  endless : ∀ rule ∈ g.rules, .endOfInput ∉ rule.rhs

/-- The length of the longest right-hand side. -/
def longest (g : Grammar) : Nat := g.rules.foldr (fun rule n => max rule.rhs.length n) 0

theorem length_le_longest {rule : Rule} (h : rule ∈ g.rules) : rule.rhs.length ≤ g.longest := by
  rw [longest]
  generalize g.rules = rules at h
  induction rules with
  | nil => cases h
  | cons other rules ih =>
    rw [List.foldr_cons]
    rcases List.mem_cons.1 h with rfl | h
    · exact Nat.le_max_left _ _
    · exact Nat.le_trans (ih h) (Nat.le_max_right _ _)

/-- The possibly empty terminals on top of a stack of symbols. -/
def pending (g : Grammar) : List Handle → Nat
  | [] => 0
  | X :: symbols => if (g.registry.nonEmptyOf X).isSome then pending g symbols + 1 else 0

theorem pending_of_none {X : Handle} (h : g.registry.nonEmptyOf X = none) (symbols : List Handle) :
    g.pending (X :: symbols) = 0 := by
  rw [pending, if_neg]
  rw [h]
  exact Bool.false_ne_true

theorem pending_of_some {X : Handle} (h : (g.registry.nonEmptyOf X).isSome)
    (symbols : List Handle) : g.pending (X :: symbols) = g.pending symbols + 1 := if_pos h

/-- A symbol of another kind ends the possibly empty terminals. -/
theorem pending_le {symbols : List Handle} {n : Nat} {X : Handle} (hX : symbols[n]? = some X)
    (h : g.registry.nonEmptyOf X = none) : g.pending symbols ≤ n := by
  induction symbols generalizing n with
  | nil => cases hX
  | cons Y symbols ih =>
    cases n with
    | zero =>
      cases hX
      rw [pending_of_none h]
    | succ n =>
      rw [pending]
      split
      · exact Nat.succ_le_succ (ih hX)
      · exact Nat.zero_le _

/-- How many steps a stack of symbols allows before one that moves on.  Over possibly empty
terminals, only more of them can follow, up to the length of a right-hand side; otherwise the stack
shrinks, or its top climbs. -/
def patience (g : Grammar) (rank : Handle → Nat) (top : Nat) (symbols : List Handle) : Nat :=
  if g.pending symbols = 0 then
    g.longest + 1 + (top + 1) * symbols.length + (top - symbols.head?.elim 0 rank)
  else g.longest - g.pending symbols

theorem patience_le (g : Grammar) (rank : Handle → Nat) (top : Nat) (symbols : List Handle) :
    g.patience rank top symbols ≤ g.longest + 1 + (top + 1) * symbols.length + top := by
  rw [patience]
  split <;> omega

/-- Putting a possibly empty terminal on the stack takes patience. -/
theorem patience_shift {t : Handle} (ht : (g.registry.nonEmptyOf t).isSome) {symbols : List Handle}
    (hlt : g.pending (t :: symbols) < g.longest) :
    g.patience rank top (t :: symbols) < g.patience rank top symbols := by
  have hpending := pending_of_some ht symbols
  rw [patience, if_neg (by omega), patience]
  split <;> omega

/-- So does folding a right-hand side. -/
theorem Laddered.patience_fold (h : g.Laddered rank top) {rule : Rule} (hrule : rule ∈ g.rules.tail)
    {symbols : List Handle} (hle : rule.rhs.length ≤ symbols.length)
    (hrhs : (symbols.take rule.rhs.length).reverse = rule.rhs) :
    g.patience rank top (rule.lhs :: symbols.drop rule.rhs.length) <
      g.patience rank top symbols := by
  have hmem := List.mem_of_mem_tail hrule
  obtain ⟨X, hlast, hX⟩ := h.last rule hmem
  -- The last symbol of the right-hand side is on top of the stack.
  have hhead : symbols.head? = some X := by
    rw [← hrhs, List.getLast?_reverse, List.head?_take] at hlast
    split at hlast
    · cases hlast
    · exact hlast
  obtain ⟨others, rfl⟩ := List.head?_eq_some_iff.1 hhead
  rw [patience, if_pos (pending_of_none (h.lhs rule hmem) _), patience,
    if_pos (pending_of_none hX _), List.head?_cons, List.head?_cons, Option.elim_some,
    Option.elim_some, List.length_cons, List.length_drop]
  have hlhs := h.rank_le rule.lhs
  cases hlen : rule.rhs.length with
  | zero =>
    rw [List.length_eq_zero_iff.1 hlen] at hlast
    cases hlast
  | succ n =>
    rw [hlen] at hle
    cases n with
    | zero =>
      -- A single symbol: the stack is as deep as before, and its top ranks higher.
      obtain ⟨Y, hY⟩ := List.length_eq_one_iff.1 hlen
      obtain rfl : Y = X := by simpa [hY] using hlast
      have hclimb := h.climbs rule hrule Y hY
      rw [List.length_cons, Nat.add_sub_cancel]
      omega
    | succ n =>
      rw [List.length_cons] at hle ⊢
      have hmul := Nat.mul_le_mul_left (top + 1)
        (show others.length + 1 - (n + 1 + 1) + 1 ≤ others.length by omega)
      rw [Nat.mul_add (top + 1) others.length 1]
      omega

end Grammar

/-- On a path the possibly empty terminals on top are fewer than the symbols of some right-hand
side. -/
theorem Automaton.Path.pending_lt {g : Grammar} {rank : Handle → Nat} {top : Nat}
    (h : g.Laddered rank top) {a : Automaton} (hc : a.Canonical g) {i j : Nat} {states : List Nat}
    {symbols : List Handle} (hp : a.Path (i :: states) symbols) {s : State} (hs : a[i]? = some s)
    {X : Handle} (he : (X, j) ∈ s.edges) : g.pending (X :: symbols) < g.longest := by
  obtain ⟨s', hs', hitems⟩ := hc.edge (List.mem_of_getElem? hs) he
  -- The item that asked for the symbol has it before its dot now.
  have hexpected : X ∈ s.items.expected g := by
    rw [← hc.keys (List.mem_of_getElem? hs)]
    exact List.mem_map_of_mem he
  obtain ⟨item, hitem, hnext⟩ := ItemSet.mem_expected.1 hexpected
  have hadvanced : item.advance ∈ s'.items := hitems ▸ ItemSet.advance_mem_goto hitem hnext
  obtain ⟨rule, hrule, hdot⟩ := (hc.proper (List.mem_of_getElem? hs')).dot_le _ hadvanced
  have hmem := List.mem_of_getElem? hrule
  obtain ⟨hle, htake⟩ := (hp.step hs he).before_dot hc rfl hs' hadvanced
  have hrhs : g.rhs item.advance.rule = rule.rhs := by rw [Grammar.rhs, hrule]; rfl
  obtain ⟨Y, hhead, hY⟩ := h.head rule hmem
  -- So the first symbol of its right-hand side is on the stack, and ends the empty ones.
  have hY' : (X :: symbols)[item.dot]? = some Y := by
    have hfirst := congrArg List.head? htake
    rw [hrhs, List.head?_reverse, List.head?_take, hhead, List.getLast?_take] at hfirst
    have hlt : item.dot < (X :: symbols).length := hle
    rw [List.getElem?_eq_getElem hlt]
    simpa [Item.advance, List.getElem?_eq_getElem hlt] using hfirst
  have hpending := Grammar.pending_le hY' hY
  have hlong := Grammar.length_le_longest hmem
  have hdot' : item.dot + 1 ≤ rule.rhs.length := hdot
  omega

/-! ### Steps -/

namespace Executor

variable {σ : Type} {g : Grammar} {e : Executor σ} {w : Window} {rank : Handle → Nat} {top : Nat}

/-- An executor whose runs end: its rules are laddered, the terminals that it asks for answer
wherever a place is between characters, and what is taken for a terminal moves on in the text,
unless it is nothing for a possibly empty one. -/
structure Steady (g : Grammar) (e : Executor σ) (w : Window) (rank : Handle → Nat) (top : Nat) :
    Prop where
  wellFormed : g.WellFormed
  table : e.table = Table.ofGrammar g
  reserved : g.Reserved
  laddered : g.Laddered rank top
  kind : ∀ rule ∈ g.rules, ∃ kind, g.kind rule.lhs = .ok kind
  bound : ∀ {i plan t}, e.table.plan? i = some plan → plan.Asks t ∨ t = .endOfInput → e.Binds t
  answers : ∀ {t parser}, e.terminals.lookup t = some parser →
    ∀ c : Cursor σ, w.Boundary c.position →
      ∃ answer, (parser c.user w c.position).result = .ok answer ∧
        ∀ parsed ∈ answer, w.Boundary parsed.stop
  moves : ∀ {c : Cursor σ} {token : Ahead σ}, w.Boundary c.position →
    token.terminal ≠ .endOfInput → e.Takes w c token →
      (g.registry.nonEmptyOf token.terminal).isSome ∧ token.parsed.stop = c.position ∨
        w.Onward c.position token.parsed.stop

/-- A machine of a run: its stacks are in order, its buffer was read in turn, and it stands between
characters. -/
structure Going (g : Grammar) (e : Executor σ) (w : Window) (m : Machine σ)
    (symbols : List Handle) : Prop where
  stacked : Stacked g m symbols
  buffered : e.Buffered w m.cursor m.buffer
  boundary : w.Boundary m.position

theorem going_start (s : σ) {p : Position} (hp : w.Boundary p) :
    Going g e w (start s p) [] := ⟨stacked_start s p, trivial, hp⟩

namespace Steady

theorem grammar_eq (h : Steady g e w rank top) : e.table.grammar = g := by rw [h.table]; rfl

theorem boundary_of_reads (h : Steady g e w rank top) {c : Cursor σ} (hc : w.Boundary c.position)
    {t : Handle} {parsed : Parsed σ} (hr : e.Reads w c t parsed) : w.Boundary parsed.stop := by
  obtain ⟨parser, hparser, hresult⟩ := hr
  obtain ⟨answer, hanswer, hstop⟩ := h.answers hparser c hc
  cases hresult.symm.trans hanswer
  exact hstop parsed rfl

theorem boundary_of_takes (h : Steady g e w rank top) {c : Cursor σ} (hc : w.Boundary c.position)
    {token : Ahead σ} (ht : e.Takes w c token) : w.Boundary token.parsed.stop := by
  cases ht with
  | own hr => exact h.boundary_of_reads hc hr
  | variant _ hr => exact h.boundary_of_reads hc hr
  | empty _ => exact hc

theorem boundary_past (h : Steady g e w rank top) {c : Cursor σ} (hc : w.Boundary c.position)
    {tokens : List (Ahead σ)} (hb : e.Buffered w c tokens) :
    w.Boundary (c.past tokens).position := by
  induction tokens generalizing c with
  | nil => exact hc
  | cons token tokens ih =>
    rw [Cursor.past_cons]
    exact ih (h.boundary_of_reads hc hb.1) hb.2

end Steady

namespace Going

variable {origin : Position} {m m' : Machine σ} {symbols : List Handle}

/-- A step never stops with a fault. -/
theorem exists_outcome (he : Steady g e w rank top) (h : Going g e w m symbols) :
    ∃ outcome, (e.step w origin m).result = .ok outcome := by
  cases hstep : (e.step w origin m).result with
  | ok outcome => exact ⟨outcome, rfl⟩
  | error f =>
    exfalso
    rcases stops_of_step hstep with ⟨-, hplan, hasks, hread, hfaults⟩ |
      ⟨hhead, hplan, hwalk, hnodes⟩ | hnil | ⟨hhead, hplan⟩ | ⟨hhead, hplan, hwalk, hreduce⟩
    · rcases hfaults with hunbound | ⟨parser, hparser, hf⟩
      · exact (he.bound hplan hasks).parserOf_ne_error hunbound
      · obtain ⟨answer, hanswer, -⟩ := he.answers (parserOf_eq_ok.1 hparser) _
          (he.boundary_past h.boundary (hread h.buffered))
        cases hf.symm.trans hanswer
    · have haccepting : e.Accepting w m := ⟨_, _, _, hhead, hplan, hwalk⟩
      have hlen := h.stacked.nodes
      rw [haccepting.symbols_eq he.wellFormed he.table he.reserved h.stacked.path] at hlen
      obtain ⟨root, hroot⟩ := List.length_eq_one_iff.1 hlen
      exact hnodes root hroot
    · have hlen := h.stacked.states_length
      rw [hnil] at hlen
      cases hlen
    · obtain ⟨s, hs⟩ := h.stacked.path.exists_state (Automaton.canonical he.wellFormed)
        (List.mem_of_mem_head? hhead)
      rw [he.table, Table.plan?_ofGrammar.2 ⟨s, hs, rfl⟩] at hplan
      cases hplan
    · obtain ⟨rule, hrule, hkind⟩ :=
        h.stacked.reduce_fault he.wellFormed he.table hhead hplan hwalk hreduce
      obtain ⟨kind, hkind'⟩ := he.kind rule hrule
      cases hkind.symm.trans hkind'

/-- A step that goes on moves on in the text, or stays at its place and lowers the patience. -/
theorem step (he : Steady g e w rank top) (h : Going g e w m symbols)
    (hstep : (e.step w origin m).result = .ok (.running m')) :
    ∃ symbols', Going g e w m' symbols' ∧ (w.Onward m.position m'.position ∨
      m'.position = m.position ∧ g.patience rank top symbols' < g.patience rank top symbols) := by
  have hc := Automaton.canonical he.wellFormed
  obtain ⟨i, states, plan, move, buffer, hi, hplan, hwalk, hmove⟩ := step_running hstep
  obtain ⟨hleaf, hb⟩ := walk_result hwalk
  obtain ⟨s, hs, rfl⟩ := Table.plan?_ofGrammar.1 (he.table ▸ hplan)
  have hback := Automaton.backed_of_mem_leaves hc hs hleaf
  -- The reads of the walk change the buffer alone.
  have hread : Stacked g { m with buffer } symbols := ⟨h.stacked.path, h.stacked.nodes⟩
  cases move with
  | shift target t munch =>
    obtain ⟨hedge, hterminal, hmunch⟩ := hback
    rw [← he.grammar_eq] at hmunch
    rcases shift_result (m := { m with buffer }) (hb h.buffered) hmunch hmove with hgive |
      ⟨parsed, buffer', heq, htake, hb'⟩
    · exact absurd hgive giveUp_ne_running
    cases heq
    have hexpected : t ∈ s.items.expected g := by
      rw [← hc.keys (List.mem_of_getElem? hs)]
      exact List.mem_map_of_mem hedge
    have hend : t ≠ .endOfInput := by
      rintro rfl
      obtain ⟨item, -, hnext⟩ := ItemSet.mem_expected.1 hexpected
      obtain ⟨rest, hrest⟩ := Item.next?_eq_some.1 hnext
      obtain ⟨rule, hrule, -, hdrop⟩ := Item.rest_eq_cons hrest
      exact he.laddered.endless rule (List.mem_of_getElem? hrule)
        (List.mem_of_mem_drop (hdrop ▸ List.mem_cons_self))
    refine ⟨t :: symbols, ⟨hread.push hi hs hedge parsed buffer', hb',
      he.boundary_of_takes h.boundary htake⟩, ?_⟩
    rcases he.moves h.boundary hend htake with ⟨hempty, hstop⟩ | honward
    · have hpath := h.stacked.path
      rw [hi] at hpath
      exact .inr ⟨hstop, Grammar.patience_shift hempty (hpath.pending_lt he.laddered hc hs hedge)⟩
    · exact .inl honward
  | reduce id =>
    obtain ⟨rule, below, target, hr⟩ :=
      h.stacked.reduces he.wellFormed he.table (by rw [hi]; rfl) hplan hwalk
    obtain ⟨kind, rest, hdrop, rfl⟩ := Stacked.reduce_running he.table hr hmove
    have hfold := hread.fold he.wellFormed he.table (w := w)
      ⟨hr.found, hr.le, hr.rhs, hr.cut, hr.goto⟩ hdrop kind
    refine ⟨_, ⟨hfold, hb h.buffered, h.boundary⟩, .inr ⟨rfl, ?_⟩⟩
    -- The augmented rule is never reduced.
    obtain ⟨n, hn⟩ := Nat.exists_eq_succ_of_ne_zero hback.1
    refine he.laddered.patience_fold (List.mem_of_getElem? (i := n) ?_) hr.le hr.rhs
    rw [List.getElem?_tail, ← Nat.succ_eq_add_one, ← hn]
    exact hr.found
  | accept => exact absurd hmove accept_ne_running

/-- The run of such a machine ends. -/
theorem exists_ending (he : Steady g e w rank top) {m : Machine σ} {symbols : List Handle}
    (h : Going g e w m symbols) : ∃ answer, e.Ending w origin m answer := by
  obtain ⟨outcome, hstep⟩ : ∃ outcome, (e.step w origin m).result = .ok outcome :=
    h.exists_outcome he
  cases outcome with
  | finished answer => exact ⟨answer, .of_finished hstep⟩
  | running m' =>
    obtain ⟨symbols', h', hless⟩ := h.step he hstep
    obtain ⟨answer, hanswer⟩ := h'.exists_ending he
    exact ⟨answer, hanswer.of_running hstep⟩
termination_by (w.count - m.position.line, w.room m.position, g.patience rank top symbols)
decreasing_by
  rcases hless with honward | ⟨hplace, hpatience⟩
  · rcases honward.less h'.boundary with hline | ⟨hline, hroom⟩
    · exact Prod.Lex.left _ _ hline
    · rw [hline]
      exact Prod.Lex.right _ (Prod.Lex.left _ _ hroom)
  · rw [hplace]
    exact Prod.Lex.right _ (Prod.Lex.right _ hpatience)

end Going

/-- Some steps at one place. -/
inductive Idles (e : Executor σ) (w : Window) (origin : Position) :
    Nat → Machine σ → Machine σ → Prop where
  | refl (m : Machine σ) : Idles e w origin 0 m m
  | more {n : Nat} {m m₁ m' : Machine σ} : (e.step w origin m).result = .ok (.running m₁) →
      m₁.position = m.position → Idles e w origin n m₁ m' → Idles e w origin (n + 1) m m'

namespace Going

variable {origin : Position} {m m' : Machine σ} {symbols : List Handle}

theorem steps (he : Steady g e w rank top) (h : Going g e w m symbols)
    (hsteps : e.Steps w origin m m') : ∃ symbols', Going g e w m' symbols' := by
  induction hsteps with
  | refl => exact ⟨symbols, h⟩
  | tail _ hstep ih =>
    obtain ⟨symbols', h'⟩ := ih
    obtain ⟨symbols'', h'', -⟩ := h'.step he hstep
    exact ⟨symbols'', h''⟩

theorem idles_le (he : Steady g e w rank top) (h : Going g e w m symbols) {n : Nat}
    (hidles : e.Idles w origin n m m') : n ≤ g.patience rank top symbols := by
  induction hidles generalizing symbols with
  | refl => exact Nat.zero_le _
  | more hstep hplace _ ih =>
    obtain ⟨symbols', h', honward | ⟨-, hless⟩⟩ := h.step he hstep
    · have hlt := honward.1
      rw [hplace, Position.lt_iff] at hlt
      omega
    · exact Nat.lt_of_le_of_lt (ih h') hless

end Going

namespace Steady

variable {s : σ} {p : Position}

/-- A run gives an answer. -/
theorem exists_returns (he : Steady g e w rank top) (hp : w.Boundary p) (s : σ) :
    ∃ answer, e.Returns s w p answer :=
  (going_start s hp).exists_ending he

/-- A run stops with no fault but that its moves are used up. -/
theorem eq_exhausted (he : Steady g e w rank top) (hp : w.Boundary p) {limit : Nat} {f : Fault}
    (h : (e.parser limit s w p).result = .error f) : f = .exhausted := by
  refine (exists_step_of_run h).resolve_right ?_
  rintro ⟨m, hm, hstep⟩
  obtain ⟨symbols, hgoing⟩ := (going_start s hp).steps he hm
  obtain ⟨outcome, houtcome⟩ : ∃ outcome, (e.step w p m).result = .ok outcome :=
    hgoing.exists_outcome he
  cases hstep.symm.trans houtcome

/-- Every step of a run that goes on stays at its place or moves on in the text. -/
theorem stays_or_moves (he : Steady g e w rank top) (hp : w.Boundary p) {m m' : Machine σ}
    (hm : e.Steps w p (start s p) m) (hstep : (e.step w p m).result = .ok (.running m')) :
    m'.position = m.position ∨ w.Onward m.position m'.position := by
  obtain ⟨symbols, h⟩ := (going_start s hp).steps he hm
  obtain ⟨-, -, honward | ⟨hplace, -⟩⟩ := h.step he hstep
  · exact .inr honward
  · exact .inl hplace

/-- In a run the steps at one place are bounded by the depth of the stack. -/
theorem idles_le (he : Steady g e w rank top) (hp : w.Boundary p) {m m' : Machine σ}
    (hm : e.Steps w p (start s p) m) {n : Nat} (hidles : e.Idles w p n m m') :
    n ≤ g.longest + 1 + (top + 1) * m.nodes.length + top := by
  obtain ⟨symbols, h⟩ := (going_start s hp).steps he hm
  rw [h.stacked.nodes]
  exact Nat.le_trans (h.idles_le he hidles) (g.patience_le rank top symbols)

end Steady

end Executor

end Mixfix
