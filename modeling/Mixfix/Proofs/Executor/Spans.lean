import Mixfix.Proofs.Executor.Soundness
import Mixfix.Proofs.Parser.Spans

/-!
# Spans of an executor's results

The nodes on the stack of a machine lie in order in the text between the start of the run and the
place of the machine, and the tokens read ahead go on from there.  No table can break this: a shift
adds a token at the end, a reduction puts one node in the place of the last ones, and what is given
up is put under a tree over the whole way.  All of this holds in every layout.

* `Executor.Placed`: the invariant.
* `Executor.Placed.step`: a step keeps it, or ends with a result in order.
* `Executor.parser_located`: an executor over located parsers is located.
-/

namespace Mixfix

namespace Executor

open Mixfix.Parser Mixfix.Window

variable {σ : Type} {L : Node.Layout} {e : Executor σ} {w : Window} {origin : Position}
  {m : Machine σ} {outcome : Outcome σ}

/-- The nodes of the machine lie in order between the start of the run and its place, and its buffer
goes on from there. -/
structure Placed (L : Node.Layout) (e : Executor σ) (w : Window) (origin : Position)
    (m : Machine σ) : Prop where
  covers : Covers L w origin m.nodes.reverse m.position
  buffered : e.Buffered w m.cursor m.buffer

/-- The outcome of a step: a machine in place, or an answer in place. -/
def Outcome.Placed (L : Node.Layout) (e : Executor σ) (w : Window) (origin : Position) :
    Outcome σ → Prop
  | .running m => Executor.Placed L e w origin m
  | .finished answer => ∀ parsed ∈ answer, Covers L w origin [parsed.node] parsed.stop

theorem placed_start (s : σ) (hp : w.Valid origin) : Placed L e w origin (start s origin) :=
  ⟨.refl hp, trivial⟩

/-- A tree over its children, or over nothing at the end, lies where they do. -/
theorem ordered_childrenSpan {a b : Position} {children : List Node}
    (h : Node.Ordered L.Fits a children b) (kind : Kind) :
    Node.Ordered L.Fits a [.make kind (childrenSpan children b) children] b := by
  cases children with
  | nil =>
    have hnode : L.Fits (.make kind (.point b) []) :=
      L.make kind (.point b) (Node.ordered_nil.2 (Position.le_refl b))
    exact (Node.ordered_singleton hnode).widen (Node.ordered_nil.1 h) (Position.le_refl b)
  | cons n nodes =>
    obtain ⟨last, hlast⟩ : ∃ last, (n :: nodes).getLast? = some last :=
      ⟨_, List.getLast?_eq_some_getLast (List.cons_ne_nil n nodes)⟩
    obtain ⟨hrow, hstart, hstop⟩ := h.narrow hlast
    have hnode := L.make kind ⟨n.span.start, last.span.stop⟩ hrow
    rw [childrenSpan, hlast]
    exact (Node.ordered_singleton hnode).widen hstart hstop

namespace Placed

theorem giveUp (h : Placed L e w origin m) (hresult : (e.giveUp w origin m).result = .ok outcome) :
    outcome.Placed L e w origin := by
  rw [Executor.giveUp] at hresult
  split at hresult
  · cases hresult
    intro _ h
    cases h
  · next tag _ =>
    obtain ⟨_, -, hresult⟩ := Traced.bind_eq_ok.1 hresult
    cases hresult
    rintro parsed ⟨⟩
    exact h.covers.make (.tagged tag)

theorem push (h : Placed L e w origin m) {parsed : Parsed σ} {buffer : List (Ahead σ)}
    (hparsed : Covers L w m.position [parsed.node] parsed.stop)
    (hb : e.Buffered w parsed.cursor buffer) (target : Nat) :
    Placed L e w origin (push m parsed buffer target) := by
  refine ⟨?_, hb⟩
  show Covers L w origin (parsed.node :: m.nodes).reverse parsed.stop
  rw [List.reverse_cons]
  exact h.covers.append hparsed

theorem reduce (h : Placed L e w origin m) {i id : Nat}
    (hresult : (e.reduce w m i id).result = .ok outcome) : outcome.Placed L e w origin := by
  obtain ⟨rule, below, states, target, kind, -, -, -, -, -, rfl⟩ := reduce_eq_ok.1 hresult
  refine ⟨⟨h.covers.valid, h.covers.le, ?_⟩, h.buffered⟩
  have hrow := h.covers.ordered
  rw [← List.take_append_drop rule.rhs.length m.nodes, List.reverse_append] at hrow
  obtain ⟨c, hbelow, hchildren⟩ := Node.ordered_append.1 hrow
  rw [folded, List.reverse_cons]
  exact Node.ordered_append.2 ⟨c, hbelow, ordered_childrenSpan hchildren kind⟩

end Placed

/-! ### Steps of an executor over located parsers -/

section

variable (hterminals : ∀ bound ∈ e.terminals, Located L bound.2) (hw : w.Regular)

include hterminals hw

theorem covers_of_reads {c : Cursor σ} {t : Handle} {parsed : Parsed σ}
    (h : e.Reads w c t parsed) (hc : w.Valid c.position) :
    Covers L w c.position [parsed.node] parsed.stop := by
  obtain ⟨parser, hparser, hresult⟩ := h
  exact hterminals (t, parser) (mem_of_lookup_eq_some hparser) hw hc hresult

theorem Placed.shift (h : Placed L e w origin m) {i target munch : Nat} {t : Handle}
    (hresult : (e.shift w origin m i target t munch).result = .ok outcome) :
    outcome.Placed L e w origin := by
  have hvalid : w.Valid m.cursor.position := h.covers.valid
  have hb := h.buffered
  have hsupply := supply_cases e t munch m.buffer
  rw [Executor.shift] at hresult
  split at hresult
  · exact h.giveUp hresult
  · obtain ⟨_, -, hresult⟩ := Traced.bind_eq_ok.1 hresult
    cases hresult
    exact h.push (covers_nothing hvalid) hb target
  · next parsed others heq =>
    rw [heq] at hsupply
    obtain ⟨_, -, hresult⟩ := Traced.bind_eq_ok.1 hresult
    cases hresult
    obtain ⟨token, hbuffer, rfl, -⟩ := hsupply
    rw [hbuffer] at hb
    exact h.push (covers_of_reads hterminals hw hb.1 hvalid) hb.2 target
  · obtain ⟨parser, hparser, hresult⟩ := Traced.bind_eq_ok.1 hresult
    obtain ⟨answer, hanswer, hresult⟩ := Traced.bind_eq_ok.1 hresult
    cases answer with
    | none => exact h.giveUp hresult
    | some parsed =>
      obtain ⟨_, -, hresult⟩ := Traced.bind_eq_ok.1 hresult
      cases hresult
      have hreads : e.Reads w m.cursor t parsed := ⟨parser, parserOf_eq_ok.1 hparser, hanswer⟩
      have hnone : e.Buffered w parsed.cursor [] := trivial
      exact h.push (covers_of_reads hterminals hw hreads hvalid) hnone target

theorem Placed.accept (h : Placed L e w origin m) {i : Nat}
    (hresult : (e.accept w origin m i).result = .ok outcome) : outcome.Placed L e w origin := by
  rcases accept_result h.buffered hresult with hresult | ⟨ending, root, hreads, hnodes, rfl⟩
  · exact h.giveUp hresult
  · have hending := covers_of_reads hterminals hw hreads h.covers.valid
    have hcovers := h.covers
    rw [hnodes] at hcovers
    rintro parsed ⟨⟩
    -- The end of input leaves no trace in the result, only a later end.
    have hgap : Covers L w m.position [] ending.stop :=
      .of_le hw h.covers.valid hending.valid hending.le
    exact hcovers.append hgap

/-- A step keeps a machine in place, or ends with a result in place. -/
theorem Placed.step (h : Placed L e w origin m)
    (hresult : (e.step w origin m).result = .ok outcome) : outcome.Placed L e w origin := by
  unfold Executor.step at hresult
  split at hresult
  · cases hresult
  · split at hresult
    · cases hresult
    · obtain ⟨answer, hanswer, hresult⟩ := Traced.bind_eq_ok.1 hresult
      cases answer with
      | none => exact h.giveUp hresult
      | some answer =>
        obtain ⟨move, buffer⟩ := answer
        have hb := (walk_result hanswer).2 h.buffered
        have h' : Placed L e w origin { m with buffer } := ⟨h.covers, hb⟩
        cases move with
        | shift target t munch => exact h'.shift hterminals hw hresult
        | reduce id => exact h'.reduce hresult
        | accept => exact h'.accept hterminals hw hresult

/-- What every step keeps, a run keeps up to its answer. -/
theorem Placed.run {limit : Nat} (h : Placed L e w origin m) {parsed : Parsed σ}
    (hresult : (e.run w origin limit m).result = .ok (some parsed)) :
    Covers L w origin [parsed.node] parsed.stop := by
  induction limit generalizing m with
  | zero => cases hresult
  | succ limit ih =>
    rw [Executor.run, Traced.bind_eq_ok] at hresult
    obtain ⟨outcome, houtcome, hresult⟩ := hresult
    have hplaced := h.step hterminals hw houtcome
    cases outcome with
    | finished answer =>
      cases hresult
      exact hplaced parsed rfl
    | running m' => exact ih hplaced hresult

end

/-- An executor over located parsers is located, whatever its table. -/
theorem parser_located (hterminals : ∀ bound ∈ e.terminals, Located L bound.2) (limit : Nat) :
    Located L (e.parser limit) := by
  intro s w p parsed hw hp hresult
  exact (placed_start s hp).run hterminals hw hresult

end Executor

end Mixfix
