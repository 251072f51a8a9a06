import Mixfix.Parser.Section
import Mixfix.Proofs.Node
import Mixfix.Proofs.Window.Places

/-!
# Spans of parsed results

A parser is located when its results end at a valid place, no earlier than they begin, and lie in
order in the text between the two, in a given layout: each with its span alone, or with its inner
nodes in order too.  Every combinator keeps this.  A section leaves its window for that of its block
and comes back at the line after it, so its bullet has to move forward: past the last line there is
no block to come back from.  What a hook makes of the node of a section is taken over as it is, so
the hook has to keep the span and the layout.

* `Window.Covers`: results in order from one place of a window to another.
* `Parser.Located`: every result of a parser covers the way to its end.
* `Parser.located_seq`, `Parser.located_many` and so on: the combinators, one by one.
* `Parser.located_indented`, `Parser.located_enumeration`: sections.
-/

namespace Mixfix

theorem Span.cover_eq {s t : Span} (hstart : s.start ≤ t.start) (hstop : s.stop ≤ t.stop) :
    s.cover t = ⟨s.start, t.stop⟩ := by
  rw [cover]
  congr 1
  · exact if_pos hstart
  · exact if_pos hstop

/-- Results in order from one place of a window to another, in a layout. -/
structure Window.Covers (L : Node.Layout) (w : Window) (p : Position) (nodes : List Node)
    (stop : Position) : Prop where
  valid : w.Valid stop
  le : p ≤ stop
  ordered : Node.Ordered L.Fits (w.absolute p) nodes (w.absolute stop)

namespace Window.Covers

variable {L : Node.Layout} {w : Window} {p q r : Position} {n m : Node} {nodes others : List Node}

theorem refl (hp : w.Valid p) : Covers L w p [] p :=
  ⟨hp, Position.le_refl p, Node.ordered_nil.2 (Position.le_refl _)⟩

theorem append (h : Covers L w p nodes q) (h' : Covers L w q others r) :
    Covers L w p (nodes ++ others) r :=
  ⟨h'.valid, Position.le_trans h.le h'.le, Node.ordered_append.2 ⟨_, h.ordered, h'.ordered⟩⟩

/-- A way without results. -/
theorem of_le (hw : w.Regular) (hp : w.Valid p) (hq : w.Valid q) (h : p ≤ q) :
    Covers L w p [] q :=
  ⟨hq, h, Node.ordered_nil.2 (hw.absolute_mono hp hq h)⟩

/-- A tree over the whole way takes the place of its children. -/
theorem make (h : Covers L w p nodes q) (kind : Kind) :
    Covers L w p [.make kind (w.spanBetween p q) nodes] q :=
  ⟨h.valid, h.le, Node.ordered_singleton (L.make kind (w.spanBetween p q) h.ordered)⟩

/-- A result of the same span takes the place of another. -/
theorem replace (h : Covers L w p [n] q) (hspan : m.span = n.span) (hm : L.Fits n → L.Fits m) :
    Covers L w p [m] q := by
  obtain ⟨hstart, hn, hstop⟩ := Node.ordered_cons.1 h.ordered
  refine ⟨h.valid, h.le, Node.ordered_cons.2 ⟨hspan ▸ hstart, hm hn, ?_⟩⟩
  rwa [hspan]

end Window.Covers

namespace Parser

open Window

variable {σ : Type} {L : Node.Layout} {parser : Parser σ} {parsers : List (Parser σ)} {s : σ}
  {w : Window} {p : Position}

/-- Every result of the parser ends at a valid place, no earlier than it begins, and lies in order
between the two. -/
def Located (L : Node.Layout) (parser : Parser σ) : Prop :=
  ∀ ⦃s : σ⦄ ⦃w : Window⦄ ⦃p : Position⦄ ⦃parsed : Parsed σ⦄, w.Regular → w.Valid p →
    (parser s w p).result = .ok (some parsed) → Covers L w p [parsed.node] parsed.stop

/-! ### Single results -/

theorem covers_nothing (hp : w.Valid p) : Covers L w p [(nothing s w p).node] p :=
  (Covers.refl hp).make .transparent

theorem located_empty : Located L (empty (σ := σ)) := by
  rintro s w p parsed - hp h
  cases h
  exact covers_nothing hp

theorem located_token (lexer : Lexer) (tag : String) :
    Located L (token (σ := σ) lexer tag) := by
  intro s w p parsed hw hp h
  rw [token] at h
  split at h
  · next hlt =>
    obtain ⟨line, hline, h⟩ := Traced.bind_eq_ok.1 h
    obtain ⟨found, hfound, h⟩ := Traced.bind_eq_ok.1 h
    cases found with
    | none => cases h
    | some n =>
      cases h
      obtain ⟨rest, -, line', hline', hrest⟩ := hp.ahead hlt
      cases hline'.symm.trans hline
      obtain ⟨rest', hrest'⟩ := Option.isSome_iff_exists.1
        (Lexer.isSome_dropBytes_of_lex (by rw [hrest]; rfl) hfound)
      have hstop : w.Valid ⟨p.line, p.offset + n⟩ := .inl ⟨rest', hlt, line, hline, hrest'⟩
      have hle : p ≤ ⟨p.line, p.offset + n⟩ := .inr ⟨rfl, Nat.le_add_right _ _⟩
      have hspan := hw.absolute_mono hp hstop hle
      have hfits : L.Fits (.token ⟨tag, w.spanBetween p ⟨p.line, p.offset + n⟩⟩) :=
        L.token hspan
      exact ⟨hstop, hle, Node.ordered_singleton hfits⟩
  · cases h

theorem located_assertion (lexer : Lexer) (positive : Bool) :
    Located L (assertion (σ := σ) lexer positive) := by
  intro s w p parsed hw hp h
  obtain ⟨text, -, h⟩ := Traced.bind_eq_ok.1 h
  obtain ⟨found, -, h⟩ := Traced.bind_eq_ok.1 h
  split at h
  · cases h
    exact covers_nothing hp
  · cases h

theorem located_endOfLine : Located L (endOfLine (σ := σ)) := by
  intro s w p parsed hw hp h
  obtain ⟨done, -, h⟩ := Traced.bind_eq_ok.1 h
  cases done with
  | false => cases h
  | true =>
    cases h
    exact covers_nothing hp

theorem located_endOfWindow : Located L (endOfWindow (σ := σ)) := by
  intro s w p parsed hw hp h
  obtain ⟨done, -, h⟩ := Traced.bind_eq_ok.1 h
  cases done with
  | false => cases h
  | true =>
    cases h
    exact covers_nothing hp

/-- The first line that is not blank, or the end of the window, is a valid place. -/
theorem valid_of_skipBlank {i : Nat} {found : Option Nat} (hi : i ≤ w.count)
    (h : w.skipBlank i = .ok found) :
    w.Valid ⟨found.getD w.count, 0⟩ ∧ i ≤ found.getD w.count := by
  cases found with
  | none => exact ⟨w.valid_stop, hi⟩
  | some j =>
    obtain ⟨hle, hfilled⟩ := firstFilled_eq_some h
    exact ⟨hfilled.valid, hle⟩

theorem located_lineBreak : Located L (lineBreak (σ := σ)) := by
  intro s w p parsed hw hp h
  rw [lineBreak] at h
  split at h
  · next hlt =>
    obtain ⟨done, -, h⟩ := Traced.bind_eq_ok.1 h
    cases done with
    | false => cases h
    | true =>
      obtain ⟨found, hfound, h⟩ := Traced.bind_eq_ok.1 h
      cases h
      obtain ⟨hvalid, hle⟩ := valid_of_skipBlank hlt hfound
      exact (Covers.of_le hw hp hvalid (.inl hle)).make .discard
  · cases h

theorem Located.withKind (h : Located L parser) (kind : Kind) :
    Located L (withKind kind parser) := by
  intro s w p parsed hw hp hresult
  obtain ⟨answer, hanswer, hresult⟩ := Traced.bind_eq_ok.1 hresult
  obtain ⟨inner, rfl, rfl⟩ := Option.map_eq_some_iff.1 (Except.ok.inj hresult)
  exact (h hw hp hanswer).replace rfl fun hfits =>
    L.make kind _ (Node.ordered_singleton hfits)

theorem Located.discard (h : Located L parser) : Located L (discard parser) := by
  intro s w p parsed hw hp hresult
  obtain ⟨answer, hanswer, hresult⟩ := Traced.bind_eq_ok.1 hresult
  obtain ⟨inner, rfl, rfl⟩ := Option.map_eq_some_iff.1 (Except.ok.inj hresult)
  exact (h hw hp hanswer).replace rfl fun hfits =>
    L.make .discard _ (Node.ordered_nil.2 (L.le hfits))

theorem located_deferred {resolve : σ → Window → Option (Parser σ)}
    (h : ∀ s w parser, resolve s w = some parser → Located L parser) :
    Located L (deferred resolve) := by
  intro s w p parsed hw hp hresult
  rw [deferred] at hresult
  split at hresult
  · cases hresult
  · next parser hparser => exact h s w parser hparser hw hp hresult

/-! ### Rows and choices -/

theorem inTurn_covers (h : ∀ parser ∈ parsers, Located L parser) (hw : w.Regular) {last : σ}
    {nodes : List Node} {stop : Position} (hp : w.Valid p)
    (hresult : (inTurn parsers s w p).result = .ok (some (last, nodes, stop))) :
    Covers L w p nodes stop := by
  induction parsers generalizing s p nodes with
  | nil =>
    cases hresult
    exact .refl hp
  | cons parser parsers ih =>
    obtain ⟨answer, hanswer, hresult⟩ := Traced.bind_eq_ok.1 hresult
    cases answer with
    | none => cases hresult
    | some parsed =>
      obtain ⟨others, hothers, hresult⟩ := Traced.bind_eq_ok.1 hresult
      cases others with
      | none => cases hresult
      | some others =>
        cases hresult
        have hfirst := h parser List.mem_cons_self hw hp hanswer
        exact hfirst.append (ih (fun other hother => h other (List.mem_cons_of_mem _ hother))
          hfirst.valid hothers)

theorem located_seq (h : ∀ parser ∈ parsers, Located L parser) : Located L (seq parsers) := by
  intro s w p parsed hw hp hresult
  obtain ⟨answer, hanswer, hresult⟩ := Traced.bind_eq_ok.1 hresult
  obtain ⟨⟨last, nodes, stop⟩, rfl, rfl⟩ := Option.map_eq_some_iff.1 (Except.ok.inj hresult)
  exact (inTurn_covers h hw hp hanswer).make .transparent

theorem located_choice (h : ∀ parser ∈ parsers, Located L parser) : Located L (choice parsers) := by
  intro s w p parsed hw hp hresult
  induction parsers with
  | nil => cases hresult
  | cons parser parsers ih =>
    obtain ⟨answer, hanswer, hresult⟩ := Traced.bind_eq_ok.1 hresult
    cases answer with
    | some parsed' =>
      cases hresult
      exact h parser List.mem_cons_self hw hp hanswer
    | none => exact ih (fun other hother => h other (List.mem_cons_of_mem _ hother)) hresult

theorem iterate_covers (h : Located L parser) (hw : w.Regular) {bound : Nat} {last : σ}
    {nodes : List Node} {stop : Position} (hp : w.Valid p)
    (hresult : (iterate parser bound s w p).result = .ok (last, nodes, stop)) :
    Covers L w p nodes stop := by
  induction bound generalizing s p nodes with
  | zero => cases hresult
  | succ bound ih =>
    obtain ⟨answer, hanswer, hresult⟩ := Traced.bind_eq_ok.1 hresult
    cases answer with
    | none =>
      cases hresult
      exact .refl hp
    | some parsed =>
      dsimp only at hresult
      split at hresult
      · cases hresult
      · obtain ⟨⟨last', nodes', stop'⟩, hothers, hresult⟩ := Traced.bind_eq_ok.1 hresult
        cases hresult
        have hfirst := h hw hp hanswer
        exact hfirst.append (ih hfirst.valid hothers)

theorem Located.many (h : Located L parser) : Located L (many parser) := by
  intro s w p parsed hw hp hresult
  obtain ⟨⟨last, nodes, stop⟩, hrow, hresult⟩ := Traced.bind_eq_ok.1 hresult
  cases hresult
  exact (iterate_covers h hw hp hrow).make .transparent

/-! ### Sections -/

/-- Every success of the parser moves forward. -/
def Advances (parser : Parser σ) : Prop :=
  ∀ ⦃s : σ⦄ ⦃w : Window⦄ ⦃p : Position⦄ ⦃parsed : Parsed σ⦄,
    (parser s w p).result = .ok (some parsed) → p < parsed.stop

/-- What the hook gives back has the span of the section. -/
def KeepsSpan (hook : Hook σ) : Prop :=
  ∀ ⦃s s' : σ⦄ ⦃block : Window⦄ ⦃node node' : Node⦄,
    (hook s block node).result = .ok (some (s', node')) → node'.span = node.span

/-- What the hook gives back for a node with a property has it too. -/
def Keeps (fits : Node → Prop) (hook : Hook σ) : Prop :=
  ∀ ⦃s s' : σ⦄ ⦃block : Window⦄ ⦃node node' : Node⦄,
    (hook s block node).result = .ok (some (s', node')) → fits node → fits node'

theorem result_of_complete {body : Parser σ} {block : Window} {content : Parsed σ}
    (h : (body.complete s block).result = .ok (some content)) :
    (body s block .zero).result = .ok (some content) := by
  obtain ⟨answer, hanswer, h⟩ := Traced.bind_eq_ok.1 h
  cases answer with
  | none => cases h
  | some parsed =>
    obtain ⟨done, -, h⟩ := Traced.bind_eq_ok.1 h
    cases done with
    | false => cases h
    | true =>
      cases h
      exact hanswer

/-- What a bullet and the block after it cover, as one tree. -/
theorem covers_section {block : Window} {head content : Node} {mid stop : Position}
    (hw : w.Regular) (hhead : Covers L w p [head] mid) {rest : Line} (hmid : w.Ahead mid rest)
    (hline : mid.line = p.line) (hblock : w.IsBlock mid block)
    (hcontent : Covers L block .zero [content] stop) :
    Covers L w p [.make .transparent
      (((Span.point (w.absolute p)).cover head.span).cover content.span) [head, content]]
      ⟨p.line + block.count, 0⟩ := by
  obtain ⟨hstart, hfits, hstop⟩ := Node.ordered_cons.1 hhead.ordered
  obtain ⟨hstart', hfits', hstop'⟩ := Node.ordered_cons.1 hcontent.ordered
  rw [hblock.absolute_zero hw hmid] at hstart'
  have hgap : head.span.stop ≤ content.span.start :=
    Position.le_trans (Node.ordered_nil.1 hstop) hstart'
  have hspan : ((Span.point (w.absolute p)).cover head.span).cover content.span =
      ⟨w.absolute p, content.span.stop⟩ := by
    rw [Span.cover_eq hstart (Position.le_trans hstart (L.le hfits))]
    exact Span.cover_eq (Position.le_trans hstart (Position.le_trans (L.le hfits) hgap))
      (Position.le_trans hgap (L.le hfits'))
  have hrow : Node.Ordered L.Fits (w.absolute p) [head, content] content.span.stop :=
    Node.ordered_cons.2 ⟨hstart, hfits, Node.ordered_cons.2
      ⟨hgap, hfits', Node.ordered_nil.2 (Position.le_refl _)⟩⟩
  have hend := Position.le_trans (Node.ordered_nil.1 hstop')
    (hblock.absolute_le hw hcontent.valid)
  rw [hspan, ← hline]
  refine ⟨hblock.valid_next, .inl ?_, ?_⟩
  · have := hblock.pos
    show p.line < mid.line + block.count
    omega
  · have hnode : L.Fits (.make .transparent ⟨w.absolute p, content.span.stop⟩ [head, content]) :=
      L.make .transparent _ hrow
    exact (Node.ordered_singleton hnode).widen (Position.le_refl _) hend

theorem located_indented {bullet body : Parser σ} {hook : Option (Hook σ)}
    (hbullet : Located L bullet) (hforward : Advances bullet) (hbody : Located L body)
    (hspan : ∀ f ∈ hook, KeepsSpan f) (hkeeps : ∀ f ∈ hook, Keeps L.Fits f) :
    Located L (indented bullet body hook) := by
  intro s w p parsed hw hp h
  obtain ⟨answer, hanswer, h⟩ := Traced.bind_eq_ok.1 h
  cases answer with
  | none => cases h
  | some head =>
    dsimp only at h
    split at h
    · cases h
    · next hline =>
      have hline : head.stop.line = p.line := Decidable.not_not.1 hline
      have hhead := hbullet hw hp hanswer
      have hlt : p.line < w.count := by
        have hlast := hhead.valid.le_stop
        rcases hforward hanswer with hlt | ⟨-, hlt⟩
        · exact absurd hlt (by omega)
        · rcases hlast with hlast | ⟨-, hlast⟩
          · exact hline ▸ hlast
          · exact absurd hlast (by show ¬ head.stop.offset ≤ 0; omega)
      obtain ⟨rest, hmid⟩ := hhead.valid.ahead (hline ▸ hlt)
      obtain ⟨block, hcut, h⟩ := Traced.bind_eq_ok.1 h
      have hcut : w.cutBlock head.stop = .ok block := by
        rw [← hline] at hcut
        exact hcut
      have hblock := isBlock_of_cutBlock hmid.1 hcut
      obtain ⟨answer, hcomplete, h⟩ := Traced.bind_eq_ok.1 h
      cases answer with
      | none => cases h
      | some content =>
        have hcontent := hbody (hw.of_isBlock hblock) (hblock.valid_zero hmid)
          (result_of_complete hcomplete)
        have hsection := covers_section hw hhead hmid hline hblock hcontent
        cases hook with
        | none =>
          cases h
          exact hsection
        | some f =>
          obtain ⟨answer, hhooked, h⟩ := Traced.bind_eq_ok.1 h
          obtain ⟨⟨s', node'⟩, rfl, rfl⟩ := Option.map_eq_some_iff.1 (Except.ok.inj h)
          exact hsection.replace (hspan f rfl hhooked) (hkeeps f rfl hhooked)

theorem sectionStart_eq_some {start : Position} (hp : w.Valid p)
    (h : sectionStart w p = .ok (some start)) :
    p ≤ start ∧ ∃ rest, w.Ahead start rest := by
  rw [sectionStart] at h
  split at h
  · next hzero =>
    obtain ⟨found, hfound, h⟩ := except_bind_eq_ok.1 h
    obtain ⟨j, rfl, rfl⟩ := Option.map_eq_some_iff.1 (Except.ok.inj h)
    obtain ⟨hle, hfilled⟩ := firstFilled_eq_some hfound
    refine ⟨?_, hfilled.valid.ahead hfilled.lt_count⟩
    rcases Nat.lt_or_eq_of_le hle with hlt | heq
    · exact .inl hlt
    · exact .inr ⟨heq, Nat.le_of_eq hzero⟩
  · next hzero =>
    cases h
    refine ⟨Position.le_refl p, ?_⟩
    rcases hp with hp | rfl
    · exact hp
    · exact absurd rfl hzero

/-- A block that no section accepts covers the way to the line after it. -/
theorem covers_invalidBlock {tag : String} {node : Node} {next : Position} {rest : Line}
    (hw : w.Regular) (hp : w.Ahead p rest) (h : invalidBlock w tag p = .ok (node, next)) :
    Covers L w p [node] next := by
  obtain ⟨block, hcut, h⟩ := except_bind_eq_ok.1 h
  obtain ⟨stop, hstop, h⟩ := except_bind_eq_ok.1 h
  cases h
  have hblock := isBlock_of_cutBlock hp.1 hcut
  have hregular := hw.of_isBlock hblock
  have hzero := hblock.valid_zero hp
  have hend : block.Valid stop := by
    have hpos := hblock.pos
    rw [Window.stop] at hstop
    cases hcount : block.count with
    | zero => exact absurd hpos (by omega)
    | succ n =>
      rw [hcount] at hstop
      obtain ⟨text, htext, rfl⟩ := except_map_eq_ok.1 hstop
      have hall := dropBytes_size_append text []
      rw [List.append_nil] at hall
      exact .inl ⟨[], lt_count_of_line htext, text, htext, hall⟩
  have hle : Position.zero ≤ stop := by
    rw [Position.le_iff, Position.zero]
    show 0 < stop.line ∨ 0 = stop.line ∧ 0 ≤ stop.offset
    omega
  refine ⟨hblock.valid_next, .inl (Nat.lt_add_of_pos_right hblock.pos), ?_⟩
  have hway : Covers L block .zero [] stop := .of_le hregular hzero hend hle
  have hinner := (hway.make (.tagged tag)).ordered
  rw [← hblock.absolute_zero hw hp]
  exact hinner.widen (Position.le_refl _) (hblock.absolute_le hw hend)

theorem sections_covers {invalid : Option String} (h : ∀ parser ∈ parsers, Located L parser)
    (hw : w.Regular) {bound : Nat} {last : σ} {nodes : List Node} {stop : Position}
    (hp : w.Valid p)
    (hresult : (sections parsers invalid bound s w p).result = .ok (last, nodes, stop)) :
    Covers L w p nodes stop := by
  induction bound generalizing s p nodes with
  | zero => cases hresult
  | succ bound ih =>
    obtain ⟨found, hfound, hresult⟩ := Traced.bind_eq_ok.1 hresult
    cases found with
    | none =>
      cases hresult
      exact .refl hp
    | some start =>
      obtain ⟨hle, rest, hstart⟩ := sectionStart_eq_some hp hfound
      have hvalid : w.Valid start := .inl ⟨rest, hstart⟩
      have hgap : Covers L w p [] start := .of_le hw hp hvalid hle
      obtain ⟨answer, hanswer, hresult⟩ := Traced.bind_eq_ok.1 hresult
      cases answer with
      | some parsed =>
        dsimp only at hresult
        split at hresult
        · cases hresult
        · obtain ⟨⟨last', nodes', stop'⟩, hothers, hresult⟩ := Traced.bind_eq_ok.1 hresult
          cases hresult
          have hfirst := located_choice h hw hvalid hanswer
          exact (hgap.append hfirst).append (ih hfirst.valid hothers)
      | none =>
        cases invalid with
        | none =>
          cases hresult
          exact .refl hp
        | some tag =>
          obtain ⟨⟨node, next⟩, hblock, hresult⟩ := Traced.bind_eq_ok.1 hresult
          obtain ⟨⟨last', nodes', stop'⟩, hothers, hresult⟩ := Traced.bind_eq_ok.1 hresult
          cases hresult
          have hfirst : Covers L w start [node] next := covers_invalidBlock hw hstart hblock
          exact (hgap.append hfirst).append (ih hfirst.valid hothers)

theorem located_enumeration (h : ∀ parser ∈ parsers, Located L parser) :
    Located L (enumeration parsers) := by
  intro s w p parsed hw hp hresult
  obtain ⟨⟨last, nodes, stop⟩, hrow, hresult⟩ := Traced.bind_eq_ok.1 hresult
  cases hresult
  exact (sections_covers h hw hp hrow).make .transparent

theorem located_enumerationOrInvalid (h : ∀ parser ∈ parsers, Located L parser) (tag : String) :
    Located L (enumerationOrInvalid parsers tag) := by
  intro s w p parsed hw hp hresult
  obtain ⟨⟨last, nodes, stop⟩, hrow, hresult⟩ := Traced.bind_eq_ok.1 hresult
  cases hresult
  exact (sections_covers h hw hp hrow).make .transparent

end Parser

end Mixfix
