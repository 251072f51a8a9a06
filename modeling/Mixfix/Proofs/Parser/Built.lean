import Mixfix.Proofs.Executor.Spans

/-!
# Positions and spans of combinator parsers

The parsers that the combinators build, in any nesting, are located.  So their results lie where
they were read: from every valid place of a window a result ends at a valid place that is not
earlier, and its span lies between the two.  Its inner nodes are in order as far as the hooks of the
sections leave them so: a section takes over what its hook gives back.

* `Parser.Built`: the parsers that the combinators build with some hooks.
* `Parser.Built.located`: they are located, by induction on how they are built.
* `Parser.Built.spans_ordered`: where their results lie.
* `Parser.turnedPair_disordered`: a hook that keeps the span may turn the inner nodes around.
-/

namespace Mixfix

namespace Parser

open Mixfix.Window

variable {σ : Type} {parser : Parser σ} {parts : List (Parser σ)}

/-- The parsers that the combinators build with some hooks.  The bullet of a section moves
forward. -/
inductive Built (hooks : Hook σ → Prop) : Parser σ → Prop where
  | token (lexer : Lexer) (tag : String) : Built hooks (token lexer tag)
  | empty : Built hooks empty
  | seq {parts : List (Parser σ)} : (∀ parser ∈ parts, Built hooks parser) →
      Built hooks (seq parts)
  | choice {parts : List (Parser σ)} : (∀ parser ∈ parts, Built hooks parser) →
      Built hooks (choice parts)
  | many {parser : Parser σ} : Built hooks parser → Built hooks (many parser)
  | withKind {parser : Parser σ} (kind : Kind) : Built hooks parser →
      Built hooks (withKind kind parser)
  | discard {parser : Parser σ} : Built hooks parser → Built hooks (discard parser)
  | assertion (lexer : Lexer) (positive : Bool) : Built hooks (assertion lexer positive)
  | endOfLine : Built hooks endOfLine
  | lineBreak : Built hooks lineBreak
  | endOfWindow : Built hooks endOfWindow
  | deferred {resolve : σ → Window → Option (Parser σ)} :
      (∀ s w parser, resolve s w = some parser → Built hooks parser) →
      Built hooks (deferred resolve)
  | indented {bullet body : Parser σ} {hook : Option (Hook σ)} : Built hooks bullet →
      Advances bullet → Built hooks body → (∀ f ∈ hook, hooks f) →
      Built hooks (indented bullet body hook)
  | enumeration {parts : List (Parser σ)} : (∀ parser ∈ parts, Built hooks parser) →
      Built hooks (enumeration parts)
  | enumerationOrInvalid {parts : List (Parser σ)} (tag : String) :
      (∀ parser ∈ parts, Built hooks parser) → Built hooks (enumerationOrInvalid parts tag)
  | executor {e : Executor σ} (limit : Nat) : (∀ bound ∈ e.terminals, Built hooks bound.2) →
      Built hooks (e.parser limit)

namespace Built

variable {hooks : Hook σ → Prop}

theorem pair {first second : Parser σ} (h : Built hooks first) (h' : Built hooks second) :
    ∀ parser ∈ [first, second], Built hooks parser := by
  simp [h, h']

theorem optional (h : Built hooks parser) : Built hooks (optional parser) :=
  .choice (h.pair .empty)

theorem many1 (h : Built hooks parser) : Built hooks (many1 parser) := .seq (h.pair h.many)

theorem tagged (h : Built hooks parser) (tag : String) : Built hooks (tagged tag parser) :=
  .withKind _ h

theorem transparent (h : Built hooks parser) : Built hooks (transparent parser) := .withKind _ h

theorem ahead (lexer : Lexer) : Built hooks (ahead (σ := σ) lexer) := .assertion lexer true

theorem notAhead (lexer : Lexer) : Built hooks (notAhead (σ := σ) lexer) :=
  .assertion lexer false

theorem located {L : Node.Layout} (hspan : ∀ f, hooks f → KeepsSpan f)
    (hkeeps : ∀ f, hooks f → Keeps L.Fits f) (h : Built hooks parser) : Located L parser := by
  induction h with
  | token lexer tag => exact located_token lexer tag
  | empty => exact located_empty
  | seq _ ih => exact located_seq ih
  | choice _ ih => exact located_choice ih
  | many _ ih => exact ih.many
  | withKind kind _ ih => exact ih.withKind kind
  | discard _ ih => exact ih.discard
  | assertion lexer positive => exact located_assertion lexer positive
  | endOfLine => exact located_endOfLine
  | lineBreak => exact located_lineBreak
  | endOfWindow => exact located_endOfWindow
  | deferred _ ih => exact located_deferred ih
  | indented _ hforward _ hhook ihbullet ihbody =>
    exact located_indented ihbullet hforward ihbody (fun f hf => hspan f (hhook f hf))
      fun f hf => hkeeps f (hhook f hf)
  | enumeration _ ih => exact located_enumeration ih
  | enumerationOrInvalid tag _ ih => exact located_enumerationOrInvalid ih tag
  | executor limit _ ih => exact Executor.parser_located ih limit

theorem located_spans (h : Built KeepsSpan parser) : Located .spans parser := by
  refine h.located (fun _ => id) ?_
  intro f hspan s s' block node node' hresult hle
  show node'.span.start ≤ node'.span.stop
  rw [hspan hresult]
  exact hle

theorem located_nested (h : Built (fun f => KeepsSpan f ∧ Keeps Node.Nested f) parser) :
    Located .nested parser :=
  h.located (fun _ h => h.1) fun _ h => h.2

/-- **Positions and spans.** From a valid place of a window, over a source that shifts nothing and
cut in any way, a result ends at a valid place that is not earlier, and its span lies between the
two places of the text: all that hooks have to keep for this is the span.  Where they keep nodes
nested as well, the children of every node lie within its span, in order and without overlap, and
the tokens are in text order. -/
theorem spans_ordered (h : Built KeepsSpan parser) {source : Source} (hsource : source.place = id)
    {w : Window} (hw : Over source w) {s : σ} {p : Position} (hp : w.Valid p)
    {parsed : Parsed σ} (hresult : (parser s w p).result = .ok (some parsed)) :
    w.Valid parsed.stop ∧ p ≤ parsed.stop ∧
      w.absolute p ≤ parsed.node.span.start ∧ parsed.node.span.stop ≤ w.absolute parsed.stop ∧
      (Built (fun f => KeepsSpan f ∧ Keeps Node.Nested f) parser →
        parsed.node.Nested ∧
          parsed.node.allTokens.Pairwise fun t u => t.span.stop ≤ u.span.start) := by
  have hregular := hw.regular hsource
  have hcovers := h.located_spans hregular hp hresult
  obtain ⟨hstart, -, hstop⟩ := Node.ordered_cons.1 hcovers.ordered
  refine ⟨hcovers.valid, hcovers.le, hstart, Node.ordered_nil.1 hstop, fun h' => ?_⟩
  have hinner := h'.located_nested hregular hp hresult
  have hnested : parsed.node.Nested := (Node.ordered_cons.1 hinner.ordered).2.1
  exact ⟨hnested, hnested.tokens_ascending⟩

end Built

/-! ### An outline of lists -/

theorem advances_token {lexer : Lexer}
    (h : ∀ {line : Line} {i n : Nat}, lexer.lex line i = .ok (some n) → 0 < n) (tag : String) :
    Advances (token (σ := σ) lexer tag) := by
  intro s w p parsed hresult
  rw [token] at hresult
  split at hresult
  · obtain ⟨line, -, hresult⟩ := Traced.bind_eq_ok.1 hresult
    obtain ⟨found, hfound, hresult⟩ := Traced.bind_eq_ok.1 hresult
    cases found with
    | none => cases hresult
    | some n =>
      cases hresult
      exact .inr ⟨rfl, Nat.lt_add_of_pos_right (h hfound)⟩
  · cases hresult

theorem pos_of_lex_literal {text line : Line} {i n : Nat} (htext : 0 < byteSize text)
    (h : Lexer.lex line (.literal text) i = .ok (some n)) : 0 < n := by
  rw [Lexer.lex] at h
  split at h
  · cases h
  · obtain ⟨rest, -, h⟩ := except_map_eq_ok.1 h
    split at h
    · cases h
      exact htext
    · cases h

/-- A letter. -/
def mark (c : Char) : Parser Unit := token (.literal [c]) (String.singleton c)

/-- Lists of `b`, each after a possible `a`. -/
def markedLists : Executor Unit where
  table := Table.ofGrammar Executor.listGrammar
  terminals := [(⟨-1⟩, optional (mark 'a')), (⟨-2⟩, mark 'a'), (⟨-3⟩, mark 'b'),
    (.endOfInput, endOfWindow)]
  config := {}

/-- The tree of a section under another. -/
def wrapped : Option (Hook Unit) :=
  some fun s _ node => return some (s, .make (.tagged "item") node.span [node])

/-- Such lists after dashes, each under a tree. -/
def outline : Parser Unit :=
  enumerationOrInvalid [indented (mark '-') (markedLists.parser 20) wrapped] "invalid"

def outlineSource : Source := .ofText "x\n  -bab\n  é\ny"

/-- The block after the `x`: nothing, `-bab` and `é`. -/
def outlineWindow : Window := ⟨outlineSource, [⟨0, 1, 1⟩, ⟨1, 2, 6⟩, ⟨2, 2, 4⟩]⟩

/-- An item with the tree of `bab`, and an invalid block. -/
def outlineParsed : Parsed Unit where
  state := ()
  node := .tree .transparent ⟨⟨0, 1⟩, ⟨2, 4⟩⟩
    [.tree (.tagged "item") ⟨⟨1, 2⟩, ⟨1, 6⟩⟩
      [.token ⟨"-", ⟨⟨1, 2⟩, ⟨1, 3⟩⟩⟩,
        .tree (.tagged "L") ⟨⟨1, 3⟩, ⟨1, 6⟩⟩
          [.token ⟨"b", ⟨⟨1, 3⟩, ⟨1, 4⟩⟩⟩,
            .tree (.tagged "L") ⟨⟨1, 4⟩, ⟨1, 6⟩⟩
              [.token ⟨"a", ⟨⟨1, 4⟩, ⟨1, 5⟩⟩⟩, .token ⟨"b", ⟨⟨1, 5⟩, ⟨1, 6⟩⟩⟩]]],
      .tree (.tagged "invalid") ⟨⟨2, 2⟩, ⟨2, 4⟩⟩ []]
  stop := ⟨3, 0⟩

theorem built_outline {hooks : Hook Unit → Prop} (h : ∀ f ∈ wrapped, hooks f) :
    Built hooks outline := by
  have hmark : ∀ c, Built hooks (mark c) := fun c => .token _ _
  refine .enumerationOrInvalid "invalid" fun parser hparser => ?_
  rw [List.mem_singleton.1 hparser]
  refine .indented (hmark '-') ?_ (.executor 20 fun bound hbound => ?_) h
  · exact advances_token (fun h => pos_of_lex_literal (by decide) h) _
  · simp only [markedLists, List.mem_cons, List.not_mem_nil, or_false] at hbound
    rcases hbound with rfl | rfl | rfl | rfl
    · exact (hmark 'a').optional
    · exact hmark 'a'
    · exact hmark 'b'
    · exact .endOfWindow

theorem wrapped_keepsSpan : ∀ f ∈ wrapped, KeepsSpan f := by
  rintro f ⟨⟩ s s' block node node' h
  cases h
  rfl

theorem wrapped_keeps : ∀ f ∈ wrapped, Keeps Node.Nested f := by
  rintro f ⟨⟩ s s' block node node' h hnested
  cases h
  exact Node.Layout.nested.make (.tagged "item") node.span (Node.ordered_singleton hnested)

set_option maxRecDepth 4000 in
theorem outline_spans :
    Built KeepsSpan outline ∧ Over outlineSource outlineWindow ∧ outlineWindow.Valid .zero ∧
      (outline () outlineWindow .zero).result = .ok (some outlineParsed) ∧
      outlineWindow.Valid outlineParsed.stop ∧ .zero ≤ outlineParsed.stop ∧
      outlineWindow.absolute .zero ≤ outlineParsed.node.span.start ∧
      outlineParsed.node.span.stop ≤ outlineWindow.absolute outlineParsed.stop ∧
      Built (fun f => KeepsSpan f ∧ Keeps Node.Nested f) outline ∧
      outlineParsed.node.Nested ∧
      outlineParsed.node.allTokens.Pairwise fun t u => t.span.stop ≤ u.span.start := by
  have hspan : Built KeepsSpan outline := built_outline wrapped_keepsSpan
  have hinner : Built (fun f => KeepsSpan f ∧ Keeps Node.Nested f) outline :=
    built_outline fun f hf => ⟨wrapped_keepsSpan f hf, wrapped_keeps f hf⟩
  have hover : Over outlineSource outlineWindow := .block (p := ⟨0, 1⟩) .whole rfl
  have hline : outlineWindow.line 0 = .ok [] := rfl
  have hvalid : outlineWindow.Valid .zero := valid_of_line hline
  have hresult : (outline () outlineWindow .zero).result = .ok (some outlineParsed) := rfl
  obtain ⟨hstop, hle, hbegin, hend, hnested⟩ := hspan.spans_ordered rfl hover hvalid hresult
  exact ⟨hspan, hover, hvalid, hresult, hstop, hle, hbegin, hend, hinner, hnested hinner⟩

/-! ### A hook that turns nodes around -/

/-- The children of a section the other way around, over the same span. -/
def turned : Hook Unit :=
  fun s _ node => return some (s, .make .transparent node.span node.children.reverse)

/-- An `a` and a `b`, turned around. -/
def turnedPair : Parser Unit := indented (mark 'a') (mark 'b') (some turned)

def turnedParsed : Parsed Unit where
  state := ()
  node := .tree .transparent ⟨⟨0, 0⟩, ⟨0, 2⟩⟩
    [.token ⟨"b", ⟨⟨0, 1⟩, ⟨0, 2⟩⟩⟩, .token ⟨"a", ⟨⟨0, 0⟩, ⟨0, 1⟩⟩⟩]
  stop := ⟨1, 0⟩

theorem built_turnedPair : Built KeepsSpan turnedPair := by
  refine .indented (.token _ _) ?_ (.token _ _) ?_
  · exact advances_token (fun h => pos_of_lex_literal (by decide) h) _
  · rintro f ⟨⟩ s s' block node node' h
    cases h
    rfl

def turnedWindow : Window := ofSource (.ofText "ab")

/-- A hook that keeps the span may leave the inner nodes in another order: the tokens of `ab` come
out as `b` and `a`. -/
theorem turnedPair_disordered :
    Built KeepsSpan turnedPair ∧ (Source.ofText "ab").place = id ∧
      Over (.ofText "ab") turnedWindow ∧ turnedWindow.Valid .zero ∧
      (turnedPair () turnedWindow .zero).result = .ok (some turnedParsed) ∧
      ¬ turnedParsed.node.Nested ∧
      ¬ turnedParsed.node.allTokens.Pairwise fun t u => t.span.stop ≤ u.span.start := by
  have hline : turnedWindow.line 0 = .ok ['a', 'b'] := rfl
  have htokens : ¬ turnedParsed.node.allTokens.Pairwise
      fun t u => t.span.stop ≤ u.span.start := by
    have hall : turnedParsed.node.allTokens =
        [⟨"b", ⟨⟨0, 1⟩, ⟨0, 2⟩⟩⟩, ⟨"a", ⟨⟨0, 0⟩, ⟨0, 1⟩⟩⟩] := by
      simp [turnedParsed, Node.allTokens, Node.drain]
    rw [hall]
    decide
  exact ⟨built_turnedPair, rfl, .whole, valid_of_line hline, rfl,
    fun hnested => htokens hnested.tokens_ascending, htokens⟩

end Parser

end Mixfix
