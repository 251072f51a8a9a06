import Mixfix.Proofs.Terminal.Exclusion

/-!
# Terminals always answer

Every line of a whole source can be read. From a place between characters, the parser of a terminal
gives an answer; what it takes ends between characters again, and leaves the user's state alone.

* `Window.Legible`: every line can be read.
* `Window.Boundary`: a place between characters.
* `Window.skipBlank_spec`: the first line that is not blank.
* `Terminal.parser_answers`: a terminal answers.
-/

namespace Mixfix

/-- The first bytes of a line, as many as a part in front of it has, are that part. -/
theorem takeBytes_size_append (s t : Line) : takeBytes (byteSize s) (s ++ t) = some s := by
  induction s with
  | nil => cases t <;> rfl
  | cons c s ih =>
    have hc : 0 < c.utf8Size := Char.utf8Size_pos c
    obtain ⟨n, hn⟩ : ∃ n, c.utf8Size + byteSize s = n + 1 :=
      ⟨c.utf8Size + byteSize s - 1, by omega⟩
    rw [byteSize_cons, hn, List.cons_append, takeBytes, if_pos (by omega)]
    rw [show n + 1 - c.utf8Size = byteSize s by omega, ih]
    rfl

namespace Window

/-! ### Reading lines -/

/-- Every line can be read. -/
def Legible (w : Window) : Prop := ∀ i < w.count, ∃ line, w.line i = .ok line

theorem legible_ofSource (source : Source) : (ofSource source).Legible := by
  intro i hi
  rw [count, ofSource, List.length_mapIdx] at hi
  refine ⟨source.lines[i], ?_⟩
  have hrow : (ofSource source).rows[i]? = some ⟨i, 0, byteSize source.lines[i]⟩ := by
    rw [ofSource, List.getElem?_mapIdx, List.getElem?_eq_getElem hi]
    rfl
  have hslice : sliceBytes 0 (byteSize source.lines[i]) source.lines[i] =
      some source.lines[i] := by
    rw [sliceBytes, if_pos (Nat.zero_le _), dropBytes_zero]
    simpa using takeBytes_size_append source.lines[i] []
  have hline : (ofSource source).source.lines[i]? = some source.lines[i] :=
    List.getElem?_eq_getElem hi
  rw [line, hrow]
  dsimp only
  rw [rowText, hline]
  dsimp only
  rw [hslice]

/-- A place between characters, or past the last line. -/
def Boundary (w : Window) (p : Position) : Prop := p.line < w.count → ∃ rest, w.Ahead p rest

variable {w : Window}

theorem Ahead.boundary {p : Position} {rest : Line} (h : w.Ahead p rest) : w.Boundary p :=
  fun _ => ⟨rest, h⟩

/-! ### Blank lines -/

/-- The line is there and has blank characters only. -/
def Blank (w : Window) (i : Nat) : Prop := w.isBlankLine i = .ok true

/-- The line is there and has a character that is not blank. -/
def Filled (w : Window) (i : Nat) : Prop := w.isBlankLine i = .ok false

theorem isBlankLine_of_line {i : Nat} {text : Line} (h : w.line i = .ok text) :
    w.isBlankLine i = .ok (allBlank text) := by
  rw [isBlankLine, h]
  rfl

theorem Filled.not_blank {i : Nat} (h : w.Filled i) : ¬ w.Blank i := by
  rw [Blank, h]
  simp

theorem Filled.lt_count {i : Nat} (h : w.Filled i) : i < w.count := by
  refine Nat.lt_of_not_le fun hi => ?_
  rw [Filled, isBlankLine, line, List.getElem?_eq_none hi] at h
  cases h

theorem Legible.blank_or_filled (hw : w.Legible) {i : Nat} (hi : i < w.count) :
    w.Blank i ∨ w.Filled i := by
  obtain ⟨text, htext⟩ := hw i hi
  rw [Blank, Filled, isBlankLine_of_line htext]
  cases allBlank text <;> simp

theorem firstFilled_spec (hw : w.Legible) {n i : Nat} (hn : i + n ≤ w.count) :
    (w.firstFilled n i = .ok none ∧ ∀ k, i ≤ k → k < i + n → w.Blank k) ∨
      ∃ j, w.firstFilled n i = .ok (some j) ∧ i ≤ j ∧ w.Filled j ∧
        ∀ k, i ≤ k → k < j → w.Blank k := by
  induction n generalizing i with
  | zero => exact .inl ⟨rfl, fun k hk hlt => by omega⟩
  | succ n ih =>
    rw [firstFilled]
    rcases hw.blank_or_filled (i := i) (by omega) with hblank | hfilled
    · have hfront : ∀ {j}, (∀ k, i + 1 ≤ k → k < j → w.Blank k) →
          ∀ k, i ≤ k → k < j → w.Blank k := by
        intro j h k hk hlt
        rcases Nat.eq_or_lt_of_le hk with rfl | hk
        · exact hblank
        · exact h k hk hlt
      have hblank' : w.isBlankLine i = .ok true := hblank
      rw [hblank']
      rcases ih (i := i + 1) (by omega) with ⟨hnone, hall⟩ | ⟨j, hsome, hj, hfilled, hall⟩
      · refine .inl ⟨hnone, hfront fun k hk hlt => hall k hk (by omega)⟩
      · exact .inr ⟨j, hsome, by omega, hfilled, hfront hall⟩
    · have hfilled' : w.isBlankLine i = .ok false := hfilled
      rw [hfilled']
      exact .inr ⟨i, rfl, Nat.le_refl i, hfilled, fun k hk hlt => by omega⟩

/-- Skipping blank lines comes to the first line that is not blank, or to the end. -/
theorem skipBlank_spec (hw : w.Legible) (i : Nat) :
    (w.skipBlank i = .ok none ∧ ∀ k, i ≤ k → k < w.count → w.Blank k) ∨
      ∃ j, w.skipBlank i = .ok (some j) ∧ i ≤ j ∧ w.Filled j ∧
        ∀ k, i ≤ k → k < j → w.Blank k := by
  rw [skipBlank]
  rcases Nat.le_total i w.count with hi | hi
  · have hspec := firstFilled_spec hw (n := w.count - i) (i := i) (by omega)
    rwa [Nat.add_sub_cancel' hi] at hspec
  · rw [Nat.sub_eq_zero_of_le hi]
    exact .inl ⟨rfl, fun k hk hlt => by omega⟩

namespace Legible

theorem isDone (h : w.Legible) (p : Position) : ∃ done, w.isDone p = .ok done := by
  obtain ⟨rest, hrest⟩ : ∃ rest, w.rest p = .ok rest := by
    rw [Window.rest]
    split
    · next hlt =>
      obtain ⟨line, hline⟩ := h _ hlt
      exact ⟨_, by rw [hline]; rfl⟩
    · exact ⟨[], rfl⟩
  obtain ⟨answer, hanswer⟩ : ∃ answer, w.skipBlank (p.line + 1) = .ok answer := by
    rcases skipBlank_spec h (p.line + 1) with ⟨hnone, -⟩ | ⟨next, hnext, -⟩
    · exact ⟨none, hnone⟩
    · exact ⟨some next, hnext⟩
  rw [Window.isDone, lineIsDone, hrest, hanswer]
  cases hblank : allBlank rest with
  | true => exact ⟨answer.isNone, by simp [Except.map, hblank]; rfl⟩
  | false => exact ⟨false, by simp [Except.map, hblank]; rfl⟩

end Legible

end Window

namespace Terminal

open Lexer Window

variable {σ : Type} {all : List String} {w : Window} {p : Position}

/-! ### Lexers -/

/-- What a lexer takes of the rest of a line, in bytes, is a part in front of it. -/
def Prefixes (n : Option Nat) (rest : Line) : Prop :=
  ∀ k ∈ n, ∃ front back, rest = front ++ back ∧ byteSize front = k

theorem prefixes_literal (text : String) (rest : Line) :
    Prefixes (if literalAt all text rest then some (byteSize text.toList) else none) rest := by
  intro k hk
  split at hk
  · next hliteral =>
    cases hk
    rw [literalAt, wordAt, Bool.and_eq_true, Bool.and_eq_true] at hliteral
    obtain ⟨back, hback⟩ := List.isPrefixOf_iff_prefix.1 hliteral.1.1
    exact ⟨text.toList, back, hback.symm, rfl⟩
  · cases hk

theorem prefixes_identifier (rest : Line) :
    Prefixes (if all.any fun text => wordAt text.toList rest then none else identifierAt rest)
      rest := by
  intro k hk
  split at hk
  · cases hk
  · cases rest with
    | nil => cases hk
    | cons c rest =>
      rw [identifierAt] at hk
      split at hk
      · cases hk
        refine ⟨c :: rest.takeWhile isWordChar, rest.dropWhile isWordChar, ?_, rfl⟩
        rw [List.cons_append, List.takeWhile_append_dropWhile]
      · cases hk

/-! ### Parsers -/

/-- The parser answers at a place: with nothing, or with a token that ends between characters and
leaves the user's state alone. -/
def Answers (parser : Parser σ) (w : Window) (p : Position) : Prop :=
  ∀ s, ∃ answer, (parser s w p).result = .ok answer ∧
    ∀ parsed ∈ answer, parsed.state = s ∧ w.Boundary parsed.stop

theorem token_answers (hp : w.Boundary p) {lexer : Lexer} (tag : String)
    (hlexer : ∀ {line rest}, dropBytes p.offset line = some rest →
      ∃ n, lexer.lex line p.offset = .ok n ∧ Prefixes n rest) :
    Answers (Parser.token (σ := σ) lexer tag) w p := by
  intro s
  by_cases hlt : p.line < w.count
  · obtain ⟨rest, -, line, hline, hrest⟩ := hp hlt
    obtain ⟨n, hn, hfront⟩ := hlexer hrest
    cases n with
    | none =>
      refine ⟨none, ?_, fun _ h => nomatch h⟩
      rw [Parser.token, if_pos hlt]
      exact Traced.bind_eq_ok.2 ⟨line, hline, Traced.bind_eq_ok.2 ⟨none, hn, rfl⟩⟩
    | some k =>
      obtain ⟨front, back, rfl, rfl⟩ := hfront k rfl
      have hresult : (Parser.token lexer tag s w p).result =
          .ok (some ⟨s, .token ⟨tag, w.spanBetween p ⟨p.line, p.offset + byteSize front⟩⟩,
            ⟨p.line, p.offset + byteSize front⟩⟩) := by
        rw [Parser.token, if_pos hlt]
        exact Traced.bind_eq_ok.2 ⟨line, hline, Traced.bind_eq_ok.2 ⟨_, hn, rfl⟩⟩
      refine ⟨_, hresult, fun parsed hparsed => ?_⟩
      cases hparsed
      exact ⟨rfl, (Ahead.advance ⟨hlt, line, hline, hrest⟩).boundary⟩
  · refine ⟨none, ?_, fun _ h => nomatch h⟩
    rw [Parser.token, if_neg hlt]
    rfl

/-- Spaces and tabs have one byte each. -/
theorem byteSize_takeWhile_isIndent (line : Line) :
    byteSize (line.takeWhile isIndent) = (line.takeWhile isIndent).length := by
  induction line with
  | nil => rfl
  | cons c line ih =>
    rw [List.takeWhile_cons]
    split
    · next hc =>
      have hsize : c.utf8Size = 1 := by
        rw [isIndent, Bool.or_eq_true, beq_iff_eq, beq_iff_eq] at hc
        rcases hc with rfl | rfl <;> rfl
      rw [byteSize_cons, ih, hsize, List.length_cons, Nat.add_comm]
    · rfl

theorem exists_indentation (hw : w.Legible) {i : Nat} (hi : i < w.count) :
    ∃ n, w.indentation i = .ok n ∧ w.Boundary ⟨i, n⟩ := by
  obtain ⟨line, hline⟩ := hw i hi
  refine ⟨(line.takeWhile isIndent).length, by rw [indentation, hline]; rfl, fun _ => ?_⟩
  refine ⟨line.dropWhile isIndent, hi, line, hline, ?_⟩
  have hcut := dropBytes_size_append (line.takeWhile isIndent) (line.dropWhile isIndent)
  rwa [List.takeWhile_append_dropWhile, byteSize_takeWhile_isIndent] at hcut

theorem exists_blanksEnd (hw : w.Legible) {rest : Line} (h : w.Ahead p rest) :
    ∃ stop, blanksEnd w p = .ok stop ∧ w.Boundary stop := by
  have hhere : w.Boundary ⟨p.line, p.offset + byteSize (rest.takeWhile isIndent)⟩ := by
    have hahead : w.Ahead p (rest.takeWhile isIndent ++ rest.dropWhile isIndent) := by
      rwa [List.takeWhile_append_dropWhile]
    exact hahead.advance.boundary
  rw [blanksEnd_eq h]
  split
  · rcases skipBlank_spec hw (p.line + 1) with ⟨hnone, -⟩ | ⟨next, hnext, -, hfilled, -⟩
    · rw [hnone]
      exact ⟨_, rfl, hhere⟩
    · rw [hnext]
      obtain ⟨n, hn, hboundary⟩ := exists_indentation hw hfilled.lt_count
      refine ⟨⟨next, n⟩, ?_, hboundary⟩
      show (do return ⟨next, ← w.indentation next⟩ : Except Fault Position) = _
      rw [hn]
      rfl
  · exact ⟨_, rfl, hhere⟩

theorem blanks_answers (hw : w.Legible) (hp : w.Boundary p) :
    Answers (blanks (σ := σ)) w p := by
  intro s
  rw [blanks]
  split
  · next hlt =>
    obtain ⟨rest, hrest⟩ := hp hlt
    obtain ⟨stop, hstop, hboundary⟩ := exists_blanksEnd hw hrest
    obtain ⟨done, hdone⟩ := hw.isDone stop
    by_cases hne : stop = p
    · refine ⟨none, Traced.bind_eq_ok.2 ⟨stop, hstop, ?_⟩, fun _ h => nomatch h⟩
      rw [if_pos hne]
      rfl
    cases done with
    | true =>
      refine ⟨none, Traced.bind_eq_ok.2 ⟨stop, hstop, ?_⟩, fun _ h => nomatch h⟩
      rw [if_neg hne]
      exact Traced.bind_eq_ok.2 ⟨true, hdone, rfl⟩
    | false =>
      refine ⟨some ⟨s, .make .discard (w.spanBetween p stop) [], stop⟩,
        Traced.bind_eq_ok.2 ⟨stop, hstop, ?_⟩, fun parsed hparsed => ?_⟩
      · rw [if_neg hne]
        exact Traced.bind_eq_ok.2 ⟨false, hdone, rfl⟩
      · cases hparsed
        exact ⟨rfl, hboundary⟩
  · exact ⟨none, rfl, fun _ h => nomatch h⟩

/-- **A terminal answers** at every place between characters. -/
theorem parser_answers (hw : w.Legible) (hp : w.Boundary p) (t : Terminal) :
    Answers (t.parser (σ := σ) all) w p := by
  cases t with
  | literal text =>
    exact token_answers hp text fun hrest => ⟨_, lex_literalLexer hrest text, prefixes_literal _ _⟩
  | identifier =>
    exact token_answers hp "var" fun hrest => ⟨_, lex_variableLexer hrest, prefixes_identifier _⟩
  | blank => exact blanks_answers hw hp
  | optionalBlank =>
    intro s
    obtain ⟨answer, hanswer, hparsed⟩ := blanks_answers hw hp s
    cases answer with
    | none =>
      refine ⟨some (Parser.nothing s w p), Traced.bind_eq_ok.2 ⟨none, hanswer, rfl⟩, ?_⟩
      rintro parsed ⟨⟩
      exact ⟨rfl, hp⟩
    | some parsed => exact ⟨some parsed, Traced.bind_eq_ok.2 ⟨_, hanswer, rfl⟩, hparsed⟩
  | endOfInput =>
    intro s
    obtain ⟨done, hdone⟩ := hw.isDone p
    cases done with
    | true =>
      refine ⟨some (Parser.nothing s w p), Traced.bind_eq_ok.2 ⟨true, hdone, rfl⟩, ?_⟩
      rintro parsed ⟨⟩
      exact ⟨rfl, hp⟩
    | false => exact ⟨none, Traced.bind_eq_ok.2 ⟨false, hdone, rfl⟩, fun _ h => nomatch h⟩

end Terminal

end Mixfix
