import Mixfix.Proofs.Lexer
import Mixfix.Terminal

/-!
# Terminals exclude each other

At one place of a window at most one of the literals, the variable, the blanks and the end of the
window is there.  A literal yields to a longer one, a variable to every literal; both begin with a
character that is not blank, so neither stands where blanks or the end do; and blanks that run to
the end belong to it.

* `Terminal.literal_result`, `Terminal.identifier_result`, `Terminal.blank_result`,
  `Terminal.end_result`: what each terminal finds where it succeeds.
* `Terminal.exclusive`: two terminals that succeed at one place are the same.
-/

namespace Mixfix

/-! ### Characters -/

theorem Ranges.exists_of_contains {ranges : Ranges} {c : Char} (h : ranges.contains c) :
    ∃ range ∈ ranges, range.1 ≤ c.toNat ∧ c.toNat ≤ range.2 := by
  induction ranges with
  | nil => cases h
  | cons range ranges ih =>
    rw [Ranges.contains] at h
    split at h
    · cases h
    · next hlo =>
      rw [Bool.or_eq_true, decide_eq_true_eq] at h
      rcases h with hhi | h
      · exact ⟨range, List.mem_cons_self, Nat.le_of_not_lt hlo, hhi⟩
      · obtain ⟨range', hmem, hin⟩ := ih h
        exact ⟨range', List.mem_cons_of_mem _ hmem, hin⟩

/-- No letter is blank. -/
theorem isBlank_of_isAlphabetic {c : Char} (h : isAlphabetic c) : isBlank c = false := by
  have hapart : ∀ a ∈ alphabeticRanges, ∀ b ∈ blankRanges, a.2 < b.1 ∨ b.2 < a.1 := by
    decide +kernel
  rw [← Bool.not_eq_true]
  intro hb
  obtain ⟨a, ha, halo, hahi⟩ := Ranges.exists_of_contains h
  obtain ⟨b, hb, hblo, hbhi⟩ := Ranges.exists_of_contains hb
  rcases hapart a ha b hb with h | h <;> omega

/-! ### Lexers of literals and variables -/

namespace Terminal

open Lexer

variable {line rest : Line} {i : Nat} {all : List String}

/-- The literal begins the rest of a line as a word, and no longer literal does. -/
def literalAt (all : List String) (text : String) (rest : Line) : Bool :=
  wordAt text.toList rest && !(all.filter fun other =>
    text.toList.isPrefixOf other.toList && other ≠ text).any fun other => wordAt other.toList rest

theorem lex_literalLexer (h : dropBytes i line = some rest) (text : String) :
    (literalLexer all text).lex line i =
      .ok (if literalAt all text rest then some (byteSize text.toList) else none) := by
  rw [literalLexer, literalAt]
  split
  · next hnone =>
    rw [List.isEmpty_iff.1 hnone, lex_word h]
    simp
  · obtain ⟨n, hn, hsome⟩ := lex_choice_words h
      (all.filter fun other => text.toList.isPrefixOf other.toList && other ≠ text)
    rw [lex_seq_pair h (lex_notAhead h hn), hsome]
    split
    · next hlonger =>
      rw [hlonger, Bool.not_true, Bool.and_false]
      rfl
    · next hlonger =>
      rw [Option.elim_some, Nat.add_zero, lex_word h, Bool.eq_false_iff.2 hlonger]
      by_cases hw : wordAt text.toList rest <;> simp [hw, Except.map]

/-- The bytes of the identifier at the beginning of the rest of a line. -/
def identifierAt : Line → Option Nat
  | [] => none
  | c :: rest =>
    if isAlphabetic c then some (c.utf8Size + byteSize (rest.takeWhile isWordChar)) else none

theorem lex_identifier (h : dropBytes i line = some rest) :
    Lexer.identifier.lex line i = .ok (identifierAt rest) := by
  rw [Lexer.identifier, lex_seq_pair h (lex_charIf h isAlphabetic)]
  cases rest with
  | nil => rfl
  | cons c rest =>
    rw [identifierAt]
    split
    · next hc =>
      have hnext : dropBytes (i + c.utf8Size) line = some rest := by
        rw [dropBytes_add h]
        simpa using dropBytes_size_append [c] rest
      have hhead : ((c :: rest).head?.filter isAlphabetic).map Char.utf8Size =
          some c.utf8Size := by
        simp [Option.filter, hc]
      rw [hhead, Option.elim_some, lex_many_charIf isWordChar hnext]
      rfl
    · next hc => simp [Option.filter, hc]

theorem lex_variableLexer (h : dropBytes i line = some rest) :
    (variableLexer all).lex line i =
      .ok (if all.any fun text => wordAt text.toList rest then none else identifierAt rest) := by
  obtain ⟨n, hn, hsome⟩ := lex_choice_words h all
  rw [variableLexer, lex_seq_pair h (lex_notAhead h hn), hsome]
  split
  · rfl
  · rw [Option.elim_some, Nat.add_zero, lex_identifier h]
    cases identifierAt rest <;> simp [Except.map]

/-- Where something is not ahead, the rest of the sequence is taken from the same place. -/
theorem lex_of_lex_notAhead {l next : Lexer} {n : Nat}
    (h : lex line (.seq [.notAhead l, next]) i = .ok (some n)) :
    ∃ m, lex line next i = .ok (some m) := by
  rw [lex] at h
  split at h
  · cases h
  · rw [lexSeq] at h
    obtain ⟨m, hm, h⟩ := except_bind_eq_ok.1 h
    cases m with
    | none => cases h
    | some m =>
      have hzero : m = 0 := by
        rw [lex] at hm
        split at hm
        · cases hm
        · cases hl : lex line l i with
          | error f => rw [hl] at hm; cases hm
          | ok k =>
            rw [hl] at hm
            cases k <;> cases hm
            rfl
      subst hzero
      obtain ⟨k, hk, h⟩ := except_bind_eq_ok.1 h
      rw [lexSeq] at hk
      obtain ⟨j, hj, hk⟩ := except_bind_eq_ok.1 hk
      cases j with
      | none =>
        cases hk
        cases h
      | some j => exact ⟨j, hj⟩

theorem dropBytes_of_literalLexer {text : String} {n : Nat}
    (h : (literalLexer all text).lex line i = .ok (some n)) :
    ∃ rest, dropBytes i line = some rest := by
  rw [literalLexer] at h
  split at h
  · exact dropBytes_of_lex_word h
  · obtain ⟨m, hm⟩ := lex_of_lex_notAhead h
    exact dropBytes_of_lex_word hm

theorem dropBytes_of_variableLexer {n : Nat}
    (h : (variableLexer all).lex line i = .ok (some n)) :
    ∃ rest, dropBytes i line = some rest := by
  obtain ⟨m, hm⟩ := lex_of_lex_notAhead h
  rw [Lexer.identifier, lex] at hm
  split at hm
  · cases hm
  · rw [lexSeq] at hm
    obtain ⟨k, hk, hm⟩ := except_bind_eq_ok.1 hm
    rw [lex, suffix] at hk
    split at hk
    · cases hk
      cases hm
    · split at hk
      · cases hk
      · exact ⟨_, ‹_›⟩

end Terminal

/-- The rest of a line at a position that is between two characters of the window. -/
def Window.Ahead (w : Window) (p : Position) (rest : Line) : Prop :=
  p.line < w.count ∧ ∃ line, w.line p.line = .ok line ∧ dropBytes p.offset line = some rest

namespace Window

variable {w : Window} {p : Position} {rest : Line}

theorem Ahead.unique {rest' : Line} (h : w.Ahead p rest) (h' : w.Ahead p rest') : rest = rest' := by
  obtain ⟨-, line, hline, hrest⟩ := h
  obtain ⟨-, line', hline', hrest'⟩ := h'
  cases hline.symm.trans hline'
  exact Option.some.inj (hrest.symm.trans hrest')

theorem Ahead.rest_eq (h : w.Ahead p rest) : w.rest p = .ok rest := by
  obtain ⟨hlt, line, hline, hrest⟩ := h
  rw [Window.rest, if_pos hlt, hline]
  simp [Except.map, hrest]

theorem Ahead.advance {u : Line} (h : w.Ahead p (u ++ rest)) :
    w.Ahead ⟨p.line, p.offset + byteSize u⟩ rest := by
  obtain ⟨hlt, line, hline, hrest⟩ := h
  refine ⟨hlt, line, hline, ?_⟩
  rw [dropBytes_add hrest, dropBytes_size_append]

/-- A window is done where the rest of the line and all lines after it are blank. -/
theorem isDone_eq_true : w.isDone p = .ok true ↔
    ∃ rest, w.rest p = .ok rest ∧ allBlank rest ∧ w.skipBlank (p.line + 1) = .ok none := by
  constructor
  · intro h
    obtain ⟨done, hdone, h⟩ := except_bind_eq_ok.1 h
    rw [lineIsDone] at hdone
    cases hrest : w.rest p with
    | error f => rw [hrest] at hdone; cases hdone
    | ok rest =>
      rw [hrest] at hdone
      cases hdone
      split at h
      · next hblank =>
        obtain ⟨next, hnext, h⟩ := except_bind_eq_ok.1 h
        cases next with
        | none => exact ⟨rest, rfl, hblank, hnext⟩
        | some next => cases h
      · cases h
  · rintro ⟨rest, hrest, hblank, hskip⟩
    refine except_bind_eq_ok.2 ⟨true, ?_, ?_⟩
    · rw [lineIsDone, hrest, ← hblank]
      rfl
    · rw [if_pos rfl, hskip]
      rfl

end Window

namespace Terminal

open Lexer Window

variable {σ : Type} {all : List String} {s : σ} {w : Window} {p : Position} {parsed : Parsed σ}

/-- A token is taken where its lexer matches the line. -/
theorem token_result {lexer : Lexer} {tag : String}
    (h : (Parser.token lexer tag s w p).result = .ok (some parsed)) :
    p.line < w.count ∧ ∃ line n, w.line p.line = .ok line ∧
      lexer.lex line p.offset = .ok (some n) ∧ parsed.stop = ⟨p.line, p.offset + n⟩ := by
  unfold Parser.token at h
  split at h
  · next hlt =>
    obtain ⟨line, hline, h⟩ := Traced.bind_eq_ok.1 h
    obtain ⟨n, hn, h⟩ := Traced.bind_eq_ok.1 h
    cases n with
    | none => cases h
    | some n =>
      cases h
      exact ⟨hlt, line, n, hline, hn, rfl⟩
  · cases h

/-- Where a literal is taken, it is a word and no longer literal is. -/
theorem literal_result {text : String}
    (h : ((literal text).parser all s w p).result = .ok (some parsed)) :
    ∃ rest, w.Ahead p rest ∧ literalAt all text rest := by
  obtain ⟨hlt, line, n, hline, hn, -⟩ := token_result h
  obtain ⟨rest, hrest⟩ := dropBytes_of_literalLexer hn
  refine ⟨rest, ⟨hlt, line, hline, hrest⟩, ?_⟩
  rw [lex_literalLexer hrest] at hn
  split at hn
  · assumption
  · cases hn

/-- Where a variable is taken, there is a letter and no literal. -/
theorem identifier_result (h : (identifier.parser all s w p).result = .ok (some parsed)) :
    ∃ rest, w.Ahead p rest ∧ rest.head?.any isAlphabetic ∧
      ∀ text ∈ all, wordAt text.toList rest = false := by
  obtain ⟨hlt, line, n, hline, hn, -⟩ := token_result h
  obtain ⟨rest, hrest⟩ := dropBytes_of_variableLexer hn
  refine ⟨rest, ⟨hlt, line, hline, hrest⟩, ?_⟩
  rw [lex_variableLexer hrest] at hn
  split at hn
  · cases hn
  · next hwords =>
    refine ⟨?_, fun text htext => ?_⟩
    · cases rest with
      | nil => cases hn
      | cons c rest =>
        rw [identifierAt] at hn
        split at hn
        · simpa using ‹_›
        · cases hn
    · rw [Bool.not_eq_true, List.any_eq_false] at hwords
      simpa using hwords text htext

theorem end_result (h : (endOfInput.parser all s w p).result = .ok (some parsed)) :
    w.isDone p = .ok true := by
  obtain ⟨done, hdone, h⟩ := Traced.bind_eq_ok.1 h
  split at h
  · next hd => rw [← hd]; exact hdone
  · cases h

/-- Blanks are taken where they end later, and not at the end of the window. -/
theorem blank_result (h : (blank.parser all s w p).result = .ok (some parsed)) :
    p.line < w.count ∧ blanksEnd w p = .ok parsed.stop ∧ parsed.stop ≠ p ∧
      w.isDone parsed.stop = .ok false := by
  have h' : (blanks s w p).result = .ok (some parsed) := h
  unfold blanks at h'
  split at h'
  · next hlt =>
    obtain ⟨stop, hstop, h'⟩ := Traced.bind_eq_ok.1 h'
    split at h'
    · cases h'
    · next hne =>
      obtain ⟨done, hdone, h'⟩ := Traced.bind_eq_ok.1 h'
      split at h'
      · cases h'
      · next hd =>
        cases h'
        rw [Bool.not_eq_true] at hd
        exact ⟨hlt, hstop, hne, hd ▸ hdone⟩
  · cases h'

/-! ### Exclusion -/

/-- Text that is not empty and has no blank characters. -/
def Solid (text : String) : Prop := text ≠ "" ∧ ∀ c ∈ text.toList, isBlank c = false

theorem solid_of_all {text : String} (hne : text ≠ "")
    (h : text.toList.all fun c => !isBlank c) : Solid text :=
  ⟨hne, fun c hc => by simpa using List.all_eq_true.1 h c hc⟩

/-- A word of solid text begins with a character that is not blank. -/
theorem head_of_wordAt {text : String} (ht : Solid text) {rest : Line}
    (h : wordAt text.toList rest) : ∃ c after, rest = c :: after ∧ isBlank c = false := by
  rw [wordAt, Bool.and_eq_true] at h
  obtain ⟨after, hafter⟩ := List.isPrefixOf_iff_prefix.1 h.1
  cases hlist : text.toList with
  | nil => exact absurd (String.toList_eq_nil_iff.1 hlist) ht.1
  | cons c cs =>
    rw [hlist] at hafter
    exact ⟨c, cs ++ after, hafter.symm, ht.2 c (hlist ▸ List.mem_cons_self)⟩

/-- Of two literals that are both there, one is longer, and the other one yields. -/
theorem literal_unique {t u : String} (ht : t ∈ all) (hu : u ∈ all) {rest : Line}
    (htw : literalAt all t rest) (huw : literalAt all u rest) : t = u := by
  have hyield : ∀ {t u : String}, u ∈ all → literalAt all t rest → wordAt u.toList rest →
      t.toList.isPrefixOf u.toList → u = t := by
    intro t u hu htw huw hfront
    rw [literalAt, Bool.and_eq_true, Bool.not_eq_true', List.any_eq_false] at htw
    by_cases hne : u = t
    · exact hne
    · refine absurd huw (htw.2 u (List.mem_filter.2 ⟨hu, ?_⟩))
      simp [hfront, hne]
  have hword : ∀ {t : String}, literalAt all t rest → wordAt t.toList rest := by
    intro t h
    rw [literalAt, Bool.and_eq_true] at h
    exact h.1
  have hfront : ∀ {t : String}, literalAt all t rest → t.toList <+: rest := by
    intro t h
    have := hword h
    rw [wordAt, Bool.and_eq_true] at this
    exact List.isPrefixOf_iff_prefix.1 this.1
  rcases List.prefix_or_prefix_of_prefix (hfront htw) (hfront huw) with h | h
  · exact (hyield hu htw (hword huw) (List.isPrefixOf_iff_prefix.2 h)).symm
  · exact hyield ht huw (hword htw) (List.isPrefixOf_iff_prefix.2 h)

/-- Behind `n` bytes of blanks come the rest of the line or, if it is empty, the text of the next
line that has any. -/
theorem blanksEnd_of_lex {line rest : Line} {n : Option Nat} (hline : w.line p.line = .ok line)
    (hn : Lexer.blanks.lex line p.offset = .ok n)
    (hrest : w.rest ⟨p.line, p.offset + n.getD 0⟩ = .ok rest) :
    blanksEnd w p =
      if rest.isEmpty then do
        match ← w.skipBlank (p.line + 1) with
        | some next => return ⟨next, ← w.indentation next⟩
        | none => return ⟨p.line, p.offset + n.getD 0⟩
      else .ok ⟨p.line, p.offset + n.getD 0⟩ := by
  unfold blanksEnd
  rw [hline]
  show (Lexer.blanks.lex line p.offset >>= _) = _
  rw [hn]
  show (w.rest ⟨p.line, p.offset + n.getD 0⟩ >>= _) = _
  rw [hrest]
  rfl

/-- Between characters the blanks of a line are its spaces and tabs. -/
theorem blanksEnd_eq {rest : Line} (h : w.Ahead p rest) :
    blanksEnd w p =
      if (rest.dropWhile isIndent).isEmpty then do
        match ← w.skipBlank (p.line + 1) with
        | some next => return ⟨next, ← w.indentation next⟩
        | none => return ⟨p.line, p.offset + byteSize (rest.takeWhile isIndent)⟩
      else .ok ⟨p.line, p.offset + byteSize (rest.takeWhile isIndent)⟩ := by
  obtain ⟨hlt, line, hline, hrest⟩ := id h
  have hn := lex_many1_charIf isIndent hrest
  have hsize : (if (rest.takeWhile isIndent).isEmpty then none
      else some (byteSize (rest.takeWhile isIndent))).getD 0 =
        byteSize (rest.takeWhile isIndent) := by
    split
    · next hnil => rw [List.isEmpty_iff.1 hnil]; rfl
    · rfl
  have hafter : w.Ahead ⟨p.line, p.offset + byteSize (rest.takeWhile isIndent)⟩
      (rest.dropWhile isIndent) := by
    refine Ahead.advance ?_
    rw [List.takeWhile_append_dropWhile]
    exact h
  rw [← hsize] at hafter ⊢
  exact blanksEnd_of_lex hline hn hafter.rest_eq

theorem isIndent_of_isBlank {c : Char} (hc : isBlank c = false) : isIndent c = false := by
  rw [← Bool.not_eq_true]
  intro h
  rw [isIndent, Bool.or_eq_true, beq_iff_eq, beq_iff_eq] at h
  rcases h with rfl | rfl <;> exact absurd hc (by decide)

/-- Where the rest of a line begins with a character that is not blank, there are no blanks. -/
theorem blanksEnd_of_ahead {c : Char} {after : Line} (h : w.Ahead p (c :: after))
    (hc : isBlank c = false) : blanksEnd w p = .ok p := by
  have hindent : ¬ isIndent c := by simp [isIndent_of_isBlank hc]
  rw [blanksEnd_eq h, List.dropWhile_cons_of_neg hindent, List.takeWhile_cons_of_neg hindent]
  rfl

theorem allBlank_dropWhile {rest : Line} (h : allBlank rest) (p : Char → Bool) :
    allBlank (rest.dropWhile p) := by
  rw [allBlank, List.all_eq_true] at h ⊢
  exact fun c hc => h c (List.dropWhile_sublist p |>.subset hc)

/-- Blanks at the end of the window run to the end. -/
theorem isDone_of_blanksEnd (hdone : w.isDone p = .ok true) {stop : Position}
    (hstop : blanksEnd w p = .ok stop) : w.isDone stop = .ok true := by
  obtain ⟨rest, hrest, hblank, hskip⟩ := isDone_eq_true.1 hdone
  obtain ⟨line, hline, h⟩ := except_bind_eq_ok.1 hstop
  obtain ⟨n, hn, -⟩ := except_bind_eq_ok.1 h
  have hlt : p.line < w.count := by
    rw [Window.line] at hline
    split at hline
    · cases hline
    · exact (List.getElem?_eq_some_iff.1 ‹_›).1
  cases hdrop : dropBytes p.offset line with
  | none =>
    -- Inside a character or past the line nothing is taken.
    cases lex_many1_charIf_of_none _ hdrop hn
    have hnil : w.rest p = .ok [] := by
      rw [Window.rest, if_pos hlt, hline]
      simp [Except.map, hdrop]
    rw [blanksEnd_of_lex hline hn hnil, List.isEmpty_nil, if_pos rfl, hskip] at hstop
    cases hstop
    exact hdone
  | some rest' =>
    have hahead : w.Ahead p rest' := ⟨hlt, line, hline, hdrop⟩
    cases hrest.symm.trans hahead.rest_eq
    have hafter : w.Ahead ⟨p.line, p.offset + byteSize (rest.takeWhile isIndent)⟩
        (rest.dropWhile isIndent) := by
      refine Ahead.advance ?_
      rw [List.takeWhile_append_dropWhile]
      exact hahead
    have hstop' : stop = ⟨p.line, p.offset + byteSize (rest.takeWhile isIndent)⟩ := by
      rw [blanksEnd_eq hahead, hskip] at hstop
      split at hstop <;> cases hstop <;> rfl
    subst hstop'
    exact isDone_eq_true.2 ⟨_, hafter.rest_eq, allBlank_dropWhile hblank _, hskip⟩

/-- The terminals that are told apart: the literals, the variable, the blanks and the end. -/
def told (literals : List String) : List Terminal :=
  (allLiterals literals).map literal ++ [identifier, blank, endOfInput]

theorem solid_of_mem_allLiterals {literals : List String} (h : ∀ text ∈ literals, Solid text)
    {text : String} (ht : text ∈ allLiterals literals) : Solid text := by
  rw [allLiterals, Ascending.mem_ofList, List.mem_append] at ht
  rcases ht with ht | ht
  · exact h text ht
  · rw [List.mem_cons, List.mem_singleton] at ht
    rcases ht with rfl | rfl <;> exact solid_of_all (by decide) (by decide)

/-- A literal or the variable. -/
def IsSolid (literals : List String) (t : Terminal) : Prop :=
  t = identifier ∨ ∃ text ∈ allLiterals literals, t = literal text

theorem mem_told {literals : List String} {t : Terminal} (h : t ∈ told literals) :
    IsSolid literals t ∨ t = blank ∨ t = endOfInput := by
  simp only [told, List.mem_append, List.mem_map, List.mem_cons, List.not_mem_nil, or_false] at h
  rcases h with ⟨text, htext, rfl⟩ | rfl | rfl | rfl
  · exact .inl (.inr ⟨text, htext, rfl⟩)
  · exact .inl (.inl rfl)
  · exact .inr (.inl rfl)
  · exact .inr (.inr rfl)

section

variable {literals : List String} {t u : Terminal} {s' : σ} {parsed' : Parsed σ}

/-- A literal or a variable begins with a character that is not blank. -/
theorem head_of_result (hsolid : ∀ text ∈ literals, Solid text) (ht : IsSolid literals t)
    (h : (t.parser (allLiterals literals) s w p).result = .ok (some parsed)) :
    ∃ c after, w.Ahead p (c :: after) ∧ isBlank c = false := by
  rcases ht with rfl | ⟨text, htext, rfl⟩
  · obtain ⟨rest, hahead, hhead, -⟩ := identifier_result h
    cases rest with
    | nil => cases hhead
    | cons c after => exact ⟨c, after, hahead, isBlank_of_isAlphabetic (by simpa using hhead)⟩
  · obtain ⟨rest, hahead, hliteral⟩ := literal_result h
    rw [literalAt, Bool.and_eq_true] at hliteral
    obtain ⟨c, after, rfl, hc⟩ :=
      head_of_wordAt (solid_of_mem_allLiterals hsolid htext) hliteral.1
    exact ⟨c, after, hahead, hc⟩

theorem solid_unique (ht : IsSolid literals t) (hu : IsSolid literals u)
    (h : (t.parser (allLiterals literals) s w p).result = .ok (some parsed))
    (h' : (u.parser (allLiterals literals) s' w p).result = .ok (some parsed')) : t = u := by
  have hyield : ∀ {text : String} {s s' : σ} {parsed parsed' : Parsed σ},
      text ∈ allLiterals literals →
      (identifier.parser (allLiterals literals) s w p).result = .ok (some parsed) →
      ((literal text).parser (allLiterals literals) s' w p).result ≠ .ok (some parsed') := by
    intro text s s' parsed parsed' htext h h'
    obtain ⟨rest, hahead, -, hwords⟩ := identifier_result h
    obtain ⟨rest', hahead', hliteral⟩ := literal_result h'
    cases hahead.unique hahead'
    rw [literalAt, hwords text htext, Bool.false_and] at hliteral
    cases hliteral
  rcases ht with rfl | ⟨text, htext, rfl⟩
  · rcases hu with rfl | ⟨text, htext, rfl⟩
    · rfl
    · exact absurd h' (hyield htext h)
  · rcases hu with rfl | ⟨text', htext', rfl⟩
    · exact absurd h (hyield htext h')
    · obtain ⟨rest, hahead, hliteral⟩ := literal_result h
      obtain ⟨rest', hahead', hliteral'⟩ := literal_result h'
      cases hahead.unique hahead'
      rw [literal_unique htext htext' hliteral hliteral']

theorem not_blank_of_solid (hsolid : ∀ text ∈ literals, Solid text) (ht : IsSolid literals t)
    (h : (t.parser (allLiterals literals) s w p).result = .ok (some parsed)) :
    (blank.parser (allLiterals literals) s' w p).result ≠ .ok (some parsed') := by
  intro h'
  obtain ⟨c, after, hahead, hc⟩ := head_of_result hsolid ht h
  obtain ⟨-, hstop, hne, -⟩ := blank_result h'
  rw [blanksEnd_of_ahead hahead hc] at hstop
  exact hne (Except.ok.inj hstop).symm

theorem not_end_of_solid (hsolid : ∀ text ∈ literals, Solid text) (ht : IsSolid literals t)
    (h : (t.parser (allLiterals literals) s w p).result = .ok (some parsed)) :
    (endOfInput.parser (allLiterals literals) s' w p).result ≠ .ok (some parsed') := by
  intro h'
  obtain ⟨c, after, hahead, hc⟩ := head_of_result hsolid ht h
  obtain ⟨rest, hrest, hblank, -⟩ := isDone_eq_true.1 (end_result h')
  cases hrest.symm.trans hahead.rest_eq
  rw [allBlank, List.all_cons, hc] at hblank
  cases hblank

theorem not_end_of_blank
    (h : (blank.parser (allLiterals literals) s w p).result = .ok (some parsed)) :
    (endOfInput.parser (allLiterals literals) s' w p).result ≠ .ok (some parsed') := by
  intro h'
  obtain ⟨-, hstop, -, hdone⟩ := blank_result h
  cases hdone.symm.trans (isDone_of_blanksEnd (end_result h') hstop)

/-- **Terminals exclude each other.** Among solid literals with the parentheses, the variable, the
blanks and the end of the window, two that succeed at one place are the same. -/
theorem exclusive (hsolid : ∀ text ∈ literals, Solid text) (ht : t ∈ told literals)
    (hu : u ∈ told literals)
    (h : (t.parser (allLiterals literals) s w p).result = .ok (some parsed))
    (h' : (u.parser (allLiterals literals) s' w p).result = .ok (some parsed')) : t = u := by
  rcases mem_told ht with ht | rfl | rfl
  · rcases mem_told hu with hu | rfl | rfl
    · exact solid_unique ht hu h h'
    · exact absurd h' (not_blank_of_solid hsolid ht h)
    · exact absurd h' (not_end_of_solid hsolid ht h)
  · rcases mem_told hu with hu | rfl | rfl
    · exact absurd h (not_blank_of_solid hsolid hu h')
    · rfl
    · exact absurd h' (not_end_of_blank h)
  · rcases mem_told hu with hu | rfl | rfl
    · exact absurd h (not_end_of_solid hsolid hu h')
    · exact absurd h (not_end_of_blank h')
    · rfl

end

end Terminal

end Mixfix
