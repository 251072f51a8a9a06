import Mixfix.Lexer
import Mixfix.Proofs.Grammar

/-!
# What lexers take

At an offset between two characters a lexer is a function of the rest of the line.

* `Lexer.lex_word`: a literal is taken where it stands as a whole word.
* `Lexer.lex_many_charIf`, `Lexer.lex_many1_charIf`: a repetition takes the longest run.
* `Lexer.dropBytes_of_lex_word`: a word is taken only between characters.
* `Lexer.isSome_dropBytes_of_lex`: every match ends between characters.
-/

namespace Mixfix

/-- After a cut, a further cut is one in the rest. -/
theorem dropBytes_add {i : Nat} {s t : Line} (h : dropBytes i s = some t) (n : Nat) :
    dropBytes (i + n) s = dropBytes n t := by
  obtain ⟨u, rfl, rfl⟩ := dropBytes_eq_some h
  clear h
  induction u with
  | nil => rw [byteSize_nil, Nat.zero_add, List.nil_append]
  | cons c u ih =>
    have hc : 0 < c.utf8Size := Char.utf8Size_pos c
    obtain ⟨k, hk⟩ : ∃ k, byteSize (c :: u) + n = k + 1 :=
      ⟨byteSize (c :: u) + n - 1, by rw [byteSize_cons]; omega⟩
    rw [hk, List.cons_append, dropBytes, if_pos (by rw [byteSize_cons] at hk; omega), ← ih]
    congr 1
    rw [byteSize_cons] at hk
    omega

theorem byteSize_of_dropBytes {i : Nat} {s t : Line} (h : dropBytes i s = some t) :
    byteSize s = i + byteSize t := by
  obtain ⟨u, rfl, rfl⟩ := dropBytes_eq_some h
  exact byteSize_append u t

namespace Lexer

variable {line rest : Line} {i : Nat}

theorem not_lt_of_dropBytes (h : dropBytes i line = some rest) : ¬ byteSize line < i := by
  rw [byteSize_of_dropBytes h]
  omega

theorem suffix_of_dropBytes (h : dropBytes i line = some rest) : suffix line i = .ok rest := by
  rw [suffix, h]

theorem lex_literal (h : dropBytes i line = some rest) (text : Line) :
    lex line (.literal text) i =
      .ok (if text.isPrefixOf rest then some (byteSize text) else none) := by
  rw [lex, if_neg (not_lt_of_dropBytes h), suffix_of_dropBytes h]
  rfl

theorem lex_charIf (h : dropBytes i line = some rest) (p : Char → Bool) :
    lex line (.charIf p) i = .ok ((rest.head?.filter p).map Char.utf8Size) := by
  rw [lex, if_neg (not_lt_of_dropBytes h), suffix_of_dropBytes h]
  rfl

theorem lex_notAhead (h : dropBytes i line = some rest) {l : Lexer} {n : Option Nat}
    (hl : lex line l i = .ok n) :
    lex line (.notAhead l) i = .ok (if n.isSome then none else some 0) := by
  rw [lex, if_neg (not_lt_of_dropBytes h), hl]
  rfl

theorem lex_seq_pair (h : dropBytes i line = some rest) {l next : Lexer} {n : Option Nat}
    (hl : lex line l i = .ok n) :
    lex line (.seq [l, next]) i =
      n.elim (.ok none) fun n => (lex line next (i + n)).map fun m => m.map (n + ·) := by
  rw [lex, if_neg (not_lt_of_dropBytes h), lexSeq, hl]
  cases n with
  | none => rfl
  | some n =>
    show (do
      let rest ← lexSeq line [next] (i + n)
      return rest.map (n + ·)) = (lex line next (i + n)).map fun m => m.map (n + ·)
    rw [lexSeq]
    cases lex line next (i + n) with
    | error f => rfl
    | ok m => cases m <;> rfl

/-! ### Words -/

/-- The text begins the rest of a line as a whole word. -/
def wordAt (text rest : Line) : Bool :=
  text.isPrefixOf rest &&
    !(text.getLast?.any isWordChar && (rest.drop text.length).head?.any isWordChar)

theorem lex_word (h : dropBytes i line = some rest) (text : Line) :
    lex line (word text) i = .ok (if wordAt text rest then some (byteSize text) else none) := by
  rw [word]
  cases hlast : text.getLast? with
  | none =>
    dsimp only
    rw [lex_literal h, wordAt, hlast]
    simp
  | some last =>
    dsimp only
    split
    · next hword =>
      rw [lex_seq_pair h (lex_literal h text)]
      by_cases hfront : text.isPrefixOf rest
      · obtain ⟨after, rfl⟩ := List.isPrefixOf_iff_prefix.1 hfront
        have hafter : dropBytes (i + byteSize text) line = some after := by
          rw [dropBytes_add h, dropBytes_size_append]
        rw [if_pos hfront]
        dsimp only [Option.elim_some]
        rw [lex_notAhead hafter (lex_charIf hafter isWordChar), wordAt, hfront, hlast,
          List.drop_left]
        cases after with
        | nil => simp [hword, Except.map]
        | cons c after => by_cases hc : isWordChar c <;> simp [hword, hc, Except.map]
      · rw [if_neg hfront, wordAt]
        simp [hfront]
    · next hword =>
      rw [lex_literal h, wordAt, hlast]
      simp [hword]

/-- Only the first part of a choice that matches counts; whether one does is whether any does. -/
theorem lex_choice_words (h : dropBytes i line = some rest) (texts : List String) :
    ∃ n, lex line (.choice (texts.map fun text => word text.toList)) i = .ok n ∧
      n.isSome = texts.any fun text => wordAt text.toList rest := by
  rw [lex, if_neg (not_lt_of_dropBytes h)]
  induction texts with
  | nil => exact ⟨none, by rw [List.map_nil, lexChoice], rfl⟩
  | cons text texts ih =>
    rw [List.map_cons, lexChoice, lex_word h, List.any_cons]
    by_cases hw : wordAt text.toList rest
    · rw [if_pos hw, hw]
      exact ⟨_, rfl, rfl⟩
    · obtain ⟨n, hn, hsome⟩ := ih
      rw [if_neg hw, Bool.not_eq_true] at *
      exact ⟨n, hn, by rw [hw, hsome, Bool.false_or]⟩

/-- A word is taken only between characters. -/
theorem dropBytes_of_lex_word {text : Line} {n : Nat}
    (h : lex line (word text) i = .ok (some n)) : ∃ rest, dropBytes i line = some rest := by
  have hliteral : ∀ {n}, lex line (.literal text) i = .ok (some n) →
      ∃ rest, dropBytes i line = some rest := by
    intro n h
    by_cases hlt : byteSize line < i
    · rw [lex_past hlt] at h
      cases h
    · rw [lex, if_neg hlt, suffix] at h
      split at h
      · cases h
      · exact ⟨_, ‹_›⟩
  rw [word] at h
  split at h
  · split at h
    · rw [lex] at h
      split at h
      · cases h
      · rw [lexSeq] at h
        obtain ⟨m, hm, h⟩ := except_bind_eq_ok.1 h
        cases m with
        | none => cases h
        | some m => exact hliteral hm
    · exact hliteral h
  · exact hliteral h

/-! ### Repetitions -/

theorem iterate_charIf (p : Char → Bool) (h : dropBytes i line = some rest) {fuel : Nat}
    (hfuel : byteSize rest < fuel) :
    iterate (lex line (.charIf p)) fuel i = .ok (byteSize (rest.takeWhile p)) := by
  induction fuel generalizing i rest with
  | zero => omega
  | succ fuel ih =>
    rw [iterate, lex_charIf h]
    cases rest with
    | nil => rfl
    | cons c rest =>
      by_cases hc : p c
      · have hpos : 0 < c.utf8Size := Char.utf8Size_pos c
        obtain ⟨k, hk⟩ : ∃ k, c.utf8Size = k + 1 := ⟨c.utf8Size - 1, by omega⟩
        have hnext : dropBytes (i + c.utf8Size) line = some rest := by
          rw [dropBytes_add h]
          simpa using dropBytes_size_append [c] rest
        rw [byteSize_cons] at hfuel
        have hrest := ih hnext (by omega)
        rw [hk] at hrest
        have hhead : ((c :: rest).head?.filter p).map Char.utf8Size = some (k + 1) := by
          simp [Option.filter, hc, hk]
        rw [hhead, List.takeWhile_cons_of_pos hc, byteSize_cons, hk]
        show (do return k + 1 + (← iterate (lex line (.charIf p)) fuel (i + (k + 1)))) = _
        rw [hrest]
        rfl
      · have hhead : ((c :: rest).head?.filter p).map Char.utf8Size = none := by
          simp [Option.filter, hc]
        rw [hhead, List.takeWhile_cons_of_neg hc]
        rfl

theorem lex_many_charIf (p : Char → Bool) (h : dropBytes i line = some rest) :
    lex line (.many (.charIf p)) i = .ok (some (byteSize (rest.takeWhile p))) := by
  have hsize := byteSize_of_dropBytes h
  rw [lex, if_neg (not_lt_of_dropBytes h), iterate_charIf p h (by omega)]
  rfl

theorem lex_many1_charIf (p : Char → Bool) (h : dropBytes i line = some rest) :
    lex line (many1 (.charIf p)) i = .ok (if (rest.takeWhile p).isEmpty then none
      else some (byteSize (rest.takeWhile p))) := by
  rw [many1, lex_seq_pair h (lex_charIf h p)]
  cases rest with
  | nil => rfl
  | cons c rest =>
    by_cases hc : p c
    · have hnext : dropBytes (i + c.utf8Size) line = some rest := by
        rw [dropBytes_add h]
        simpa using dropBytes_size_append [c] rest
      have hhead : ((c :: rest).head?.filter p).map Char.utf8Size = some c.utf8Size := by
        simp [Option.filter, hc]
      rw [hhead, Option.elim_some, lex_many_charIf p hnext, List.takeWhile_cons_of_pos hc]
      rfl
    · have hhead : ((c :: rest).head?.filter p).map Char.utf8Size = none := by
        simp [Option.filter, hc]
      rw [hhead, List.takeWhile_cons_of_neg hc]
      rfl

/-- Past the beginning of a character nothing is repeated. -/
theorem lex_many1_charIf_of_none (p : Char → Bool) (h : dropBytes i line = none) {n : Option Nat}
    (hn : lex line (many1 (.charIf p)) i = .ok n) : n = none := by
  by_cases hlt : byteSize line < i
  · rw [lex_past hlt] at hn
    cases hn
    rfl
  · rw [many1, lex, if_neg hlt, lexSeq, lex, if_neg hlt, suffix, h] at hn
    cases hn

/-! ### Where matches end -/

/-- A repetition ends between characters, if each of its matches does. -/
theorem isSome_dropBytes_of_iterate {step : Nat → Except Fault (Option Nat)}
    (hstep : ∀ {i n}, (dropBytes i line).isSome → step i = .ok (some n) →
      (dropBytes (i + n) line).isSome) {fuel n : Nat} (hi : (dropBytes i line).isSome)
    (h : iterate step fuel i = .ok n) : (dropBytes (i + n) line).isSome := by
  induction fuel generalizing i n with
  | zero =>
    cases h
    exact hi
  | succ fuel ih =>
    rw [iterate] at h
    obtain ⟨answer, hanswer, h⟩ := except_bind_eq_ok.1 h
    match answer with
    | none =>
      cases h
      exact hi
    | some 0 => cases h
    | some (k + 1) =>
      obtain ⟨m, hm, h⟩ := except_bind_eq_ok.1 h
      cases h
      rw [← Nat.add_assoc]
      exact ih (hstep hi hanswer) hm

theorem longer_eq_some {a b : Option Nat} {n : Nat} (h : longer a b = some n) :
    a = some n ∨ b = some n := by
  match a, b with
  | none, b => exact .inr h
  | some a, none => exact .inl h
  | some a, some b =>
    rcases Nat.le_total a b with hle | hle
    · rw [longer, Nat.max_eq_right hle] at h
      exact .inr h
    · rw [longer, Nat.max_eq_left hle] at h
      exact .inl h

mutual

/-- **What a lexer takes from between two characters ends between two characters.** -/
theorem isSome_dropBytes_of_lex : ∀ {l : Lexer} {i n : Nat}, (dropBytes i line).isSome →
    lex line l i = .ok (some n) → (dropBytes (i + n) line).isSome
  | l, i, n, hi, h => by
    obtain ⟨rest, hrest⟩ := Option.isSome_iff_exists.1 hi
    have hin := not_lt_of_dropBytes hrest
    match l with
    | .empty =>
      rw [lex, if_neg hin] at h
      cases h
      exact hi
    | .literal text =>
      rw [lex_literal hrest] at h
      split at h
      · next hfront =>
        cases h
        obtain ⟨back, rfl⟩ := List.isPrefixOf_iff_prefix.1 hfront
        rw [dropBytes_add hrest, dropBytes_size_append]
        rfl
      · cases h
    | .charIf p =>
      rw [lex_charIf hrest] at h
      cases rest with
      | nil => cases h
      | cons c rest =>
        obtain ⟨c', hc, rfl⟩ := Option.map_eq_some_iff.1 (Except.ok.inj h)
        cases (Option.filter_eq_some_iff.1 hc).1
        have hcut := dropBytes_size_append [c] rest
        rw [byteSize_cons, byteSize_nil, Nat.add_zero] at hcut
        rw [dropBytes_add hrest, ← List.singleton_append, hcut]
        rfl
    | .seq parts =>
      rw [lex, if_neg hin] at h
      exact isSome_dropBytes_of_lexSeq hi h
    | .choice alternatives =>
      rw [lex, if_neg hin] at h
      exact isSome_dropBytes_of_lexChoice hi h
    | .longest alternatives =>
      rw [lex, if_neg hin] at h
      exact isSome_dropBytes_of_lexLongest hi (by simp) h
    | .optional l =>
      rw [lex, if_neg hin] at h
      obtain ⟨found, hfound, h⟩ := except_map_eq_ok.1 h
      cases h
      cases found with
      | none => exact hi
      | some n => exact isSome_dropBytes_of_lex hi hfound
    | .many l =>
      rw [lex, if_neg hin] at h
      obtain ⟨total, htotal, h⟩ := except_map_eq_ok.1 h
      cases h
      exact isSome_dropBytes_of_iterate isSome_dropBytes_of_lex hi htotal
    | .ahead l =>
      rw [lex, if_neg hin] at h
      obtain ⟨found, -, h⟩ := except_map_eq_ok.1 h
      cases found with
      | none => cases h
      | some _ =>
        cases h
        exact hi
    | .notAhead l =>
      rw [lex, if_neg hin] at h
      obtain ⟨found, -, h⟩ := except_map_eq_ok.1 h
      split at h
      · cases h
      · cases h
        exact hi
    | .restOfLine =>
      rw [lex, if_neg hin] at h
      cases h
      rw [byteSize_of_dropBytes hrest, Nat.add_sub_cancel_left, dropBytes_add hrest]
      have hall := dropBytes_size_append rest []
      rw [List.append_nil] at hall
      rw [hall]
      rfl

theorem isSome_dropBytes_of_lexSeq : ∀ {parts : List Lexer} {i n : Nat},
    (dropBytes i line).isSome → lexSeq line parts i = .ok (some n) →
      (dropBytes (i + n) line).isSome
  | [], i, n, hi, h => by
    rw [lexSeq] at h
    cases h
    exact hi
  | l :: parts, i, n, hi, h => by
    rw [lexSeq] at h
    obtain ⟨first, hfirst, h⟩ := except_bind_eq_ok.1 h
    cases first with
    | none => cases h
    | some k =>
      obtain ⟨others, hothers, h⟩ := except_bind_eq_ok.1 h
      obtain ⟨m, rfl, rfl⟩ := Option.map_eq_some_iff.1 (Except.ok.inj h)
      rw [← Nat.add_assoc]
      exact isSome_dropBytes_of_lexSeq (isSome_dropBytes_of_lex hi hfirst) hothers

theorem isSome_dropBytes_of_lexChoice : ∀ {alternatives : List Lexer} {i n : Nat},
    (dropBytes i line).isSome → lexChoice line alternatives i = .ok (some n) →
      (dropBytes (i + n) line).isSome
  | [], i, n, hi, h => by
    rw [lexChoice] at h
    cases h
  | l :: alternatives, i, n, hi, h => by
    rw [lexChoice] at h
    obtain ⟨first, hfirst, h⟩ := except_bind_eq_ok.1 h
    cases first with
    | none => exact isSome_dropBytes_of_lexChoice hi h
    | some k =>
      cases h
      exact isSome_dropBytes_of_lex hi hfirst

theorem isSome_dropBytes_of_lexLongest : ∀ {alternatives : List Lexer} {i n : Nat}
    {best : Option Nat}, (dropBytes i line).isSome →
      (∀ k ∈ best, (dropBytes (i + k) line).isSome) →
      lexLongest line alternatives i best = .ok (some n) → (dropBytes (i + n) line).isSome
  | [], i, n, best, hi, hbest, h => by
    rw [lexLongest] at h
    exact hbest n (Except.ok.inj h)
  | l :: alternatives, i, n, best, hi, hbest, h => by
    rw [lexLongest] at h
    obtain ⟨found, hfound, h⟩ := except_bind_eq_ok.1 h
    refine isSome_dropBytes_of_lexLongest hi (fun k hk => ?_) h
    rcases longer_eq_some hk with hk | hk
    · exact hbest k hk
    · exact isSome_dropBytes_of_lex hi (hk ▸ hfound)

end

end Lexer

end Mixfix
