import Mixfix.Proofs.Lexer

/-!
# Lexers stay inside the line

From between two characters, every part of a lexer starts between characters again, so no slice of
the line is broken.  The only fault left is that of a repetition whose body matches nothing.  What
the body of a repetition takes it leaves less of the line for the next turn, so the turns end.

* `Line.Boundary`: an offset between characters.
* `Lexer.Part`: the lexers that a lexer is built from.
* `Lexer.Loops`: the turns of a repetition, without a bound on them.
* `Lexer.stalls_of_lex`: where a fault comes from.
* `Lexer.lex_confined`: faults, turns and matches of a lexer together.
-/

namespace Mixfix

/-- The offset is at the end of some first characters of the line. -/
def Line.Boundary (line : Line) (i : Nat) : Prop :=
  ∃ front back, line = front ++ back ∧ byteSize front = i

theorem Line.boundary_iff {line : Line} {i : Nat} :
    Line.Boundary line i ↔ (dropBytes i line).isSome := by
  rw [Option.isSome_iff_exists]
  constructor
  · rintro ⟨front, back, rfl, rfl⟩
    exact ⟨back, dropBytes_size_append front back⟩
  · rintro ⟨back, h⟩
    obtain ⟨front, rfl, hsize⟩ := dropBytes_eq_some h
    exact ⟨front, back, rfl, hsize⟩

theorem Line.Boundary.le {line : Line} {i : Nat} (h : Line.Boundary line i) :
    i ≤ byteSize line := by
  obtain ⟨front, back, rfl, rfl⟩ := h
  rw [byteSize_append]
  exact Nat.le_add_right _ _

namespace Lexer

variable {line : Line} {i : Nat} {f : Fault}

/-- The lexers that a lexer is built from, itself among them. -/
inductive Part : Lexer → Lexer → Prop where
  | self {l : Lexer} : Part l l
  | seq {l part : Lexer} {parts : List Lexer} : part ∈ parts → Part l part → Part l (.seq parts)
  | choice {l part : Lexer} {parts : List Lexer} :
      part ∈ parts → Part l part → Part l (.choice parts)
  | longest {l part : Lexer} {parts : List Lexer} :
      part ∈ parts → Part l part → Part l (.longest parts)
  | optional {l part : Lexer} : Part l part → Part l (.optional part)
  | many {l part : Lexer} : Part l part → Part l (.many part)
  | ahead {l part : Lexer} : Part l part → Part l (.ahead part)
  | notAhead {l part : Lexer} : Part l part → Part l (.notAhead part)

/-! ### Turns of a repetition -/

/-- The turns of a repetition from an offset, and what they come to: one match after another is
added up until there is none, a match of nothing is a fault, and so is a fault of the body. -/
inductive Loops (step : Nat → Except Fault (Option Nat)) : Nat → Except Fault Nat → Prop where
  | done {i : Nat} : step i = .ok none → Loops step i (.ok 0)
  | stalled {i : Nat} : step i = .ok (some 0) → Loops step i (.error (.lexerStalled i))
  | fault {i : Nat} {f : Fault} : step i = .error f → Loops step i (.error f)
  | next {i n : Nat} {total : Except Fault Nat} : step i = .ok (some n) → 0 < n →
      Loops step (i + n) total → Loops step i (total.map (n + ·))

/-- With a turn for every byte that is left and one more, a repetition makes all its turns. -/
theorem loops_iterate (body : Lexer) (hi : Line.Boundary line i) {fuel : Nat}
    (hfuel : byteSize line < i + fuel) :
    Loops (lex line body) i (iterate (lex line body) fuel i) := by
  induction fuel generalizing i with
  | zero => exact absurd hi.le (Nat.not_le.2 hfuel)
  | succ fuel ih =>
    rw [iterate]
    cases hstep : lex line body i with
    | error f => exact .fault hstep
    | ok answer =>
      rcases answer with _ | _ | n
      · exact .done hstep
      · exact .stalled hstep
      · have hnext : Line.Boundary line (i + (n + 1)) :=
          Line.boundary_iff.2 (isSome_dropBytes_of_lex (Line.boundary_iff.1 hi) hstep)
        have hturns := Loops.next hstep (Nat.succ_pos n) (ih hnext (by omega))
        show Loops (lex line body) i
          (do return n + 1 + (← iterate (lex line body) fuel (i + (n + 1))))
        generalize iterate (lex line body) fuel (i + (n + 1)) = total at hturns ⊢
        cases total <;> exact hturns

theorem loops_lex_many (body : Lexer) (hi : Line.Boundary line i) :
    ∃ total, Loops (lex line body) i total ∧ lex line (.many body) i = total.map some := by
  have hle := hi.le
  have hturns : byteSize line < i + (byteSize line + 1 - i) := by omega
  refine ⟨_, loops_iterate body hi hturns, ?_⟩
  rw [lex, if_neg (Nat.not_lt.2 hle)]

/-! ### Faults -/

/-- The fault is that of a repetition in the lexer: somewhere from the offset on, between two
characters, its body matches nothing. -/
def Stalls (line : Line) (l : Lexer) (i : Nat) (f : Fault) : Prop :=
  ∃ body o, Part (.many body) l ∧ i ≤ o ∧ Line.Boundary line o ∧
    lex line body o = .ok (some 0) ∧ f = .lexerStalled o

theorem Stalls.within {l whole : Lexer} {j : Nat} (h : Stalls line l j f)
    (hpart : ∀ {p}, Part p l → Part p whole) (hle : i ≤ j) : Stalls line whole i f := by
  obtain ⟨body, o, hbody, ho, hrest⟩ := h
  exact ⟨body, o, hpart hbody, Nat.le_trans hle ho, hrest⟩

theorem stalls_of_iterate {body : Lexer}
    (hbody : ∀ {i f}, (dropBytes i line).isSome → lex line body i = .error f →
      Stalls line body i f) {fuel : Nat} (hi : (dropBytes i line).isSome)
    (h : iterate (lex line body) fuel i = .error f) : Stalls line (.many body) i f := by
  induction fuel generalizing i with
  | zero => cases h
  | succ fuel ih =>
    rw [iterate] at h
    rcases except_bind_eq_error.1 h with h | ⟨answer, hanswer, h⟩
    · exact (hbody hi h).within .many (Nat.le_refl i)
    · rcases answer with _ | _ | n
      · cases h
      · cases h
        exact ⟨body, i, .self, Nat.le_refl i, Line.boundary_iff.2 hi, hanswer, rfl⟩
      · rcases except_bind_eq_error.1 h with h | ⟨total, -, h⟩
        · exact (ih (isSome_dropBytes_of_lex hi hanswer) h).within id (Nat.le_add_right i _)
        · cases h

mutual

/-- **From between two characters a lexer has no fault** but that of a repetition whose body matches
nothing. -/
theorem stalls_of_lex : ∀ {l : Lexer} {i : Nat} {f : Fault}, (dropBytes i line).isSome →
    lex line l i = .error f → Stalls line l i f
  | l, i, f, hi, h => by
    obtain ⟨rest, hrest⟩ := Option.isSome_iff_exists.1 hi
    have hin := not_lt_of_dropBytes hrest
    match l with
    | .empty =>
      rw [lex, if_neg hin] at h
      cases h
    | .literal text =>
      rw [lex_literal hrest] at h
      cases h
    | .charIf p =>
      rw [lex_charIf hrest] at h
      cases h
    | .seq parts =>
      rw [lex, if_neg hin] at h
      obtain ⟨part, hmem, hstalls⟩ := stalls_of_lexSeq hi h
      exact hstalls.within (.seq hmem) (Nat.le_refl i)
    | .choice alternatives =>
      rw [lex, if_neg hin] at h
      obtain ⟨part, hmem, hstalls⟩ := stalls_of_lexChoice hi h
      exact hstalls.within (.choice hmem) (Nat.le_refl i)
    | .longest alternatives =>
      rw [lex, if_neg hin] at h
      obtain ⟨part, hmem, hstalls⟩ := stalls_of_lexLongest hi h
      exact hstalls.within (.longest hmem) (Nat.le_refl i)
    | .optional l =>
      rw [lex, if_neg hin] at h
      exact (stalls_of_lex hi (except_map_eq_error.1 h)).within .optional (Nat.le_refl i)
    | .many l =>
      rw [lex, if_neg hin] at h
      exact stalls_of_iterate stalls_of_lex hi (except_map_eq_error.1 h)
    | .ahead l =>
      rw [lex, if_neg hin] at h
      exact (stalls_of_lex hi (except_map_eq_error.1 h)).within .ahead (Nat.le_refl i)
    | .notAhead l =>
      rw [lex, if_neg hin] at h
      exact (stalls_of_lex hi (except_map_eq_error.1 h)).within .notAhead (Nat.le_refl i)
    | .restOfLine =>
      rw [lex, if_neg hin] at h
      cases h

theorem stalls_of_lexSeq : ∀ {parts : List Lexer} {i : Nat} {f : Fault},
    (dropBytes i line).isSome → lexSeq line parts i = .error f →
      ∃ part ∈ parts, Stalls line part i f
  | [], i, f, hi, h => by
    rw [lexSeq] at h
    cases h
  | l :: parts, i, f, hi, h => by
    rw [lexSeq] at h
    rcases except_bind_eq_error.1 h with h | ⟨answer, hanswer, h⟩
    · exact ⟨l, List.mem_cons_self, stalls_of_lex hi h⟩
    · cases answer with
      | none => cases h
      | some n =>
        rcases except_bind_eq_error.1 h with h | ⟨total, -, h⟩
        · obtain ⟨part, hmem, hstalls⟩ :=
            stalls_of_lexSeq (isSome_dropBytes_of_lex hi hanswer) h
          exact ⟨part, List.mem_cons_of_mem l hmem, hstalls.within id (Nat.le_add_right i n)⟩
        · cases h

theorem stalls_of_lexChoice : ∀ {alternatives : List Lexer} {i : Nat} {f : Fault},
    (dropBytes i line).isSome → lexChoice line alternatives i = .error f →
      ∃ part ∈ alternatives, Stalls line part i f
  | [], i, f, hi, h => by
    rw [lexChoice] at h
    cases h
  | l :: alternatives, i, f, hi, h => by
    rw [lexChoice] at h
    rcases except_bind_eq_error.1 h with h | ⟨answer, -, h⟩
    · exact ⟨l, List.mem_cons_self, stalls_of_lex hi h⟩
    · cases answer with
      | none =>
        obtain ⟨part, hmem, hstalls⟩ := stalls_of_lexChoice hi h
        exact ⟨part, List.mem_cons_of_mem l hmem, hstalls⟩
      | some n => cases h

theorem stalls_of_lexLongest : ∀ {alternatives : List Lexer} {i : Nat} {best : Option Nat}
    {f : Fault}, (dropBytes i line).isSome → lexLongest line alternatives i best = .error f →
      ∃ part ∈ alternatives, Stalls line part i f
  | [], i, best, f, hi, h => by
    rw [lexLongest] at h
    cases h
  | l :: alternatives, i, best, f, hi, h => by
    rw [lexLongest] at h
    rcases except_bind_eq_error.1 h with h | ⟨answer, -, h⟩
    · exact ⟨l, List.mem_cons_self, stalls_of_lex hi h⟩
    · obtain ⟨part, hmem, hstalls⟩ := stalls_of_lexLongest hi h
      exact ⟨part, List.mem_cons_of_mem l hmem, hstalls⟩

end

/-! ### Lexers -/

/-- **Lexers stay inside the line.**  From between two characters, or past the end, a lexer faults
only where the body of one of its repetitions matches nothing; its repetitions end after finitely
many turns; and what it takes lies in the line and ends between characters. -/
theorem lex_confined (l : Lexer) (h : Line.Boundary line i ∨ byteSize line < i) :
    (∀ f, lex line l i = .error f → ∃ body o, Part (.many body) l ∧ i ≤ o ∧
      Line.Boundary line o ∧ lex line body o = .ok (some 0) ∧ f = .lexerStalled o) ∧
    (∀ body, Part (.many body) l → ∀ o, Line.Boundary line o →
      ∃ total, Loops (lex line body) o total ∧ lex line (.many body) o = total.map some) ∧
    ∀ n, lex line l i = .ok (some n) → i + n ≤ byteSize line ∧ Line.Boundary line (i + n) := by
  refine ⟨fun f hf => ?_, fun body _ o ho => loops_lex_many body ho, fun n hn => ?_⟩
  · rcases h with hi | hpast
    · exact stalls_of_lex (Line.boundary_iff.1 hi) hf
    · rw [lex_past hpast] at hf
      cases hf
  · rcases h with hi | hpast
    · have hstop : Line.Boundary line (i + n) :=
        Line.boundary_iff.2 (isSome_dropBytes_of_lex (Line.boundary_iff.1 hi) hn)
      exact ⟨hstop.le, hstop⟩
    · rw [lex_past hpast] at hn
      cases hn

/-- An identifier, blanks that may be missing, and every `é` that stands as a word; behind these the
repetition looks ahead for `!` without taking it. -/
def wavering : Lexer :=
  .seq [identifier, .optional blanks, .many (.longest [word ['é'], .ahead (.literal ['!'])])]

/-- From inside `né é!` it stalls in front of the `!`: that is a place between characters where the
body of its repetition matches nothing. -/
theorem wavering_confined : Line.Boundary ['n', 'é', ' ', 'é', '!'] 1 ∧
    lex ['n', 'é', ' ', 'é', '!'] wavering 1 = .error (.lexerStalled 6) ∧
    (∃ body, Part (.many body) wavering ∧ lex ['n', 'é', ' ', 'é', '!'] body 6 = .ok (some 0)) ∧
    ∃ total, Loops (lex ['n', 'é', ' ', 'é', '!'] (.charIf isWordChar)) 1 total ∧
      lex ['n', 'é', ' ', 'é', '!'] (.many (.charIf isWordChar)) 1 = total.map some := by
  have hstart : Line.Boundary ['n', 'é', ' ', 'é', '!'] 1 := ⟨['n'], _, rfl, rfl⟩
  have hfault : lex ['n', 'é', ' ', 'é', '!'] wavering 1 = .error (.lexerStalled 6) := rfl
  obtain ⟨hstalls, hturns, -⟩ := lex_confined wavering (.inl hstart)
  obtain ⟨body, o, hbody, -, -, hnothing, heq⟩ := hstalls _ hfault
  cases heq
  -- The letters of an identifier are taken by a repetition as well.
  have hletters : Part (.many (.charIf isWordChar)) wavering :=
    .seq List.mem_cons_self (.seq (List.mem_cons_of_mem _ List.mem_cons_self) .self)
  exact ⟨hstart, hfault, ⟨body, hbody, hnothing⟩, hturns _ hletters 1 hstart⟩

end Lexer

end Mixfix
