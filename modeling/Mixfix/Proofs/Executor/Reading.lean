import Mixfix.Proofs.Derivation
import Mixfix.Proofs.Plan.Leaves

/-!
# What an executor reads

A token is taken for a terminal where the terminal's parser, or that of its non-empty variant,
succeeds; a possibly empty terminal may also be taken for nothing.  Tokens form a chain when each is
taken at the place where the one before ends.

* `Executor.Chain`: a row of tokens taken one after the other.
* `Executor.Buffered`: the buffer of a machine holds tokens that were read one after the other, each
  by the parser of its own terminal.
* `Executor.walk_result`: a walk comes to a leaf of its plan, and keeps such a buffer.
-/

namespace Mixfix

/-- A place in a window, with the user's state there. -/
structure Cursor (σ : Type) where
  user : σ
  position : Position

/-- The place after a result. -/
def Parsed.cursor {σ : Type} (parsed : Parsed σ) : Cursor σ := ⟨parsed.state, parsed.stop⟩

/-- The place after some tokens. -/
def Cursor.past {σ : Type} (c : Cursor σ) (tokens : List (Executor.Ahead σ)) : Cursor σ :=
  (tokens.getLast?).elim c (·.parsed.cursor)

theorem Cursor.past_cons {σ : Type} (c : Cursor σ) (token : Executor.Ahead σ)
    (tokens : List (Executor.Ahead σ)) :
    c.past (token :: tokens) = token.parsed.cursor.past tokens := by
  rw [past, past, List.getLast?_cons]
  cases tokens.getLast? <;> rfl

theorem Cursor.past_append {σ : Type} (c : Cursor σ) (ts us : List (Executor.Ahead σ)) :
    c.past (ts ++ us) = (c.past ts).past us := by
  induction ts generalizing c with
  | nil => rfl
  | cons t ts ih => rw [List.cons_append, past_cons, past_cons, ih]

namespace Executor

variable {σ : Type} {e : Executor σ} {w : Window}

/-- The place of a machine. -/
def Machine.cursor (m : Machine σ) : Cursor σ := ⟨m.user, m.position⟩

/-- The parser of a terminal succeeds at a place. -/
def Reads (e : Executor σ) (w : Window) (c : Cursor σ) (t : Handle) (parsed : Parsed σ) : Prop :=
  ∃ parser, e.terminals.lookup t = some parser ∧
    (parser c.user w c.position).result = .ok (some parsed)

/-- A token that may be taken at a place for its terminal. -/
inductive Takes (e : Executor σ) (w : Window) (c : Cursor σ) : Ahead σ → Prop where
  | own {t : Handle} {parsed : Parsed σ} : e.Reads w c t parsed → Takes e w c ⟨t, parsed⟩
  /-- The non-empty variant of a possibly empty terminal is there. -/
  | variant {t u : Handle} {parsed : Parsed σ} : e.table.grammar.registry.nonEmptyOf t = some u →
      e.Reads w c u parsed → Takes e w c ⟨t, parsed⟩
  /-- A possibly empty terminal is empty. -/
  | empty {t : Handle} : (e.table.grammar.registry.nonEmptyOf t).isSome →
      Takes e w c ⟨t, Parser.nothing c.user w c.position⟩

/-- Tokens taken one after the other, from one place to another. -/
inductive Chain (e : Executor σ) (w : Window) : Cursor σ → List (Ahead σ) → Cursor σ → Prop where
  | nil (c : Cursor σ) : Chain e w c [] c
  | cons {c d : Cursor σ} {token : Ahead σ} {tokens : List (Ahead σ)} : e.Takes w c token →
      Chain e w token.parsed.cursor tokens d → Chain e w c (token :: tokens) d

theorem Chain.append {c d d' : Cursor σ} {ts us : List (Ahead σ)} (h : e.Chain w c ts d)
    (h' : e.Chain w d us d') : e.Chain w c (ts ++ us) d' := by
  induction h with
  | nil => exact h'
  | cons ht _ ih => exact .cons ht (ih h')

/-- A chain ends where its last token ends. -/
theorem Chain.position {c d : Cursor σ} {ts : List (Ahead σ)} (h : e.Chain w c ts d) :
    d.position = Derivation.stopOf ts c.position := by
  induction h with
  | nil => rfl
  | @cons c d token tokens _ _ ih =>
    rw [ih, ← List.singleton_append, Derivation.stopOf_append]
    rfl

/-- Tokens read ahead of a place, each by the parser of its own terminal. -/
def Buffered (e : Executor σ) (w : Window) : Cursor σ → List (Ahead σ) → Prop
  | _, [] => True
  | c, token :: tokens =>
    e.Reads w c token.terminal token.parsed ∧ Buffered e w token.parsed.cursor tokens

theorem Buffered.append {c : Cursor σ} {tokens : List (Ahead σ)} (h : e.Buffered w c tokens)
    {token : Ahead σ} (ht : e.Reads w (c.past tokens) token.terminal token.parsed) :
    e.Buffered w c (tokens ++ [token]) := by
  induction tokens generalizing c with
  | nil => exact ⟨ht, trivial⟩
  | cons t tokens ih =>
    rw [Cursor.past_cons] at ht
    exact ⟨h.1, ih h.2 ht⟩

theorem parserOf_eq_ok {t : Handle} {parser : Parser σ} :
    e.parserOf t = .ok parser ↔ e.terminals.lookup t = some parser := by
  unfold parserOf
  cases e.terminals.lookup t with
  | none =>
    constructor
    · intro h
      obtain ⟨_, _, h⟩ := except_bind_eq_ok.1 h
      cases h
    · intro h
      cases h
  | some parser' => simp

/-! ### Reading -/

/-- A scan gives what it was given or a token that a parser of its terminals reads. -/
theorem scan_result {s : σ} {p : Position} {ts : List Handle} {found : Option (Ahead σ)}
    {token : Ahead σ} (h : (e.scan s w p ts found).result = .ok (some token)) :
    found = some token ∨ token.terminal ∈ ts ∧ e.Reads w ⟨s, p⟩ token.terminal token.parsed := by
  induction ts generalizing found with
  | nil => cases h; exact .inl rfl
  | cons t ts ih =>
    rw [scan, Traced.bind_eq_ok] at h
    obtain ⟨parser, hparser, h⟩ := h
    obtain ⟨answer, hanswer, h⟩ := Traced.bind_eq_ok.1 h
    have hlookup := parserOf_eq_ok.1 hparser
    cases answer with
    | none => exact (ih h).imp_right fun ⟨ht, hr⟩ => ⟨List.mem_cons_of_mem t ht, hr⟩
    | some parsed =>
      cases found with
      | none =>
        rcases ih h with hf | ⟨ht, hr⟩
        · cases hf
          exact .inr ⟨List.mem_cons_self, parser, hlookup, hanswer⟩
        · exact .inr ⟨List.mem_cons_of_mem t ht, hr⟩
      | some other =>
        obtain ⟨_, -, h⟩ := Traced.bind_eq_ok.1 h
        cases h

/-- The place where the next token of a machine is read. -/
theorem read_eq (m : Machine σ) (ts : List Handle) (depth : Nat) (buffer : List (Ahead σ)) :
    e.read w m ts depth buffer =
      match buffer[depth]? with
      | some token => pure (some (token.terminal, buffer))
      | none => do
        match ← e.scan (m.cursor.past buffer).user w (m.cursor.past buffer).position
            ts none with
        | none => return none
        | some token =>
          Traced.emit (.read token.terminal (m.cursor.past buffer).position)
          return some (token.terminal, buffer ++ [token]) := by
  unfold read Cursor.past
  cases buffer[depth]? with
  | some token => rfl
  | none => cases buffer.getLast? <;> rfl

theorem read_result {m : Machine σ} {ts : List Handle} {depth : Nat}
    {buffer buffer' : List (Ahead σ)} {t : Handle}
    (h : (e.read w m ts depth buffer).result = .ok (some (t, buffer')))
    (hb : e.Buffered w m.cursor buffer) : e.Buffered w m.cursor buffer' := by
  rw [read_eq] at h
  split at h
  · cases h
    exact hb
  · obtain ⟨found, hfound, h⟩ := Traced.bind_eq_ok.1 h
    cases found with
    | none => cases h
    | some token =>
      obtain ⟨_, -, h⟩ := Traced.bind_eq_ok.1 h
      cases h
      rcases scan_result hfound with hf | ⟨-, hr⟩
      · cases hf
      · exact hb.append hr

/-- A move as a leaf of a plan. -/
def Move.leaf : Move → Plan
  | .shift target terminal munch => .shift target terminal munch
  | .reduce rule => .reduce rule
  | .accept => .accept

mutual

/-- A walk comes to a leaf of its plan, and only adds tokens that were read in turn. -/
theorem walk_result {m : Machine σ} {move : Move} {buffer' : List (Ahead σ)} :
    ∀ {plan : Plan} {depth : Nat} {buffer : List (Ahead σ)},
      (e.walk w m plan depth buffer).result = .ok (some (move, buffer')) →
      move.leaf ∈ plan.leaves ∧ (e.Buffered w m.cursor buffer → e.Buffered w m.cursor buffer')
  | .shift target terminal munch, depth, buffer, h => by
    rw [walk] at h
    cases h
    exact ⟨by simp [Plan.leaves, Move.leaf], id⟩
  | .reduce rule, depth, buffer, h => by
    rw [walk] at h
    cases h
    exact ⟨by simp [Plan.leaves, Move.leaf], id⟩
  | .accept, depth, buffer, h => by
    rw [walk] at h
    cases h
    exact ⟨by simp [Plan.leaves, Move.leaf], id⟩
  | .error none, depth, buffer, h => by
    rw [walk] at h
    cases h
  | .error (some guess), depth, buffer, h => by
    rw [walk] at h
    split at h
    · rw [Plan.leaves]
      exact walk_result h
    · cases h
  | .read branches, depth, buffer, h => by
    rw [walk, Traced.bind_eq_ok] at h
    obtain ⟨answer, hanswer, h⟩ := h
    cases answer with
    | none => cases h
    | some answer =>
      rw [Plan.leaves]
      exact (walkBranch_result h).imp_right fun hrest hb => hrest (read_result hanswer hb)

theorem walkBranch_result {m : Machine σ} {move : Move} {buffer' : List (Ahead σ)} :
    ∀ {branches : List (List Handle × Plan)} {t : Handle} {depth : Nat} {buffer : List (Ahead σ)},
      (e.walkBranch w m branches t depth buffer).result = .ok (some (move, buffer')) →
      move.leaf ∈ Plan.leavesAll branches ∧
        (e.Buffered w m.cursor buffer → e.Buffered w m.cursor buffer')
  | [], t, depth, buffer, h => by
    rw [walkBranch] at h
    cases h
  | (cls, plan) :: branches, t, depth, buffer, h => by
    rw [walkBranch] at h
    rw [Plan.leavesAll, List.mem_append]
    split at h
    · exact (walk_result h).imp_left .inl
    · exact (walkBranch_result h).imp_left .inr

end

end Executor

end Mixfix
