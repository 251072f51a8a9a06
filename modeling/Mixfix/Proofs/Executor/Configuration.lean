import Mixfix.Proofs.Executor.Stacks

/-!
# Executors under other configurations

The configuration of an executor matters where a run cannot go on, and nowhere else.  So a run that
comes to a result without guesses comes to the same one whatever is configured; and a run that would
fail gives, with a tag for it, a tree over the tokens shifted so far.  Tokens that were read ahead
of their shift leave no mark on that tree.

* `Executor.under`: an executor with another configuration.
* `Executor.Shifted`: the tokens that some steps shift.
* `Executor.Shifted.cursor_eq`: a machine stands where the last of them ends.
* `Executor.step_under`: a step under another configuration.
* `Executor.parser_under`: what other configurations make of a run.
-/

namespace Mixfix

namespace Executor

variable {σ : Type} {e : Executor σ} {w : Window} {origin : Position} {m m' : Machine σ}
  {config : ExecutorConfig} {resolve : Bool}

/-- The executor with another configuration. -/
def under (e : Executor σ) (config : ExecutorConfig) : Executor σ := { e with config }

/-! ### The tokens of a run -/

/-- The token that a step of the machine shifts: the plan comes to the shift of its terminal, and
the buffer has it, or its parser finds it at the place of the machine. -/
def Supplies (e : Executor σ) (w : Window) (m : Machine σ) (token : Ahead σ) : Prop :=
  ∃ i plan target munch buffer, m.states.head? = some i ∧ e.table.plan? i = some plan ∧
    (e.walk w m plan 0 m.buffer).result = .ok (some (.shift target token.terminal munch, buffer)) ∧
    ((∃ others, e.supply token.terminal munch buffer = .buffered token.parsed others) ∨
      e.supply token.terminal munch buffer = .unread ∧
        e.Reads w m.cursor token.terminal token.parsed)

/-- Steps that go on, with the tokens that they shift. -/
inductive Shifted (e : Executor σ) (w : Window) (origin : Position) :
    Machine σ → List (Ahead σ) → Machine σ → Prop where
  | refl (m : Machine σ) : Shifted e w origin m [] m
  /-- A step that shifts a token. -/
  | token {m m₁ m' : Machine σ} {token : Ahead σ} {tokens : List (Ahead σ)} :
      (e.step w origin m).result = .ok (.running m₁) → e.Supplies w m token →
      Shifted e w origin m₁ tokens m' → Shifted e w origin m (token :: tokens) m'
  /-- A reduction, or a shift of nothing. -/
  | other {m m₁ m' : Machine σ} {tokens : List (Ahead σ)} :
      (e.step w origin m).result = .ok (.running m₁) → (∀ token, ¬ e.Supplies w m token) →
      Shifted e w origin m₁ tokens m' → Shifted e w origin m tokens m'

/-- A walk comes to one shift, and one token is there for it. -/
theorem Supplies.unique {token token' : Ahead σ} (h : e.Supplies w m token)
    (h' : e.Supplies w m token') : token' = token := by
  obtain ⟨i, plan, target, munch, buffer, hi, hplan, hwalk, hsupply⟩ := h
  obtain ⟨i', plan', target', munch', buffer', hi', hplan', hwalk', hsupply'⟩ := h'
  cases hi.symm.trans hi'
  cases hplan.symm.trans hplan'
  obtain ⟨t, parsed⟩ := token
  obtain ⟨t', parsed'⟩ := token'
  cases hwalk.symm.trans hwalk'
  rcases hsupply with ⟨others, hsupply⟩ | ⟨hsupply, parser, hparser, hreads⟩ <;>
    rcases hsupply' with ⟨others', hsupply'⟩ | ⟨hsupply', parser', hparser', hreads'⟩ <;>
    cases hsupply.symm.trans hsupply'
  · rfl
  · cases hparser.symm.trans hparser'
    cases hreads.symm.trans hreads'
    rfl

/-- A shift that goes on takes the token that is supplied for it, or takes nothing and stays. -/
theorem shift_supplies {current target munch : Nat} {t : Handle}
    (h : (e.shift w origin m current target t munch).result = .ok (.running m')) :
    (∃ parsed, m'.cursor = parsed.cursor ∧
      ((∃ others, e.supply t munch m.buffer = .buffered parsed others) ∨
        e.supply t munch m.buffer = .unread ∧ e.Reads w m.cursor t parsed)) ∨
      e.supply t munch m.buffer = .empty ∧ m'.cursor = m.cursor := by
  rw [shift] at h
  split at h
  · exact absurd h giveUp_ne_running
  · next hsupply =>
    obtain ⟨_, -, h⟩ := Traced.bind_eq_ok.1 h
    cases h
    exact .inr ⟨hsupply, rfl⟩
  · next parsed others hsupply =>
    obtain ⟨_, -, h⟩ := Traced.bind_eq_ok.1 h
    cases h
    exact .inl ⟨parsed, rfl, .inl ⟨others, hsupply⟩⟩
  · next hsupply =>
    obtain ⟨parser, hparser, h⟩ := Traced.bind_eq_ok.1 h
    obtain ⟨answer, hanswer, h⟩ := Traced.bind_eq_ok.1 h
    cases answer with
    | none => exact absurd h giveUp_ne_running
    | some parsed =>
      obtain ⟨_, -, h⟩ := Traced.bind_eq_ok.1 h
      cases h
      exact .inl ⟨parsed, rfl, .inr ⟨hsupply, parser, parserOf_eq_ok.1 hparser, hanswer⟩⟩

/-- A step that goes on leads to the end of the token that it shifts; if there is none, it stays at
its place. -/
theorem step_supplies (h : (e.step w origin m).result = .ok (.running m')) :
    (∃ token, e.Supplies w m token ∧ m'.cursor = token.parsed.cursor) ∨
      (∀ token, ¬ e.Supplies w m token) ∧ m'.cursor = m.cursor := by
  obtain ⟨i, states, plan, move, buffer, hstates, hplan, hwalk, hmove⟩ := step_running h
  have hhead : m.states.head? = some i := by rw [hstates]; rfl
  -- Whatever is supplied, the walk comes to its shift.
  have hshift : ∀ token, e.Supplies w m token → ∃ target munch,
      move = .shift target token.terminal munch ∧
        e.supply token.terminal munch buffer ≠ .empty := by
    rintro token ⟨i', plan', target, munch, buffer', hhead', hplan', hwalk', hsupply⟩
    cases hhead.symm.trans hhead'
    cases hplan.symm.trans hplan'
    cases hwalk.symm.trans hwalk'
    refine ⟨target, munch, rfl, fun hempty => ?_⟩
    rcases hsupply with ⟨others, hsupply⟩ | ⟨hsupply, -⟩ <;> cases hempty.symm.trans hsupply
  cases move with
  | shift target t munch =>
    rcases shift_supplies hmove with ⟨parsed, hcursor, hsupply⟩ | ⟨hempty, hcursor⟩
    · exact .inl ⟨⟨t, parsed⟩, ⟨i, plan, target, munch, buffer, hhead, hplan, hwalk, hsupply⟩,
        hcursor⟩
    · refine .inr ⟨fun token htoken => ?_, hcursor⟩
      obtain ⟨_, _, heq, hne⟩ := hshift token htoken
      cases heq
      exact hne hempty
  | reduce id =>
    obtain ⟨_, _, _, _, _, -, -, -, -, -, heq⟩ := reduce_eq_ok.1 hmove
    cases heq
    refine .inr ⟨fun token htoken => ?_, rfl⟩
    obtain ⟨_, _, heq, -⟩ := hshift token htoken
    cases heq
  | accept => exact absurd hmove accept_ne_running

namespace Shifted

variable {tokens : List (Ahead σ)}

/-- A step in front of others. -/
theorem exists_head {m₁ : Machine σ} (hstep : (e.step w origin m).result = .ok (.running m₁))
    (h : e.Shifted w origin m₁ tokens m') : ∃ tokens', e.Shifted w origin m tokens' m' := by
  rcases step_supplies hstep with ⟨token, htoken, -⟩ | ⟨hnone, -⟩
  · exact ⟨token :: tokens, .token hstep htoken h⟩
  · exact ⟨tokens, .other hstep hnone h⟩

/-- **Read-ahead leaves no mark.** The place and the user's state of a machine are those after the
last token that was shifted. -/
theorem cursor_eq (h : e.Shifted w origin m tokens m') : m'.cursor = m.cursor.past tokens := by
  induction h with
  | refl => rfl
  | @token m m₁ m' token tokens hstep htoken _ ih =>
    rcases step_supplies hstep with ⟨token', htoken', hcursor⟩ | ⟨hnone, -⟩
    · rw [htoken.unique htoken'] at hcursor
      rw [ih, hcursor, Cursor.past_cons]
    · exact absurd htoken (hnone token)
  | @other m m₁ m' tokens hstep hnone _ ih =>
    rcases step_supplies hstep with ⟨token, htoken, -⟩ | ⟨-, hcursor⟩
    · exact absurd htoken (hnone token)
    · rw [ih, hcursor]

end Shifted

/-! ### Reading under another configuration -/

theorem scan_under (config : ExecutorConfig) (s : σ) (w : Window) (p : Position) (ts : List Handle)
    (found : Option (Ahead σ)) : (e.under config).scan s w p ts found = e.scan s w p ts found := by
  induction ts generalizing found with
  | nil => rfl
  | cons t ts ih =>
    rw [scan, scan]
    simp only [ih]
    rfl

theorem read_under (config : ExecutorConfig) (ts : List Handle) (depth : Nat)
    (buffer : List (Ahead σ)) :
    (e.under config).read w m ts depth buffer = e.read w m ts depth buffer := by
  rw [read_eq, read_eq]
  simp only [scan_under]

mutual

/-- A walk comes to the same move where guesses are followed as before, or only now.  It comes to
none again where they are not followed now either. -/
theorem walk_under (hresolve : e.config.resolve → config.resolve)
    {answer : Option (Move × List (Ahead σ))}
    (hnone : answer = none → config.resolve → e.config.resolve) :
    ∀ {plan : Plan} {depth : Nat} {buffer : List (Ahead σ)},
      (e.walk w m plan depth buffer).result = .ok answer →
      ((e.under config).walk w m plan depth buffer).result = .ok answer
  | .shift _ _ _, _, _, h | .reduce _, _, _, h | .accept, _, _, h | .error none, _, _, h => by
    rw [walk] at h ⊢
    exact h
  | .error (some guess), _, _, h => by
    rw [walk] at h ⊢
    split at h
    · next hguess =>
      rw [if_pos (show (e.under config).config.resolve from hresolve hguess)]
      exact walk_under hresolve hnone h
    · next hguess =>
      cases h
      exact congrArg Traced.result (if_neg fun hconfig => hguess (hnone rfl hconfig))
  | .read branches, _, _, h => by
    rw [walk, Traced.bind_eq_ok] at h ⊢
    obtain ⟨found, hfound, h⟩ := h
    refine ⟨found, by rw [read_under]; exact hfound, ?_⟩
    cases found with
    | none => exact h
    | some found => exact walkBranch_under hresolve hnone h

theorem walkBranch_under (hresolve : e.config.resolve → config.resolve)
    {answer : Option (Move × List (Ahead σ))}
    (hnone : answer = none → config.resolve → e.config.resolve) :
    ∀ {branches : List (List Handle × Plan)} {t : Handle} {depth : Nat} {buffer : List (Ahead σ)},
      (e.walkBranch w m branches t depth buffer).result = .ok answer →
      ((e.under config).walkBranch w m branches t depth buffer).result = .ok answer
  | [], _, _, _, h => by
    rw [walkBranch] at h ⊢
    exact h
  | (cls, plan) :: branches, _, _, _, h => by
    rw [walkBranch] at h ⊢
    split at h
    · next hin =>
      rw [if_pos hin]
      exact walk_under hresolve hnone h
    · next hout =>
      rw [if_neg hout]
      exact walkBranch_under hresolve hnone h

end

/-! ### Steps under another configuration -/

/-- How a step ends under a configuration if it ends so without a tag for failures. -/
def settle (e : Executor σ) (w : Window) (origin : Position) (m : Machine σ) :
    Outcome σ → Except Fault (Outcome σ)
  | .finished none => (e.giveUp w origin m).result
  | outcome => .ok outcome

section

variable {outcome : Outcome σ} {current : Nat}

theorem giveUp_under (hinvalid : e.config.invalid = none)
    (h : (e.giveUp w origin m).result = .ok outcome) :
    ((e.under config).giveUp w origin m).result =
      (e.under config).settle w origin m outcome := by
  rw [giveUp, hinvalid] at h
  cases h
  rfl

theorem shift_under (hinvalid : e.config.invalid = none) {target munch : Nat} {t : Handle}
    (h : (e.shift w origin m current target t munch).result = .ok outcome) :
    ((e.under config).shift w origin m current target t munch).result =
      (e.under config).settle w origin m outcome := by
  rw [shift] at h ⊢
  rw [show (e.under config).supply t munch m.buffer = e.supply t munch m.buffer from rfl]
  split at h
  · exact giveUp_under hinvalid h
  · cases h
    rfl
  · cases h
    rfl
  · obtain ⟨parser, hparser, h⟩ := Traced.bind_eq_ok.1 h
    obtain ⟨answer, hanswer, h⟩ := Traced.bind_eq_ok.1 h
    refine (Traced.bind_of_ok hparser _).trans ((Traced.bind_of_ok hanswer _).trans ?_)
    cases answer with
    | none => exact giveUp_under hinvalid h
    | some parsed =>
      cases h
      rfl

theorem accept_under (hinvalid : e.config.invalid = none)
    (h : (e.accept w origin m current).result = .ok outcome) :
    ((e.under config).accept w origin m current).result =
      (e.under config).settle w origin m outcome := by
  unfold accept at h ⊢
  extract_lets conclude at h
  extract_lets conclude'
  have hconclude : ∀ answer, (conclude answer).result = .ok outcome →
      (conclude' answer).result = (e.under config).settle w origin m outcome := by
    intro answer h
    cases answer with
    | none => exact giveUp_under hinvalid h
    | some ending =>
      simp only [conclude, conclude'] at h ⊢
      split at h
      · cases h
        rfl
      · cases h
  split at h
  · obtain ⟨answer, hanswer, h⟩ := Traced.bind_eq_ok.1 h
    exact (Traced.bind_of_ok hanswer _).trans (hconclude answer h)
  · obtain ⟨parser, hparser, h⟩ := Traced.bind_eq_ok.1 h
    obtain ⟨answer, hanswer, h⟩ := Traced.bind_eq_ok.1 h
    exact (Traced.bind_of_ok hparser _).trans
      ((Traced.bind_of_ok hanswer _).trans (hconclude answer h))

/-- **One step, two configurations.** A step that does not fail is the same where guesses are
followed as before, or only now.  Where it fails and no other guesses are followed, the run is given
up under the other configuration too. -/
theorem step_under (config : ExecutorConfig) (hinvalid : e.config.invalid = none)
    (hresolve : e.config.resolve → config.resolve)
    (hfails : outcome = .finished none → config.resolve → e.config.resolve)
    (h : (e.step w origin m).result = .ok outcome) :
    ((e.under config).step w origin m).result =
      (e.under config).settle w origin m outcome := by
  unfold step at h ⊢
  split at h
  · cases h
  · next i states hstates =>
    rw [show (e.under config).table.plan? i = e.table.plan? i from rfl]
    split at h
    · cases h
    · next plan hplan =>
      obtain ⟨answer, hwalk, h⟩ := Traced.bind_eq_ok.1 h
      cases answer with
      | none =>
        have hnone : outcome = .finished none := by
          rw [giveUp, hinvalid] at h
          cases h
          rfl
        refine (Traced.bind_of_ok (walk_under hresolve (fun _ => hfails hnone) hwalk) _).trans ?_
        exact giveUp_under hinvalid h
      | some answer =>
        obtain ⟨move, buffer⟩ := answer
        have hwalk' := walk_under hresolve (fun h => absurd h (Option.some_ne_none _)) hwalk
        refine (Traced.bind_of_ok hwalk' _).trans ?_
        -- What a run is given up with does not depend on the buffer.
        cases move with
        | shift target t munch => exact shift_under (m := { m with buffer }) hinvalid h
        | reduce id =>
          obtain ⟨_, _, _, _, _, -, -, -, -, -, rfl⟩ := reduce_eq_ok.1 h
          exact h
        | accept => exact accept_under (m := { m with buffer }) hinvalid h

end

/-! ### Runs under another configuration -/

/-- A run with a result has the same one where guesses are followed as before, or only now. -/
theorem run_under (config : ExecutorConfig) (hinvalid : e.config.invalid = none)
    (hresolve : e.config.resolve → config.resolve) {limit : Nat} {parsed : Parsed σ}
    (h : (e.run w origin limit m).result = .ok (some parsed)) :
    ((e.under config).run w origin limit m).result = .ok (some parsed) := by
  induction limit generalizing m with
  | zero => cases h
  | succ limit ih =>
    rw [run, Traced.bind_eq_ok] at h
    obtain ⟨outcome, hstep, h⟩ := h
    have hne : outcome ≠ .finished none := by
      rintro rfl
      cases h
    have hstep' := step_under config hinvalid hresolve (fun h => absurd h hne) hstep
    rw [run]
    cases outcome with
    | running m' => exact (Traced.bind_of_ok hstep' _).trans (ih h)
    | finished answer =>
      cases h
      exact Traced.bind_of_ok hstep' _

/-- A run that fails comes to a machine that cannot go on, and a tag for failures makes a tree of
its nodes. -/
theorem run_recovers (config : ExecutorConfig) (hinvalid : e.config.invalid = none)
    (hresolve : e.config.resolve = config.resolve) {tag : String}
    (htag : config.invalid = some tag) {limit : Nat}
    (h : (e.run w origin limit m).result = .ok none) :
    ∃ tokens m', e.Shifted w origin m tokens m' ∧
      (e.step w origin m').result = .ok (.finished none) ∧
      ((e.under config).run w origin limit m).result = .ok (some ⟨m'.user,
        Node.make (.tagged tag) (w.spanBetween origin m'.position) m'.nodes.reverse,
        m'.position⟩) := by
  induction limit generalizing m with
  | zero => cases h
  | succ limit ih =>
    rw [run, Traced.bind_eq_ok] at h
    obtain ⟨outcome, hstep, h⟩ := h
    have hstep' := step_under config hinvalid (fun h => hresolve ▸ h)
      (fun _ h => hresolve ▸ h) hstep
    cases outcome with
    | running m₁ =>
      obtain ⟨tokens, m', hshifted, hstuck, hrun⟩ := ih h
      obtain ⟨tokens', hshifted'⟩ := hshifted.exists_head hstep
      refine ⟨tokens', m', hshifted', hstuck, ?_⟩
      rw [run]
      exact (Traced.bind_of_ok hstep' _).trans hrun
    | finished answer =>
      cases h
      refine ⟨[], m, .refl m, hstep, ?_⟩
      rw [settle, giveUp, show (e.under config).config.invalid = some tag from htag] at hstep'
      rw [run]
      exact Traced.bind_of_ok hstep' _

/-- **Configuration only extends results.** A result without guesses is the result under every
configuration, and a tag for failures changes no result.  Where a run fails, it has come to a
machine that cannot go on, and the tag gives a tree over what was shifted up to there: from the
start to the end of the last shifted token, or to the start if there was none; with what the nodes
of the machine leave as its children; and the run ends there, with the user's state after that
token. -/
theorem parser_under (e : Executor σ) (w : Window) (s : σ) (p : Position) (limit : Nat) :
    (∀ parsed,
      ((e.under ⟨none, false⟩).parser limit s w p).result = .ok (some parsed) →
        ∀ config, ((e.under config).parser limit s w p).result = .ok (some parsed)) ∧
    ∀ resolve tag,
      (∀ parsed,
        ((e.under ⟨none, resolve⟩).parser limit s w p).result = .ok (some parsed) →
          ((e.under ⟨some tag, resolve⟩).parser limit s w p).result = .ok (some parsed)) ∧
      (((e.under ⟨none, resolve⟩).parser limit s w p).result = .ok none →
        ∃ tokens m last, (e.under ⟨none, resolve⟩).Shifted w p (start s p) tokens m ∧
          ((e.under ⟨none, resolve⟩).step w p m).result = .ok (.finished none) ∧
          last = (⟨s, p⟩ : Cursor σ).past tokens ∧
          ((e.under ⟨some tag, resolve⟩).parser limit s w p).result = .ok (some
            { state := last.user
              node := .tree (.tagged tag) ⟨w.absolute p, w.absolute last.position⟩
                (m.nodes.reverse.flatMap Node.contribution)
              stop := last.position })) := by
  refine ⟨fun parsed h config => ?_, fun resolve tag => ⟨fun parsed h => ?_, fun h => ?_⟩⟩
  · exact run_under (e := e.under ⟨none, false⟩) config rfl (fun h => nomatch h) h
  · exact run_under (e := e.under ⟨none, resolve⟩) ⟨some tag, resolve⟩ rfl id h
  · obtain ⟨tokens, m, hshifted, hstuck, hrun⟩ :=
      run_recovers (e := e.under ⟨none, resolve⟩) ⟨some tag, resolve⟩ rfl rfl rfl h
    refine ⟨tokens, m, _, hshifted, hstuck, rfl, ?_⟩
    rw [← show m.cursor = (⟨s, p⟩ : Cursor σ).past tokens from hshifted.cursor_eq]
    exact hrun

set_option maxRecDepth 4000 in
theorem listParser_under :
    ((listExecutor.under ⟨none, false⟩).parser 20 0 listWindow .zero).result =
      .ok (some listParsed) ∧
    (∀ config, ((listExecutor.under config).parser 20 0 listWindow .zero).result =
      .ok (some listParsed)) ∧
    ((listExecutor.under ⟨none, true⟩).parser 20 0 (.ofSource (.ofText "bbx")) .zero).result =
      .ok none ∧
    ∃ tokens m last,
      (listExecutor.under ⟨none, true⟩).Shifted (.ofSource (.ofText "bbx")) .zero (start 0 .zero)
        tokens m ∧
      ((listExecutor.under ⟨none, true⟩).step (.ofSource (.ofText "bbx")) .zero m).result =
        .ok (.finished none) ∧
      last = (⟨0, .zero⟩ : Cursor Nat).past tokens ∧
      ((listExecutor.under ⟨some "?", true⟩).parser 20 0 (.ofSource (.ofText "bbx")) .zero).result =
        .ok (some
          { state := last.user
            node := .tree (.tagged "?")
              ⟨(Window.ofSource (.ofText "bbx")).absolute .zero,
                (Window.ofSource (.ofText "bbx")).absolute last.position⟩
              (m.nodes.reverse.flatMap Node.contribution)
            stop := last.position }) := by
  have hparsed : ((listExecutor.under ⟨none, false⟩).parser 20 0 listWindow .zero).result =
      .ok (some listParsed) := rfl
  have hfails : ((listExecutor.under ⟨none, true⟩).parser 20 0 (.ofSource (.ofText "bbx"))
      .zero).result = .ok none := rfl
  exact ⟨hparsed, (parser_under listExecutor listWindow 0 .zero 20).1 _ hparsed, hfails,
    ((parser_under listExecutor (.ofSource (.ofText "bbx")) 0 .zero 20).2 true "?").2 hfails⟩

end Executor

end Mixfix
