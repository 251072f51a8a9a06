import Mixfix.Proofs.Executor.Faults

/-!
# Clashes of terminals

A run gives up at a clash only where two different terminals of one read match at one place.

* `Executor.scan_clash`: what a clash in a scan takes.
* `Executor.run_clash`: a clash in a run is one in a scan of a read.
-/

namespace Mixfix

namespace Executor

variable {σ : Type} {e : Executor σ} {w : Window} {x y : Handle} {q : Position}

/-- The parser of a terminal reports the event somewhere. -/
def Reports (e : Executor σ) (w : Window) (event : Event) : Prop :=
  ∃ t parser, e.terminals.lookup t = some parser ∧
    ∃ c : Cursor σ, event ∈ (parser c.user w c.position).events

theorem reports_of_parserOf {t : Handle} {parser : Parser σ} (hp : e.parserOf t = .ok parser)
    {s : σ} {p : Position} {event : Event} (h : event ∈ (parser s w p).events) :
    e.Reports w event :=
  ⟨t, parser, parserOf_eq_ok.1 hp, ⟨s, p⟩, h⟩

/-! ### Scans -/

/-- A scan of different terminals clashes where two of them match. -/
theorem scan_clash {s : σ} {p : Position} {ts : List Handle} {found : Option (Ahead σ)}
    (hf : ∀ token ∈ found, token.terminal ∉ ts ∧ e.Reads w ⟨s, p⟩ token.terminal token.parsed)
    (hn : ts.Nodup) (h : .clash x y q ∈ (e.scan s w p ts found).events) :
    e.Reports w (.clash x y q) ∨ ∃ t u parsed parsed', t ≠ u ∧
      (t ∈ ts ∨ ∃ token ∈ found, token.terminal = t) ∧ u ∈ ts ∧
      e.Reads w ⟨s, p⟩ t parsed ∧ e.Reads w ⟨s, p⟩ u parsed' := by
  induction ts generalizing found with
  | nil => cases h
  | cons t ts ih =>
    obtain ⟨ht, hn⟩ := List.nodup_cons.1 hn
    rw [scan] at h
    rcases Traced.mem_bind_events h with h | ⟨parser, hparser, h⟩
    · cases h
    · rcases Traced.mem_bind_events h with h | ⟨answer, hanswer, h⟩
      · exact .inl (reports_of_parserOf hparser h)
      · cases answer with
        | none =>
          have hf' : ∀ token ∈ found, token.terminal ∉ ts ∧
              e.Reads w ⟨s, p⟩ token.terminal token.parsed := fun token htoken =>
            ⟨fun hmem => (hf token htoken).1 (List.mem_cons_of_mem t hmem), (hf token htoken).2⟩
          refine (ih hf' hn h).imp_right ?_
          rintro ⟨t', u, parsed, parsed', hne, ht', hu, hreads, hreads'⟩
          exact ⟨t', u, parsed, parsed', hne, ht'.imp_left (List.mem_cons_of_mem t),
            List.mem_cons_of_mem t hu, hreads, hreads'⟩
        | some parsed =>
          have hreads : e.Reads w ⟨s, p⟩ t parsed := ⟨parser, parserOf_eq_ok.1 hparser, hanswer⟩
          cases found with
          | none =>
            have hf' : ∀ token ∈ some (Ahead.mk t parsed), token.terminal ∉ ts ∧
                e.Reads w ⟨s, p⟩ token.terminal token.parsed := by
              rintro _ ⟨⟩
              exact ⟨ht, hreads⟩
            refine (ih hf' hn h).imp_right ?_
            rintro ⟨t', u, parsed', parsed'', hne, ht', hu, hreads', hreads''⟩
            refine ⟨t', u, parsed', parsed'', hne, .inl ?_, List.mem_cons_of_mem t hu, hreads',
              hreads''⟩
            rcases ht' with ht' | ⟨_, ⟨⟩, rfl⟩
            · exact List.mem_cons_of_mem t ht'
            · exact List.mem_cons_self
          | some other =>
            obtain ⟨hother, hreads'⟩ := hf other rfl
            refine .inr ⟨other.terminal, t, other.parsed, parsed, ?_, .inr ⟨other, rfl, rfl⟩,
              List.mem_cons_self, hreads', hreads⟩
            exact fun heq => hother (heq ▸ List.mem_cons_self)

/-! ### Walks -/

theorem read_clash {m : Machine σ} {ts : List Handle} {depth : Nat} {buffer : List (Ahead σ)}
    (h : .clash x y q ∈ (e.read w m ts depth buffer).events) :
    ∃ s p, .clash x y q ∈ (e.scan s w p ts none).events := by
  rw [read_eq] at h
  split at h
  · cases h
  · rcases Traced.mem_bind_events h with h | ⟨found, -, h⟩
    · exact ⟨_, _, h⟩
    · cases found with
      | none => cases h
      | some token =>
        rcases Traced.mem_bind_events h with h | ⟨_, -, h⟩
        · cases h with
          | tail _ h => cases h
        · cases h

mutual

/-- A walk clashes only in a scan of one of its reads. -/
theorem walk_clash {m : Machine σ} : ∀ {plan : Plan} {depth : Nat} {buffer : List (Ahead σ)},
    .clash x y q ∈ (e.walk w m plan depth buffer).events →
    ∃ node ∈ plan.reads, ∃ s p, .clash x y q ∈ (e.scan s w p node.flatten none).events
  | .shift _ _ _, depth, buffer, h => by
    rw [walk] at h
    cases h
  | .reduce _, depth, buffer, h => by
    rw [walk] at h
    cases h
  | .accept, depth, buffer, h => by
    rw [walk] at h
    cases h
  | .error none, depth, buffer, h => by
    rw [walk] at h
    cases h
  | .error (some guess), depth, buffer, h => by
    rw [walk] at h
    rw [Plan.reads]
    split at h
    · exact walk_clash h
    · cases h
  | .read branches, depth, buffer, h => by
    rw [walk] at h
    rw [Plan.reads]
    rcases Traced.mem_bind_events h with h | ⟨answer, -, h⟩
    · rw [List.flatMap_def] at h
      exact ⟨_, List.mem_cons_self, read_clash h⟩
    · cases answer with
      | none => cases h
      | some answer =>
        obtain ⟨node, hn, hscan⟩ := walkBranch_clash h
        exact ⟨node, List.mem_cons_of_mem _ hn, hscan⟩

theorem walkBranch_clash {m : Machine σ} : ∀ {branches : List (List Handle × Plan)} {t : Handle}
    {depth : Nat} {buffer : List (Ahead σ)},
    .clash x y q ∈ (e.walkBranch w m branches t depth buffer).events →
    ∃ node ∈ Plan.readsAll branches, ∃ s p,
      .clash x y q ∈ (e.scan s w p node.flatten none).events
  | [], t, depth, buffer, h => by
    rw [walkBranch] at h
    cases h
  | (cls, plan) :: branches, t, depth, buffer, h => by
    rw [walkBranch] at h
    rw [Plan.readsAll]
    split at h
    · obtain ⟨node, hn, hscan⟩ := walk_clash h
      exact ⟨node, List.mem_append_left _ hn, hscan⟩
    · obtain ⟨node, hn, hscan⟩ := walkBranch_clash h
      exact ⟨node, List.mem_append_right _ hn, hscan⟩

end

/-! ### Runs -/

theorem giveUp_clash {origin : Position} {m : Machine σ} :
    .clash x y q ∉ (e.giveUp w origin m).events := by
  intro h
  rw [giveUp] at h
  split at h
  · cases h
  · rcases Traced.mem_bind_events h with h | ⟨_, -, h⟩
    · cases h with
      | tail _ h => cases h
    · cases h

/-- Reporting another event and going on with a value is no clash. -/
theorem emit_clash {α : Type} {event : Event} {a : α} (hne : event ≠ .clash x y q) :
    .clash x y q ∉ (do Traced.emit event; return a : Traced Fault α).events := by
  intro h
  rcases Traced.mem_bind_events h with h | ⟨_, -, h⟩
  · exact hne (List.mem_singleton.1 h).symm
  · cases h

theorem shift_clash {origin : Position} {m : Machine σ} {current target munch : Nat} {t : Handle}
    (h : .clash x y q ∈ (e.shift w origin m current target t munch).events) :
    e.Reports w (.clash x y q) := by
  rw [shift] at h
  split at h
  · exact absurd h giveUp_clash
  · exact absurd h (emit_clash (by simp))
  · exact absurd h (emit_clash (by simp))
  · rcases Traced.mem_bind_events h with h | ⟨parser, hparser, h⟩
    · cases h
    · rcases Traced.mem_bind_events h with h | ⟨answer, -, h⟩
      · exact reports_of_parserOf hparser h
      · cases answer with
        | none => exact absurd h giveUp_clash
        | some parsed => exact absurd h (emit_clash (by simp))

theorem reduce_clash {m : Machine σ} {current id : Nat} :
    .clash x y q ∉ (e.reduce w m current id).events := by
  intro h
  unfold reduce at h
  dsimp only at h
  split at h
  · cases h
  · split at h
    · rcases Traced.mem_bind_events h with h | ⟨_, hthrow, -⟩
      · cases h
      · cases hthrow
    · split at h
      · cases h
      · split at h
        · rcases Traced.mem_bind_events h with h | ⟨_, -, h⟩ <;> cases h
        · rcases Traced.mem_bind_events h with h | ⟨_, -, h⟩
          · cases h with
            | tail _ h => cases h
          · rcases Traced.mem_bind_events h with h | ⟨_, -, h⟩ <;> cases h

theorem accept_clash {origin : Position} {m : Machine σ} {current : Nat}
    (h : .clash x y q ∈ (e.accept w origin m current).events) : e.Reports w (.clash x y q) := by
  unfold accept at h
  extract_lets conclude at h
  have hconclude : ∀ answer, .clash x y q ∉ (conclude answer).events := by
    intro answer h
    cases answer with
    | none => exact giveUp_clash h
    | some ending =>
      simp only [conclude] at h
      split at h
      · exact emit_clash (by simp) h
      · cases h
  split at h
  · rcases Traced.mem_bind_events h with h | ⟨answer, -, h⟩
    · cases h
    · exact absurd h (hconclude answer)
  · rcases Traced.mem_bind_events h with h | ⟨parser, hparser, h⟩
    · cases h
    · rcases Traced.mem_bind_events h with h | ⟨answer, -, h⟩
      · exact reports_of_parserOf hparser h
      · exact absurd h (hconclude answer)

/-- A clash that a read of one of the plans scans. -/
def Clashes (e : Executor σ) (w : Window) (event : Event) : Prop :=
  ∃ i plan, e.table.plan? i = some plan ∧ ∃ node ∈ plan.reads,
    ∃ s p, event ∈ (e.scan s w p node.flatten none).events

theorem step_clash {origin : Position} {m : Machine σ}
    (h : .clash x y q ∈ (e.step w origin m).events) :
    e.Reports w (.clash x y q) ∨ e.Clashes w (.clash x y q) := by
  unfold step at h
  split at h
  · cases h
  · next i states hstates =>
    split at h
    · cases h
    · next plan hplan =>
      rcases Traced.mem_bind_events h with h | ⟨answer, -, h⟩
      · exact .inr ⟨i, plan, hplan, walk_clash h⟩
      · cases answer with
        | none => exact absurd h giveUp_clash
        | some answer =>
          obtain ⟨move, buffer⟩ := answer
          cases move with
          | shift target t munch => exact .inl (shift_clash h)
          | reduce id => exact absurd h reduce_clash
          | accept => exact .inl (accept_clash h)

/-- **Clashes of a run** come from the parser of a terminal, or from a scan of a read. -/
theorem run_clash {origin : Position} {limit : Nat} {m : Machine σ}
    (h : .clash x y q ∈ (e.run w origin limit m).events) :
    e.Reports w (.clash x y q) ∨ e.Clashes w (.clash x y q) := by
  induction limit generalizing m with
  | zero => cases h
  | succ limit ih =>
    rw [run] at h
    rcases Traced.mem_bind_events h with h | ⟨outcome, -, h⟩
    · exact step_clash h
    · cases outcome with
      | finished answer => cases h
      | running m' => exact ih h

end Executor

end Mixfix
