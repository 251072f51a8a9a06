import Mixfix.Proofs.Executor.Soundness
import Mixfix.Proofs.Plan.Reads

/-!
# The faults of an executor

A step stops with a fault for a few reasons: a terminal that the plan asks for has no parser or one
that stops with it, the stacks do not fit the table, or an accepted stack has other than one node.

* `Plan.Asks`: the terminals whose parsers a plan calls for.
* `Executor.FaultsAt`: a terminal stops with a fault at a place.
* `Executor.Stops`: the reasons.
* `Executor.stops_of_step`: a fault of a step has one of them.
-/

namespace Mixfix

/-- The terminals that a plan may read or shift. -/
inductive Plan.Asks (plan : Plan) (t : Handle) : Prop where
  | read {node : List (List Handle)} {cls : List Handle} :
      node ∈ plan.reads → cls ∈ node → t ∈ cls → Asks plan t
  | shift {target munch : Nat} : Plan.shift target t munch ∈ plan.leaves → Asks plan t

/-- Only an unknown handle has no name. -/
theorem Registry.name_eq_error {r : Registry} {h : Handle} {f : Fault} (hf : r.name h = .error f) :
    f = .unknownHandle h := by
  rw [name] at hf
  split at hf
  · cases hf
  · rw [symbolsOf] at hf
    cases hl : r.lookup? h with
    | none =>
      rw [hl] at hf
      cases hf
      rfl
    | some symbols =>
      rw [hl] at hf
      cases hf

/-- Only a nonterminal without a name has no kind. -/
theorem Grammar.kind_eq_error {g : Grammar} {lhs : Handle} {f : Fault}
    (h : g.kind lhs = .error f) : f = .unknownHandle lhs := by
  rw [kind] at h
  split at h
  · cases h
  · cases hname : g.registry.name lhs with
    | error f' =>
      rw [hname] at h
      cases h
      exact Registry.name_eq_error hname
    | ok name =>
      rw [hname] at h
      cases h

namespace Executor

variable {σ : Type} {e : Executor σ} {w : Window} {f : Fault}

/-- The parser of a terminal stops with the fault somewhere. -/
def Raises (e : Executor σ) (w : Window) (f : Fault) : Prop :=
  ∃ t parser, e.terminals.lookup t = some parser ∧
    ∃ c : Cursor σ, (parser c.user w c.position).result = .error f

/-- A terminal stops with the fault at a place: it has no parser, or its parser stops there. -/
def FaultsAt (e : Executor σ) (w : Window) (c : Cursor σ) (t : Handle) (f : Fault) : Prop :=
  e.parserOf t = .error f ∨
    ∃ parser, e.parserOf t = .ok parser ∧ (parser c.user w c.position).result = .error f

theorem FaultsAt.unbound_or_raises {c : Cursor σ} {t : Handle} (h : e.FaultsAt w c t f) :
    e.parserOf t = .error f ∨ e.Raises w f :=
  h.imp_right fun ⟨parser, hparser, hf⟩ => ⟨t, parser, parserOf_eq_ok.1 hparser, c, hf⟩

/-- A terminal without a parser is the fault, or has no name. -/
theorem parserOf_eq_error {t : Handle} (h : e.parserOf t = .error f) :
    e.terminals.lookup t = none ∧ (f = .unknownHandle t ∨ ∃ name, f = .unboundTerminal name) := by
  unfold parserOf at h
  split at h
  · cases h
  · next hnone =>
    refine ⟨hnone, ?_⟩
    cases hname : e.table.grammar.registry.name t with
    | error f' =>
      rw [hname] at h
      cases h
      exact .inl (Registry.name_eq_error hname)
    | ok name =>
      rw [hname] at h
      cases h
      exact .inr ⟨name, rfl⟩

/-! ### Reading -/

theorem scan_fault {s : σ} {p : Position} {ts : List Handle} {found : Option (Ahead σ)}
    (h : (e.scan s w p ts found).result = .error f) : ∃ t ∈ ts, e.FaultsAt w ⟨s, p⟩ t f := by
  induction ts generalizing found with
  | nil => cases h
  | cons t ts ih =>
    have hrest : ∀ {found}, (e.scan s w p ts found).result = .error f →
        ∃ u ∈ t :: ts, e.FaultsAt w ⟨s, p⟩ u f := fun h =>
      (ih h).imp fun u ⟨hu, hf⟩ => ⟨List.mem_cons_of_mem t hu, hf⟩
    rw [scan, Traced.bind_eq_error] at h
    rcases h with h | ⟨parser, hparser, h⟩
    · exact ⟨t, List.mem_cons_self, .inl h⟩
    · rcases Traced.bind_eq_error.1 h with h | ⟨answer, -, h⟩
      · exact ⟨t, List.mem_cons_self, .inr ⟨parser, hparser, h⟩⟩
      · cases answer with
        | none => exact hrest h
        | some parsed =>
          cases found with
          | none => exact hrest h
          | some other =>
            rcases Traced.bind_eq_error.1 h with h | ⟨_, -, h⟩ <;> cases h

theorem read_fault {m : Machine σ} {ts : List Handle} {depth : Nat} {buffer : List (Ahead σ)}
    (h : (e.read w m ts depth buffer).result = .error f) :
    ∃ t ∈ ts, e.FaultsAt w (m.cursor.past buffer) t f := by
  rw [read_eq] at h
  split at h
  · cases h
  · rcases Traced.bind_eq_error.1 h with h | ⟨found, -, h⟩
    · exact scan_fault h
    · cases found with
      | none => cases h
      | some token => rcases Traced.bind_eq_error.1 h with h | ⟨_, -, h⟩ <;> cases h

mutual

/-- A walk stops at a terminal of one of its reads, after tokens that were read in turn. -/
theorem walk_fault {m : Machine σ} : ∀ {plan : Plan} {depth : Nat} {buffer : List (Ahead σ)},
    (e.walk w m plan depth buffer).result = .error f →
    ∃ node ∈ plan.reads, ∃ t ∈ node.flatten, ∃ read,
      (e.Buffered w m.cursor buffer → e.Buffered w m.cursor read) ∧
      e.FaultsAt w (m.cursor.past read) t f
  | .shift _ _ _, depth, buffer, h => by
    rw [walk] at h
    cases h
  | .reduce _, depth, buffer, h => by
    rw [walk] at h
    cases h
  | .accept, depth, buffer, h => by
    rw [walk] at h
    cases h
  | .error none, depth, buffer, h => by
    rw [walk] at h
    cases h
  | .error (some guess), depth, buffer, h => by
    rw [walk] at h
    rw [Plan.reads]
    split at h
    · exact walk_fault h
    · cases h
  | .read branches, depth, buffer, h => by
    rw [walk, Traced.bind_eq_error] at h
    rw [Plan.reads]
    rcases h with h | ⟨answer, hanswer, h⟩
    · obtain ⟨t, ht, hf⟩ := read_fault h
      rw [List.flatMap_def] at ht
      exact ⟨_, List.mem_cons_self, t, ht, buffer, id, hf⟩
    · cases answer with
      | none => cases h
      | some answer =>
        obtain ⟨node, hn, t, ht, read, hread, hf⟩ := walkBranch_fault h
        exact ⟨node, List.mem_cons_of_mem _ hn, t, ht, read,
          fun hb => hread (read_result hanswer hb), hf⟩

theorem walkBranch_fault {m : Machine σ} : ∀ {branches : List (List Handle × Plan)} {t : Handle}
    {depth : Nat} {buffer : List (Ahead σ)},
    (e.walkBranch w m branches t depth buffer).result = .error f →
    ∃ node ∈ Plan.readsAll branches, ∃ u ∈ node.flatten, ∃ read,
      (e.Buffered w m.cursor buffer → e.Buffered w m.cursor read) ∧
      e.FaultsAt w (m.cursor.past read) u f
  | [], t, depth, buffer, h => by
    rw [walkBranch] at h
    cases h
  | (cls, plan) :: branches, t, depth, buffer, h => by
    rw [walkBranch] at h
    rw [Plan.readsAll]
    split at h
    · exact (walk_fault h).imp fun node ⟨hn, hf⟩ => ⟨List.mem_append_left _ hn, hf⟩
    · exact (walkBranch_fault h).imp fun node ⟨hn, hf⟩ => ⟨List.mem_append_right _ hn, hf⟩

end

/-! ### Moves -/

theorem giveUp_ne_error {origin : Position} {m : Machine σ} :
    (e.giveUp w origin m).result ≠ .error f := by
  rw [giveUp]
  intro h
  split at h
  · cases h
  · rcases Traced.bind_eq_error.1 h with h | ⟨_, -, h⟩ <;> cases h

theorem shift_fault {origin : Position} {m : Machine σ} {current target munch : Nat} {t : Handle}
    (h : (e.shift w origin m current target t munch).result = .error f) :
    e.FaultsAt w m.cursor t f := by
  rw [shift] at h
  split at h
  · exact absurd h giveUp_ne_error
  · rcases Traced.bind_eq_error.1 h with h | ⟨_, -, h⟩ <;> cases h
  · rcases Traced.bind_eq_error.1 h with h | ⟨_, -, h⟩ <;> cases h
  · rcases Traced.bind_eq_error.1 h with h | ⟨parser, hparser, h⟩
    · exact .inl h
    · rcases Traced.bind_eq_error.1 h with h | ⟨answer, -, h⟩
      · exact .inr ⟨parser, hparser, h⟩
      · cases answer with
        | none => exact absurd h giveUp_ne_error
        | some parsed => rcases Traced.bind_eq_error.1 h with h | ⟨_, -, h⟩ <;> cases h

theorem accept_fault {origin : Position} {m : Machine σ} {current : Nat}
    (h : (e.accept w origin m current).result = .error f) :
    e.FaultsAt w m.cursor .endOfInput f ∨ f = .malformedStack ∧ ∀ root, m.nodes ≠ [root] := by
  unfold accept at h
  extract_lets conclude at h
  have hconclude : ∀ {answer : Option (Parsed σ)}, (conclude answer).result = .error f →
      f = .malformedStack ∧ ∀ root, m.nodes ≠ [root] := by
    intro answer h
    cases answer with
    | none => exact absurd h giveUp_ne_error
    | some ending =>
      simp only [conclude] at h
      split at h
      · rcases Traced.bind_eq_error.1 h with h | ⟨_, -, h⟩ <;> cases h
      · next hnodes =>
        cases h
        exact ⟨rfl, hnodes⟩
  split at h
  · rcases Traced.bind_eq_error.1 h with h | ⟨_, -, h⟩
    · cases h
    · exact .inr (hconclude h)
  · rcases Traced.bind_eq_error.1 h with h | ⟨parser, hparser, h⟩
    · exact .inl (.inl h)
    · rcases Traced.bind_eq_error.1 h with h | ⟨_, -, h⟩
      · exact .inl (.inr ⟨parser, hparser, h⟩)
      · exact .inr (hconclude h)

/-- Why a reduction stops: there is no such rule, the stacks are too short for it, the state below
has no transition, or the nonterminal has no kind. -/
theorem reduce_fault {m : Machine σ} {current id : Nat}
    (h : (e.reduce w m current id).result = .error f) :
    e.table.grammar.rules[id]? = none ∨ ∃ rule, e.table.grammar.rules[id]? = some rule ∧
      (m.nodes.length < rule.rhs.length ∨ m.states.length ≤ rule.rhs.length ∨
        (∃ below states, m.states.drop rule.rhs.length = below :: states ∧
          e.table.goto? below rule.lhs = none) ∨
        e.table.grammar.kind rule.lhs = .error f) := by
  unfold reduce at h
  dsimp only at h
  split at h
  · exact .inl ‹_›
  · next rule hrule =>
    refine .inr ⟨rule, hrule, ?_⟩
    split at h
    · next hshort => exact hshort.imp_right .inl
    · split at h
      · next hdrop => exact .inr (.inl (List.drop_eq_nil_iff.1 hdrop))
      · next below states hdrop =>
        refine .inr (.inr ?_)
        split at h
        · next hgoto => exact .inl ⟨below, states, hdrop, hgoto⟩
        · refine .inr ?_
          rcases Traced.bind_eq_error.1 h with h | ⟨_, -, h⟩
          · cases h
          · rcases Traced.bind_eq_error.1 h with h | ⟨_, -, h⟩
            · exact h
            · cases h

/-! ### Steps -/

/-- Why a step of a machine stops with a fault. -/
inductive Stops (e : Executor σ) (w : Window) (m : Machine σ) : Fault → Prop where
  /-- A terminal that the plan asks for does, after the tokens that were read ahead of it. -/
  | asked {f : Fault} {i : Nat} {plan : Plan} {t : Handle} {read : List (Ahead σ)} :
      m.states.head? = some i → e.table.plan? i = some plan → plan.Asks t ∨ t = .endOfInput →
      (e.Buffered w m.cursor m.buffer → e.Buffered w m.cursor read) →
      e.FaultsAt w (m.cursor.past read) t f → Stops e w m f
  /-- The plan comes to the accepting move, and there is not exactly one node to accept. -/
  | malformed {i : Nat} {plan : Plan} {buffer : List (Ahead σ)} : m.states.head? = some i →
      e.table.plan? i = some plan →
      (e.walk w m plan 0 m.buffer).result = .ok (some (.accept, buffer)) →
      (∀ root, m.nodes ≠ [root]) → Stops e w m .malformedStack
  | noState : m.states = [] → Stops e w m .emptyStack
  | noRow {i : Nat} : m.states.head? = some i → e.table.plan? i = none → Stops e w m .missingState
  /-- The plan comes to a reduction that stops. -/
  | reduce {f : Fault} {i id : Nat} {plan : Plan} {buffer : List (Ahead σ)} :
      m.states.head? = some i → e.table.plan? i = some plan →
      (e.walk w m plan 0 m.buffer).result = .ok (some (.reduce id, buffer)) →
      (e.reduce w { m with buffer } i id).result = .error f → Stops e w m f

/-- A fault of a step has one of the reasons. -/
theorem stops_of_step {origin : Position} {m : Machine σ}
    (h : (e.step w origin m).result = .error f) : e.Stops w m f := by
  unfold step at h
  split at h
  · next hstates =>
    cases h
    exact .noState hstates
  · next i states hstates =>
    have hhead : m.states.head? = some i := by rw [hstates]; rfl
    split at h
    · next hplan =>
      cases h
      exact .noRow hhead hplan
    · next plan hplan =>
      rcases Traced.bind_eq_error.1 h with h | ⟨answer, hwalk, h⟩
      · obtain ⟨node, hn, t, ht, read, hread, hf⟩ := walk_fault h
        obtain ⟨cls, hcls, ht⟩ := List.mem_flatten.1 ht
        exact .asked hhead hplan (.inl (.read hn hcls ht)) hread hf
      · cases answer with
        | none => exact absurd h giveUp_ne_error
        | some answer =>
          obtain ⟨move, buffer⟩ := answer
          have hleaf := (walk_result hwalk).1
          cases move with
          | shift target t munch =>
            have hf : e.FaultsAt w (m.cursor.past []) t f := shift_fault (m := { m with buffer }) h
            refine .asked hhead hplan (.inl (.shift hleaf)) ?_ hf
            exact fun _ => trivial
          | reduce id => exact .reduce hhead hplan hwalk h
          | accept =>
            rcases accept_fault (m := { m with buffer }) h with hf | ⟨rfl, hnodes⟩
            · have hf : e.FaultsAt w (m.cursor.past []) .endOfInput f := hf
              refine .asked hhead hplan (.inr rfl) ?_ hf
              exact fun _ => trivial
            · exact .malformed hhead hplan hwalk hnodes

end Executor

end Mixfix
