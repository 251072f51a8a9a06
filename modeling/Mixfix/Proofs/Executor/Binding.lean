import Mixfix.Proofs.Executor.Stacks
import Mixfix.Proofs.Plan.Ahead

/-!
# The terminals of an executor

Binding checks that the end of input and every terminal of the rules have a parser.  A plan reads
these, and besides them the non-empty variants of possibly empty terminals, which no rule needs to
use.  Where the variants have parsers too, no run ever asks for a parser that is not there.

* `Executor.binds_of_bind`: what binding checks.
* `Executor.asks_bound`: plans and runs ask for bound terminals only, if variants are bound.
* `Executor.variant_unbound`: without that, a run may stop at a variant.
-/

namespace Mixfix

namespace Table

variable {α : Type} {t : Table} {atEnd : α} {named : List (String × α)} {bound : List (Handle × α)}

/-- A terminal and what is bound to it, for a name and what was given for it. -/
def Bound (t : Table) (given : String × α) (bound : Handle × α) : Prop :=
  bound.2 = given.2 ∧ bound.1.isTerminal ∧
    if given.1 = "$" then bound.1 = .endOfInput
    else t.grammar.registry.find? (symbolsOfName given.1) = some bound.1

/-- Binds one name, in front of those before it. -/
def bindName (t : Table) (before : List (Handle × α)) (given : String × α) :
    Except Failure (List (Handle × α)) := do
  let handle ← if given.1 = "$" then pure Handle.endOfInput else
    match t.grammar.registry.find? (symbolsOfName given.1) with
    | some handle => pure handle
    | none => throw (.problem (.unknownSymbol given.1))
  if handle.isTerminal then return (handle, given.2) :: before
  else throw (.problem (.notATerminal given.1))

/-- One name is bound after the other; then every terminal of the rules must be bound. -/
theorem bind_eq : t.bind atEnd named = (do
    let bound ← named.foldlM t.bindName [(Handle.endOfInput, atEnd)]
    match t.grammar.terminals.find? fun terminal => (bound.lookup terminal).isNone with
    | some missing =>
      throw (.problem (.missingTerminalParser (← t.grammar.registry.name missing)))
    | none => return bound) := rfl

theorem bindName_eq_ok {before after : List (Handle × α)} {given : String × α} :
    t.bindName before given = .ok after ↔ ∃ b, after = b :: before ∧ t.Bound given b := by
  have hadd : ∀ handle : Handle, (if handle.isTerminal then pure ((handle, given.2) :: before)
      else throw (.problem (.notATerminal given.1)) : Except Failure _) = .ok after ↔
        handle.isTerminal ∧ after = (handle, given.2) :: before := by
    intro handle
    split
    · next h => simp [h, pure, Except.pure, eq_comm]
    · next h => simp [h, throw, throwThe, MonadExceptOf.throw]
  unfold bindName Bound
  by_cases hend : given.1 = "$"
  · simp only [if_pos hend]
    refine (hadd .endOfInput).trans ⟨?_, ?_⟩
    · rintro ⟨hterminal, rfl⟩
      exact ⟨_, rfl, rfl, hterminal, rfl⟩
    · rintro ⟨⟨handle, a⟩, rfl, rfl, hterminal, rfl⟩
      exact ⟨hterminal, rfl⟩
  · simp only [if_neg hend]
    split
    · next handle hfind =>
      refine (hadd handle).trans ⟨?_, ?_⟩
      · rintro ⟨hterminal, rfl⟩
        exact ⟨_, rfl, rfl, hterminal, hfind⟩
      · rintro ⟨⟨handle', a⟩, rfl, rfl, hterminal, hfind'⟩
        cases hfind.symm.trans hfind'
        exact ⟨hterminal, rfl⟩
    · next hfind =>
      constructor
      · intro h
        cases h
      · rintro ⟨b, -, -, -, hfind'⟩
        cases hfind.symm.trans hfind'

/-- Where each step of a fold puts something in front, there is in the end something for each
element. -/
theorem exists_front_of_foldlM {ε β γ : Type} {f : List γ → β → Except ε (List γ)}
    {R : β → γ → Prop} (hf : ∀ {l b l'}, f l b = .ok l' → ∃ c, l' = c :: l ∧ R b c)
    {bs : List β} {l l' : List γ} (h : bs.foldlM f l = .ok l') :
    ∃ front, l' = front ++ l ∧ List.Forall₂ R bs front.reverse := by
  induction bs generalizing l with
  | nil =>
    cases h
    exact ⟨[], rfl, .nil⟩
  | cons b bs ih =>
    rw [List.foldlM_cons] at h
    obtain ⟨_, hstep, h⟩ := except_bind_eq_ok.1 h
    obtain ⟨c, rfl, hc⟩ := hf hstep
    obtain ⟨front, rfl, hall⟩ := ih h
    refine ⟨front ++ [c], by simp, ?_⟩
    rw [List.reverse_append]
    exact .cons hc hall

/-- One name is bound after the other, each in front of those before it, and the end of input
before all of them; and every terminal of the rules is bound in the end. -/
theorem bind_eq_ok (h : t.bind atEnd named = .ok bound) :
    (∃ front, bound = front ++ [(Handle.endOfInput, atEnd)] ∧
      List.Forall₂ t.Bound named front.reverse) ∧
      ∀ u ∈ t.grammar.terminals, (bound.lookup u).isSome := by
  rw [bind_eq] at h
  obtain ⟨found, hfold, h⟩ := except_bind_eq_ok.1 h
  split at h
  · obtain ⟨_, -, h⟩ := except_bind_eq_ok.1 h
    cases h
  · next hnone =>
    cases h
    refine ⟨exists_front_of_foldlM bindName_eq_ok.1 hfold, fun u hu => ?_⟩
    simpa using List.find?_eq_none.1 hnone u hu

end Table

namespace Executor

variable {σ : Type} {g : Grammar} {e : Executor σ} {w : Window}

/-- The terminal has a parser. -/
def Binds (e : Executor σ) (t : Handle) : Prop := (e.terminals.lookup t).isSome

theorem Binds.parserOf_ne_error {t : Handle} (h : e.Binds t) {f : Fault} :
    e.parserOf t ≠ .error f := by
  intro hf
  rw [Binds, (parserOf_eq_error hf).1] at h
  cases h

theorem binds_of_bind {table : Table} {named : List (String × Parser σ)} {config : ExecutorConfig}
    (h : bind table named config = .ok e) :
    e.table = table ∧ ∀ t ∈ Handle.endOfInput :: table.grammar.terminals, e.Binds t := by
  obtain ⟨bound, hbound, h⟩ := except_bind_eq_ok.1 h
  cases h
  obtain ⟨⟨front, rfl, -⟩, hall⟩ := Table.bind_eq_ok hbound
  refine ⟨rfl, List.forall_mem_cons.2 ⟨?_, hall⟩⟩
  rw [Binds, List.lookup_append]
  cases front.lookup Handle.endOfInput <;> rfl

/-- The terminals that the plan of a state asks for are bound, if the end of input, the terminals of
the rules and the variants of bound terminals are. -/
theorem binds_of_asks (hg : g.WellFormed) (ht : e.table = Table.ofGrammar g)
    (hbound : ∀ t ∈ Handle.endOfInput :: g.terminals, e.Binds t)
    (hvariant : ∀ {t u}, e.Binds t → g.registry.nonEmptyOf t = some u → e.Binds u) {i : Nat}
    {plan : Plan} (hplan : e.table.plan? i = some plan) {t : Handle} (hasks : plan.Asks t) :
    e.Binds t := by
  have hc := Automaton.canonical hg
  rw [ht] at hplan
  obtain ⟨s, hs, rfl⟩ := Table.plan?_ofGrammar.1 hplan
  cases hasks with
  | read hnode hcls ht =>
    obtain ⟨ts, hts, rfl⟩ := Automaton.mem_of_mem_reads hc hs hbound hvariant hnode
    exact (hts t (Plan.exists_mem_classes.1 ⟨_, hcls, ht⟩)).1
  | @shift target munch hleaf =>
    obtain ⟨hedge, hterminal, -⟩ := Automaton.backed_of_mem_leaves hc hs hleaf
    have hmem := List.mem_of_getElem? hs
    have hshift : Ascending.Maps s.actions t (.shift target) := by
      rw [hc.actions hmem]
      exact State.maps_actionsOf.2 (.inr ⟨target, hedge, hterminal, rfl⟩)
    exact hbound t (hc.mem_terminals hmem hshift)

/-- **Bound terminals.** Take a table and parsers that bind, with a parser for the non-empty variant
of every bound terminal that has one.  Then every terminal in a shift or in a class of a read is
bound, and no run stops at a terminal without a parser, unless the parser of a terminal does. -/
theorem asks_bound {registry : Registry} {start : Handle} {rules : List Rule}
    {kinds : List (Handle × Kind)} (hg : Grammar.ofRules registry start rules kinds = .ok g)
    {table : Table} (ht : (Table.build g : Traced Fault Table).result = .ok table)
    {named : List (String × Parser σ)} {config : ExecutorConfig}
    (hbind : bind table named config = .ok e)
    (hvariant : ∀ {t u}, e.Binds t → g.registry.nonEmptyOf t = some u → e.Binds u) :
    (∀ row ∈ e.table.rows, ∀ t, row.plan.Asks t → e.Binds t) ∧
      ∀ {limit s p name}, (e.parser limit s w p).result = .error (.unboundTerminal name) →
        e.Raises w (.unboundTerminal name) := by
  have hwf := Grammar.WellFormed.of_ofRules hg
  obtain ⟨rfl, hbound⟩ := binds_of_bind hbind
  have htable : e.table = Table.ofGrammar g := by
    rw [Table.build_result] at ht
    exact (Except.ok.inj ht).symm
  have htg : e.table.grammar = g := by rw [htable]; rfl
  rw [htg] at hbound
  constructor
  · intro row hrow t hasks
    obtain ⟨i, hi⟩ := List.mem_iff_getElem?.1 hrow
    refine binds_of_asks hwf htable hbound hvariant (i := i) ?_ hasks
    rw [Table.plan?, hi]
    rfl
  · intro limit s p name h
    cases (stacked_start s p).ends_of_run hwf htable h with
    | raised h => exact h
    | unbound hplan hasks hf =>
      refine absurd hf (Binds.parserOf_ne_error ?_)
      rcases hasks with hasks | rfl
      · exact binds_of_asks hwf htable hbound hvariant hplan hasks
      · exact hbound _ List.mem_cons_self

/-! ### A variant that no rule uses -/

/-- The nonterminal `S` and the terminals `ws?`, `x`, `y` and `ws`, the first of them possibly
empty and the last its variant. -/
def gapRegistry : Registry :=
  .ofLists ["S"] [["ws?"], ["x"], ["y"], ["ws"]] [[⟨-4⟩, ⟨-2⟩, ⟨-3⟩]] [(⟨-1⟩, ⟨-4⟩)]

/-- `S -> ws? x` and `S -> y`. -/
def gapRules : List Rule := [⟨⟨1⟩, [⟨-1⟩, ⟨-2⟩]⟩, ⟨⟨1⟩, [⟨-3⟩]⟩]

def gapGrammar : Grammar where
  registry := .ofLists ["S", augmentedStart] gapRegistry.terminals gapRegistry.groups
    gapRegistry.emptyPairs
  rules := ⟨⟨2⟩, [⟨1⟩]⟩ :: gapRules
  start := ⟨1⟩
  kinds := [(⟨2⟩, .transparent)]

theorem gapGrammar_ofRules : Grammar.ofRules gapRegistry ⟨1⟩ gapRules [] = .ok gapGrammar :=
  Grammar.eq_ok_of_registry rfl (Registry.eq_of_lists rfl rfl rfl rfl rfl)

/-- Parsers for the terminals of the rules. -/
def gapParsers : List (String × Parser Nat) :=
  [("ws?", .token (.optional .blanks) "ws?"), ("x", letter 'x'), ("y", letter 'y')]

def gapExecutor (variants : List (Handle × Parser Nat)) : Executor Nat where
  table := Table.ofGrammar gapGrammar
  terminals := variants ++ [(⟨-3⟩, letter 'y'), (⟨-2⟩, letter 'x'),
    (⟨-1⟩, .token (.optional .blanks) "ws?"), (.endOfInput, .endOfWindow)]
  config := {}

/-- The window on `y`. -/
def gapWindow : Window := .ofSource (.ofText "y")

/-- With the variant bound as well, the parsers serve every run. -/
theorem gapExecutor_bound :
    bind (Table.ofGrammar gapGrammar) (gapParsers ++ [("ws", .token .blanks "ws")]) {} =
        .ok (gapExecutor [(⟨-4⟩, .token .blanks "ws")]) ∧
      (∀ row ∈ (gapExecutor [(⟨-4⟩, .token .blanks "ws")]).table.rows, ∀ t, row.plan.Asks t →
        (gapExecutor [(⟨-4⟩, .token .blanks "ws")]).Binds t) ∧
      ∀ {limit s p name}, ((gapExecutor [(⟨-4⟩, .token .blanks "ws")]).parser limit s gapWindow
          p).result = .error (.unboundTerminal name) →
        (gapExecutor [(⟨-4⟩, .token .blanks "ws")]).Raises gapWindow (.unboundTerminal name) := by
  have hbind : bind (Table.ofGrammar gapGrammar) (gapParsers ++ [("ws", .token .blanks "ws")]) {} =
      .ok (gapExecutor [(⟨-4⟩, .token .blanks "ws")]) := rfl
  refine ⟨hbind, asks_bound gapGrammar_ofRules rfl hbind fun {t u} _ hu => ?_⟩
  -- There is one pair, and its variant is bound.
  have hpair : List.lookup t [((⟨-1⟩ : Handle), (⟨-4⟩ : Handle))] = some u := hu
  rw [List.lookup_cons] at hpair
  split at hpair <;> cases hpair
  rfl

/-- The parsers of the terminals of the rules bind, but the first state reads the variant before it
decides, and the run stops there. -/
theorem variant_unbound :
    Grammar.ofRules gapRegistry ⟨1⟩ gapRules [] = .ok gapGrammar ∧
      bind (Table.ofGrammar gapGrammar) gapParsers {} = .ok (gapExecutor []) ∧
      (∃ row ∈ (gapExecutor []).table.rows, row.plan.Asks ⟨-4⟩ ∧ ¬ (gapExecutor []).Binds ⟨-4⟩) ∧
      ((gapExecutor []).parser 10 0 gapWindow .zero).result = .error (.unboundTerminal "'ws'") := by
  refine ⟨gapGrammar_ofRules, rfl, ⟨(Table.ofGrammar gapGrammar).rows.head (List.cons_ne_nil _ _),
    List.head_mem _, ?_, by simp [Binds, gapExecutor, Handle.endOfInput]⟩, rfl⟩
  have hnode : [[⟨-4⟩], [⟨-3⟩], [⟨-2⟩]] ∈
      ((Table.ofGrammar gapGrammar).rows.head (List.cons_ne_nil _ _)).plan.reads := by
    decide +kernel
  exact .read hnode List.mem_cons_self List.mem_cons_self

end Executor

end Mixfix
