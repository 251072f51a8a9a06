import Mixfix.Proofs.Executor.Binding
import Mixfix.Proofs.Executor.Stacks
import Mixfix.Proofs.Grammar.Renaming

/-!
# Runs do not read names

An executor knows the symbols of its grammar by their handles.  It asks for the name of one only to
name a terminal without a parser, a transition that is not there, or a tree whose kind is not
declared.  Where terminals have parsers and kinds are declared, none of this happens, and the
executor runs alike when its nonterminals have other names.

* `Executor.Nameless`: no name is asked for.
* `Executor.Nameless.step_rename`: a step is the same under other names.
* `Executor.Nameless.parser_rename`: so is a run.
-/

namespace Mixfix.Executor

variable {σ : Type} {g : Grammar} {e : Executor σ} {ρ : String → String} {w : Window}
  {origin : Position} {m : Machine σ}

/-- The executor with other names for the nonterminals of its grammar. -/
def rename (ρ : String → String) (e : Executor σ) : Executor σ :=
  { e with table := e.table.rename ρ }

/-- The executor asks for no name: what its plans ask for is bound, and every nonterminal with a
rule has a kind. -/
structure Nameless (g : Grammar) (e : Executor σ) : Prop where
  wellFormed : g.WellFormed
  table : e.table = Table.ofGrammar g
  asked : ∀ {i plan t}, e.table.plan? i = some plan → plan.Asks t → e.Binds t
  ending : e.Binds .endOfInput
  kind : ∀ rule ∈ g.rules, (g.kinds.lookup rule.lhs).isSome

/-! ### Reading -/

theorem parserOf_rename {t : Handle} (ht : e.Binds t) :
    (e.rename ρ).parserOf t = e.parserOf t := by
  obtain ⟨parser, hparser⟩ := Option.isSome_iff_exists.1 ht
  have hparser' : (e.rename ρ).terminals.lookup t = some parser := hparser
  rw [parserOf, parserOf, hparser, hparser']

theorem scan_rename {s : σ} {p : Position} {ts : List Handle} (hts : ∀ t ∈ ts, e.Binds t)
    (found : Option (Ahead σ)) : (e.rename ρ).scan s w p ts found = e.scan s w p ts found := by
  induction ts generalizing found with
  | nil => rfl
  | cons t ts ih =>
    obtain ⟨ht, hts⟩ := List.forall_mem_cons.1 hts
    rw [scan, scan, parserOf_rename ht]
    simp only [ih hts]

theorem read_rename {ts : List Handle} (hts : ∀ t ∈ ts, e.Binds t) (depth : Nat)
    (buffer : List (Ahead σ)) :
    (e.rename ρ).read w m ts depth buffer = e.read w m ts depth buffer := by
  rw [read, read]
  cases buffer[depth]? with
  | some token => rfl
  | none => simp only [scan_rename hts]

mutual

theorem walk_rename : ∀ {plan : Plan} {depth : Nat} {buffer : List (Ahead σ)},
    (∀ node ∈ plan.reads, ∀ t ∈ node.flatten, e.Binds t) →
      (e.rename ρ).walk w m plan depth buffer = e.walk w m plan depth buffer
  | .shift _ _ _, _, _, _ => by rw [walk, walk]
  | .reduce _, _, _, _ => by rw [walk, walk]
  | .accept, _, _, _ => by rw [walk, walk]
  | .error none, _, _, _ => by rw [walk, walk]
  | .error (some guess), depth, buffer, h => by
    rw [Plan.reads] at h
    rw [walk, walk, walk_rename h]
    rfl
  | .read branches, depth, buffer, h => by
    rw [Plan.reads] at h
    obtain ⟨hread, hbranches⟩ := List.forall_mem_cons.1 h
    rw [walk, walk, read_rename (by rwa [List.flatMap_def])]
    refine Traced.bind_congr_of_ok fun answer _ => ?_
    cases answer with
    | none => rfl
    | some found => exact walkBranch_rename hbranches

theorem walkBranch_rename : ∀ {branches : List (List Handle × Plan)} {t : Handle} {depth : Nat}
    {buffer : List (Ahead σ)},
    (∀ node ∈ Plan.readsAll branches, ∀ u ∈ node.flatten, e.Binds u) →
      (e.rename ρ).walkBranch w m branches t depth buffer = e.walkBranch w m branches t depth buffer
  | [], _, _, _, _ => by rw [walkBranch, walkBranch]
  | (cls, plan) :: branches, t, depth, buffer, h => by
    rw [Plan.readsAll] at h
    rw [walkBranch, walkBranch, walk_rename fun node hn => h node (List.mem_append_left _ hn),
      walkBranch_rename fun node hn => h node (List.mem_append_right _ hn)]

end

/-! ### Moves -/

theorem shift_rename {current target munch : Nat} {t : Handle} (ht : e.Binds t) :
    (e.rename ρ).shift w origin m current target t munch =
      e.shift w origin m current target t munch := by
  have hsupply : (e.rename ρ).supply t munch m.buffer = e.supply t munch m.buffer := rfl
  rw [shift, shift, hsupply, parserOf_rename ht]
  rfl

theorem accept_rename {current : Nat} (hend : e.Binds .endOfInput) :
    (e.rename ρ).accept w origin m current = e.accept w origin m current := by
  unfold accept
  rw [parserOf_rename hend]
  rfl

namespace Nameless

theorem kind_rename (h : Nameless g e) {rule : Rule} (hrule : rule ∈ g.rules) :
    (g.rename ρ).kind rule.lhs = g.kind rule.lhs := by
  obtain ⟨kind, hkind⟩ := Option.isSome_iff_exists.1 (h.kind rule hrule)
  have hkind' : (g.rename ρ).kinds.lookup rule.lhs = some kind := hkind
  rw [Grammar.kind, Grammar.kind, hkind, hkind']

/-- A reduction that finds its rule and its transition asks for no name. -/
theorem reduce_rename (h : Nameless g e) {symbols : List Handle} {id : Nat} {rule : Rule}
    {below target current : Nat} (hr : Reducible g e.table m symbols id rule below target) :
    (e.rename ρ).reduce w m current id = e.reduce w m current id := by
  have hg : e.table.grammar = g := by rw [h.table]; rfl
  have hrule : e.table.grammar.rules[id]? = some rule := by rw [hg]; exact hr.found
  have hrule' : (e.rename ρ).table.grammar.rules[id]? = some rule := hrule
  have hkind : (e.rename ρ).table.grammar.kind rule.lhs = e.table.grammar.kind rule.lhs := by
    show (e.table.grammar.rename ρ).kind rule.lhs = _
    rw [hg]
    exact h.kind_rename (List.mem_of_getElem? hr.found)
  have hgoto : ∀ i, (e.rename ρ).table.goto? i rule.lhs = e.table.goto? i rule.lhs := fun _ => rfl
  have hcut := hr.cut
  unfold reduce
  simp only [hrule, hrule']
  cases hdrop : m.states.drop rule.rhs.length with
  | nil => rfl
  | cons below' states =>
    rw [hdrop] at hcut
    cases hcut
    simp only [hgoto, hr.goto, hkind]

/-! ### Runs -/

/-- A step over stacks in order is the same under other names. -/
theorem step_rename (h : Nameless g e) {symbols : List Handle} (hm : Stacked g m symbols) :
    (e.rename ρ).step w origin m = e.step w origin m := by
  rw [step, step]
  cases hstates : m.states with
  | nil => rfl
  | cons current states =>
    have hplan' : (e.rename ρ).table.plan? current = e.table.plan? current := rfl
    dsimp only
    rw [hplan']
    cases hplan : e.table.plan? current with
    | none => rfl
    | some plan =>
      have hreads : ∀ node ∈ plan.reads, ∀ t ∈ node.flatten, e.Binds t := by
        intro node hnode t ht
        obtain ⟨cls, hcls, ht⟩ := List.mem_flatten.1 ht
        exact h.asked hplan (.read hnode hcls ht)
      dsimp only
      rw [walk_rename hreads]
      refine Traced.bind_congr_of_ok fun answer hwalk => ?_
      match answer, hwalk with
      | none, _ => rfl
      | some (.shift target t munch, buffer), hwalk =>
        exact shift_rename (h.asked hplan (.shift (walk_result hwalk).1))
      | some (.reduce id, buffer), hwalk =>
        obtain ⟨rule, below, target, hr⟩ :=
          hm.reduces h.wellFormed h.table (by rw [hstates]; rfl) hplan hwalk
        have hcut := hr.cut
        rw [hstates] at hcut
        exact h.reduce_rename ⟨hr.found, hr.le, hr.rhs, hcut, hr.goto⟩
      | some (.accept, buffer), _ => exact accept_rename h.ending

theorem run_rename (h : Nameless g e) (limit : Nat) {symbols : List Handle}
    (hm : Stacked g m symbols) : (e.rename ρ).run w origin limit m = e.run w origin limit m := by
  induction limit generalizing m symbols with
  | zero => rfl
  | succ limit ih =>
    rw [run, run, h.step_rename hm]
    refine Traced.bind_congr_of_ok fun outcome hstep => ?_
    cases outcome with
    | finished answer => rfl
    | running m' =>
      obtain ⟨symbols', hm'⟩ := hm.step h.wellFormed h.table hstep
      exact ih hm'

/-- **Runs do not read names.** The parser is the same under other names. -/
theorem parser_rename (h : Nameless g e) (limit : Nat) :
    (e.rename ρ).parser limit = e.parser limit := by
  funext s w p
  exact h.run_rename limit (stacked_start s p)

end Nameless

end Mixfix.Executor
