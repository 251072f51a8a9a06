import Mixfix.Proofs.Automaton.Beginnings
import Mixfix.Proofs.Automaton.Discovery
import Mixfix.Proofs.Reach

/-!
# A closure is the least closed set

A closed set has, with every item before a nonterminal, the initial items of that nonterminal's
rules.  The members of a closure are what its kernel entails, and a closed set with the kernel has
all of that, so the closure is the least such set.  It follows that it depends on the members of the
kernel only, that it grows with them, and that to close it once more changes nothing.

The closure is computed by passes over the rules which come to rest.  A work list of items comes to
the same set: all that its items bring lies in the closure, so it stops, in whatever order it opens
them, with a closed set that has the kernel.

* `ItemSet.IsClosure`: what makes a set the closure of a kernel; there is one such set at most.
* `ItemSet.isClosure_closure`: the closure is that set.
* `ItemSet.Terminates`: how computing it ends.
* `ItemSet.closure?_least`: all of this for a kernel whose rules exist.
-/

namespace Mixfix

open Ascending

namespace ItemSet

variable {g : Grammar} {kernel : ItemSet}

/-! ### Closed sets -/

/-- With every item before a nonterminal, a closed set has the initial items of the nonterminal's
rules, each before every terminal that may follow there. -/
def Closed (g : Grammar) (items : ItemSet) : Prop :=
  ∀ item ∈ items, ∀ s rest, item.rest g = s :: rest → s.isNonTerminal →
    ∀ id rule, g.rules[id]? = some rule → rule.lhs = s →
      ∀ b ∈ (First.ofGrammar g).startsBefore rest [item.lookahead], ⟨id, 0, b⟩ ∈ items

/-- The items are the least closed set that has those of the kernel. -/
structure IsClosure (g : Grammar) (kernel items : ItemSet) : Prop where
  sorted : Sorted items
  contains : kernel ⊆ items
  closed : Closed g items
  least : ∀ other : ItemSet, kernel ⊆ other → Closed g other → items ⊆ other

theorem Entailed.mem_of_closed {item : Item} (h : Entailed g kernel item) {other : ItemSet}
    (hkernel : kernel ⊆ other) (hclosed : Closed g other) : item ∈ other := by
  induction h with
  | kernel hi => exact hkernel hi
  | initial _ hrest hs hb hr hl ih => exact hclosed _ ih _ _ hrest hs _ _ hr hl _ hb

theorem isClosure_closure (hg : g.WellFormed) (kernel : ItemSet) :
    IsClosure g kernel (closure g (First.ofGrammar g) kernel) where
  sorted := sorted_closure g kernel
  contains := fun _ hi => mem_closure.2 (.inr hi)
  closed := fun _ hi _ _ hrest hs _ _ hr hl _ hb => closure_closed hg hi hrest hs hb hr hl
  least := fun _ hkernel hclosed _ hi => ((mem_closure_iff hg).1 hi).mem_of_closed hkernel hclosed

namespace IsClosure

variable {kernel' items items' : ItemSet}

/-- A larger kernel has a larger closure. -/
theorem mono (h : IsClosure g kernel items) (h' : IsClosure g kernel' items')
    (hsub : kernel ⊆ kernel') : items ⊆ items' :=
  h.least _ (List.Subset.trans hsub h'.contains) h'.closed

/-- The closure is one for all kernels with the same members. -/
theorem unique (h : IsClosure g kernel items) (h' : IsClosure g kernel' items')
    (hmem : ∀ item, item ∈ kernel ↔ item ∈ kernel') : items = items' :=
  h.sorted.ext h'.sorted fun _ =>
    ⟨fun hi => h.mono h' (fun _ => (hmem _).1) hi, fun hi => h'.mono h (fun _ => (hmem _).2) hi⟩

/-- A closure is its own. -/
theorem idem (h : IsClosure g kernel items) : IsClosure g items items :=
  ⟨h.sorted, List.Subset.refl _, h.closed, fun _ hsub _ => hsub⟩

end IsClosure

/-- The items of a closure have rules if those of its kernel have. -/
theorem rule_lt_of_mem_closure (hrules : ∀ item ∈ kernel, item.rule < g.rules.length) :
    ∀ item ∈ closure g (First.ofGrammar g) kernel, item.rule < g.rules.length := by
  intro item hi
  rcases mem_closure.1 hi with hi | hi
  · obtain ⟨-, rule, hr, -⟩ := mem_predicted.1 hi
    exact (List.getElem?_eq_some_iff.1 hr).1
  · exact hrules item hi

theorem closure?_eq_ok (hrules : ∀ item ∈ kernel, item.rule < g.rules.length) :
    closure? g (First.ofGrammar g) kernel = .ok (closure g (First.ofGrammar g) kernel) :=
  if_pos (List.all_eq_true.2 fun item hi => decide_eq_true (hrules item hi))

/-! ### One item after another -/

/-- The initial items that an item brings: those of the nonterminal after its dot. -/
def brings (g : Grammar) (item : Item) : ItemSet :=
  predicted g (goals g (First.ofGrammar g) [item])

theorem mem_brings {item other : Item} : other ∈ brings g item ↔
    ∃ s rest, item.rest g = s :: rest ∧ s.isNonTerminal ∧
      ∃ id rule b, g.rules[id]? = some rule ∧ rule.lhs = s ∧
        b ∈ (First.ofGrammar g).startsBefore rest [item.lookahead] ∧ other = ⟨id, 0, b⟩ := by
  have hordered : Ordered (goals g (First.ofGrammar g) [item]) := ordered_ask ordered_nil
  rw [brings, mem_predicted]
  constructor
  · rintro ⟨hdot, rule, hr, hb⟩
    have hmaps := hordered.mem_lookup.1 hb
    rw [goals, List.foldl_cons, List.foldl_nil] at hmaps
    unfold ask at hmaps
    split at hmaps
    · exact absurd hmaps maps_nil
    · next s rest hrest =>
      split at hmaps
      · next hs =>
        obtain ⟨hl, hb⟩ := (maps_unionAt.1 hmaps).resolve_right maps_nil
        refine ⟨s, rest, hrest, hs, other.rule, rule, other.lookahead, hr, hl, hb, ?_⟩
        rw [← hdot]
      · exact absurd hmaps maps_nil
  · rintro ⟨s, rest, hrest, hs, id, rule, b, hr, rfl, hb, rfl⟩
    exact ⟨rfl, rule, hr, hordered.mem_lookup.2
      (maps_goals (List.mem_singleton_self item) hrest hs hb)⟩

theorem closed_iff {items : ItemSet} :
    Closed g items ↔ ∀ item ∈ items, brings g item ⊆ items := by
  constructor
  · intro h item hi other ho
    obtain ⟨s, rest, hrest, hs, id, rule, b, hr, hl, hb, rfl⟩ := mem_brings.1 ho
    exact h item hi s rest hrest hs id rule hr hl b hb
  · intro h item hi s rest hrest hs id rule hr hl b hb
    exact h item hi (mem_brings.2 ⟨s, rest, hrest, hs, id, rule, b, hr, hl, hb, rfl⟩)

/-- All that a work list finds lies in the closure. -/
theorem pursuit_closure (hg : g.WellFormed) (hkernel : Sorted kernel) :
    Pursuit (brings g) (closure g (First.ofGrammar g) kernel) kernel kernel :=
  have h := isClosure_closure hg kernel
  .init (closed_iff.1 h.closed) hkernel.nodup h.contains

/-- How computing a closure ends. -/
structure Terminates (g : Grammar) (kernel : ItemSet) : Prop where
  /-- More passes over the rules would change nothing. -/
  rest : ∀ more, union (predicted g (settle (spread g (First.ofGrammar g))
    (g.rules.length * (g.size + kernel.length) + 1 + more) (goals g (First.ofGrammar g) kernel)))
    kernel = closure g (First.ofGrammar g) kernel
  /-- A work list of items does not take turns forever, whichever item it opens next. -/
  stops : Acc (fun work' work => Turn (brings g) work work') (kernel, kernel)
  /-- What it has found when no item is pending is the closure. -/
  finds : ∀ found, Relation.ReflTransGen (Turn (brings g)) (kernel, kernel) (found, []) →
    ofList found = closure g (First.ofGrammar g) kernel

theorem terminates (hg : g.WellFormed) (hkernel : Sorted kernel) : Terminates g kernel where
  rest := fun more => by
    rw [settle_add (spread_settled hg kernel) more]
    rfl
  stops := (pursuit_closure hg hkernel).acc
  finds := fun found hturns => by
    obtain ⟨hcontains, hend⟩ := Pursuit.turns hturns (pursuit_closure hg hkernel)
    have hclosed : Closed g found :=
      closed_iff.2 fun item hi => (hend.opened item hi).resolve_left List.not_mem_nil
    refine (sorted_ofList found).ext (sorted_closure g kernel) fun item => mem_ofList.trans ?_
    exact ⟨fun hi => hend.within hi,
      fun hi => (isClosure_closure hg kernel).least found hcontains hclosed hi⟩

/-- **A closure is the least closed set.**  Computing it ends, with the items of the kernel and all
that these entail and no others.  To close it once more changes nothing, a larger set has a larger
closure, and a transition closes the items that expect its symbol, moved over it. -/
theorem closure?_least {r : Registry} {start : Handle} {rules : List Rule}
    {kinds : List (Handle × Kind)} (h : Grammar.ofRules r start rules kinds = .ok g)
    {items : ItemSet} (hitems : Sorted items)
    (hrules : ∀ item ∈ items, item.rule < g.rules.length) :
    ∃ closed, closure? g (First.ofGrammar g) items = .ok closed ∧
      Terminates g items ∧ IsClosure g items closed ∧
      closure? g (First.ofGrammar g) closed = .ok closed ∧
      (∀ others closed', items ⊆ others → closure? g (First.ofGrammar g) others = .ok closed' →
        closed ⊆ closed') ∧
      ∀ X moved,
        (∀ item, item ∈ moved ↔ ∃ i ∈ items, i.next? g = some X ∧ i.advance = item) →
        closure? g (First.ofGrammar g) moved = .ok (goto g (First.ofGrammar g) items X) ∧
          IsClosure g moved (goto g (First.ofGrammar g) items X) := by
  have hg := Grammar.WellFormed.of_ofRules h
  have hclosure := isClosure_closure hg items
  refine ⟨_, closure?_eq_ok hrules, terminates hg hitems, hclosure, ?_, ?_, ?_⟩
  · rw [closure?_eq_ok (rule_lt_of_mem_closure hrules)]
    exact congrArg _ ((isClosure_closure hg _).unique hclosure.idem fun _ => Iff.rfl)
  · intro others closed' hsub hclosed'
    rw [closure?] at hclosed'
    split at hclosed'
    · cases hclosed'
      exact hclosure.mono (isClosure_closure hg others) hsub
    · cases hclosed'
  · intro X moved hmoved
    have hfilter : ∀ item, item ∈ moved ↔
        item ∈ (items.filter fun item => item.next? g = some X).map Item.advance := by
      intro item
      simp only [hmoved, List.mem_map, List.mem_filter, decide_eq_true_eq, and_assoc]
    have hgoto : closure g (First.ofGrammar g) moved = goto g (First.ofGrammar g) items X :=
      (isClosure_closure hg moved).unique (isClosure_closure hg _) hfilter
    have hrules' : ∀ item ∈ moved, item.rule < g.rules.length := by
      intro item hmem
      obtain ⟨i, hi, -, rfl⟩ := (hmoved item).1 hmem
      exact hrules i hi
    rw [← hgoto]
    exact ⟨closure?_eq_ok hrules', isClosure_closure hg moved⟩

/-- Words of `x` behind a `y` with any number of `z` in front: at the start the dot stands before
`S` and so before `Z`, which may derive nothing, so it may be reduced before the `y`. -/
theorem recursive_closure :
    ∃ closed, closure? First.recursive (First.ofGrammar First.recursive) [⟨0, 0, .endOfInput⟩] =
        .ok closed ∧
      IsClosure First.recursive [⟨0, 0, .endOfInput⟩] closed ∧ ⟨4, 0, ⟨-2⟩⟩ ∈ closed := by
  obtain ⟨closed, hclosed, -, hleast, -⟩ := closure?_least First.recursive_ofRules
    (show Sorted [⟨0, 0, .endOfInput⟩] from List.pairwise_singleton _ _) (by decide)
  refine ⟨closed, hclosed, hleast, ?_⟩
  -- The items that lead there: `S` at the start, then the rule of `S` that begins with `Z`.
  have hstart : (⟨1, 0, .endOfInput⟩ : Item) ∈ closed :=
    hleast.closed _ (hleast.contains List.mem_cons_self) ⟨1⟩ [] rfl rfl 1 _ rfl rfl _ (by decide)
  exact hleast.closed _ hstart ⟨2⟩ [⟨1⟩, ⟨-1⟩] rfl rfl 4 _ rfl rfl _ (by decide)

end ItemSet

end Mixfix
