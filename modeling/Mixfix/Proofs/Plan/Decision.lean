import Mixfix.Proofs.Automaton.Discovery
import Mixfix.Proofs.Plan.Classes
import Mixfix.Proofs.Plan.Leaves

/-!
# Plans of states without conflicts

Where no terminal is possibly empty, different terminals are distinct and a terminal has one action,
a plan needs no more than one token: it makes the move of the token ahead, and reads that token only
if another one would lead to another move.

* `Plan.Decides`: under the terminal ahead a plan comes to a given move.
* `Automaton.decides_planOf`: the plan of a state without conflicts decides on the action of every
  terminal.
-/

namespace Mixfix

open Ascending

namespace Plan

/-! ### Decisions -/

/-- With the terminal `t` ahead the plan comes to the move: at once, or after it has read one of
several different terminals. -/
inductive Decides (t : Handle) (move : Plan) (terminals : List Handle) : Plan → Prop where
  | atOnce : Decides t move terminals move
  | read {ts : List Handle} {next : Handle → Plan} : ts.Nodup → (∀ u ∈ ts, u ∈ terminals) →
      t ∈ ts → next t = move → Decides t move terminals (.read (ts.map fun u => ([u], next u)))

end Plan

namespace Action

/-- The move of an action on a terminal, which takes one token if it is a shift. -/
def move (t : Handle) : Action → Plan
  | .shift target => .shift target t 1
  | .reduce rule => .reduce rule
  | .accept => .accept

/-- The tokens that an action takes. -/
def munch : Action → Nat
  | .shift _ => 1
  | .reduce _ | .accept => 0

end Action

namespace Plan

theorem chooseWithin_of_agree {r : Registry} {depth : Nat} {c : Candidate} {cs : List Candidate}
    (h : ∀ d ∈ cs, c.agreesWith d) : chooseWithin r (depth + 1) (c :: cs) = c.leaf := by
  rw [chooseWithin, if_pos (List.all_eq_true.2 h)]

theorem action_eq_of_agree {c d : Candidate} {cs : List Candidate} (h : ∀ e ∈ cs, c.agreesWith e)
    (hd : d ∈ c :: cs) : d.action = c.action := by
  rcases List.mem_cons.1 hd with rfl | hd
  · rfl
  · have := h d hd
    simp only [Candidate.agreesWith, Bool.and_eq_true, decide_eq_true_eq] at this
    exact this.1.symm

theorem exists_depth (r : Registry) (cs : List Candidate) :
    ∃ depth, choose r cs = chooseWithin r (depth + 2) cs := by
  rw [choose]
  generalize (cs.map (·.lookahead.length)).foldl max 0 = n
  obtain ⟨depth, hdepth⟩ : ∃ depth, (n + 2) * (n + 2) = depth + 2 :=
    Nat.exists_eq_add_of_le' (Nat.le_trans (Nat.le_add_left 2 n) (Nat.le_mul_self (n + 2)))
  exact ⟨depth, congrArg (chooseWithin r · cs) hdepth⟩

/-- Where no terminal is possibly empty, none is ahead. -/
theorem any_emptyAhead {r : Registry} (hpairs : r.emptyPairs = []) (cs : List Candidate) :
    (cs.any fun e => (emptyAhead r e).isSome) = false := by
  rw [List.any_eq_false]
  intro e _
  cases h : e.lookahead.head? <;> simp [emptyAhead, Registry.nonEmptyOf, hpairs, h]

/-- Candidates that do not agree, with nothing possibly empty ahead, read one of the terminals that
they have ahead. -/
theorem chooseWithin_read {r : Registry} (hpairs : r.emptyPairs = []) {depth : Nat} {c : Candidate}
    {cs : List Candidate} (hagree : ¬ ∀ e ∈ cs, c.agreesWith e)
    (hahead : ∀ e ∈ c :: cs, e.lookahead ≠ [])
    (hd : ∀ t ∈ (c :: cs).filterMap (·.lookahead.head?),
      ∀ u ∈ (c :: cs).filterMap (·.lookahead.head?), t ≠ u → r.distinct t u) :
    chooseWithin r (depth + 1) (c :: cs) =
      .read ((ofList ((c :: cs).filterMap (·.lookahead.head?))).map fun u =>
        ([u], chooseWithin r depth (routed (c :: cs) [u]))) := by
  have hnonempty : ((c :: cs).any (·.lookahead.isEmpty)) = false := by
    rw [List.any_eq_false]
    intro e he
    simpa using hahead e he
  rw [chooseWithin, if_neg (by simpa using hagree), if_neg (by simp [any_emptyAhead hpairs]),
    if_neg (by simp [hnonempty]), classes_of_distinct hd, List.map_map]
  rfl

/-- The candidates stand for the actions of the terminals that they have ahead. -/
def StandFor (Acts : Handle → Action → Prop) (cs : List Candidate) : Prop :=
  ∀ c ∈ cs, ∃ t, Acts t c.action ∧ c.lookahead.head? = some t ∧ c.leaf = c.action.move t ∧
    c.munch = c.action.munch

section

variable {r : Registry} {Acts : Handle → Action → Prop} {cs : List Candidate} {d : Candidate}
  {t : Handle}

theorem StandFor.acts (hcs : StandFor Acts cs) (hdc : d ∈ cs) (ht : d.lookahead.head? = some t) :
    Acts t d.action := by
  obtain ⟨t', hacts, hhead, -⟩ := hcs d hdc
  cases ht.symm.trans hhead
  exact hacts

/-- Once a terminal with one action is read, the candidates agree on its move. -/
theorem StandFor.chooseWithin_routed (hcs : StandFor Acts cs)
    (hunique : ∀ {t x y}, Acts t x → Acts t y → x = y) (hdc : d ∈ cs)
    (ht : d.lookahead.head? = some t) (depth : Nat) :
    chooseWithin r (depth + 1) (routed cs [t]) = d.action.move t := by
  have hrouted : ∀ e ∈ routed cs [t], e.leaf = d.action.move t ∧ e.action = d.action ∧
      e.munch = d.action.munch := by
    intro e he
    obtain ⟨e', he', hany, rfl⟩ := mem_routed.1 he
    obtain ⟨u, hacts, hu, hleaf, hmunch⟩ := hcs e' he'
    obtain rfl : u = t := by simpa [hu] using hany
    have haction : e'.action = d.action := hunique hacts (hcs.acts hdc ht)
    rw [haction] at hleaf hmunch
    exact ⟨hleaf, haction, hmunch⟩
  have hdr : d.consume ∈ routed cs [t] := mem_routed.2 ⟨d, hdc, by simp [ht], rfl⟩
  cases hroute : routed cs [t] with
  | nil => rw [hroute] at hdr; cases hdr
  | cons e es =>
    rw [hroute] at hrouted
    obtain ⟨hleaf, haction, hmunch⟩ := hrouted e List.mem_cons_self
    rw [chooseWithin_of_agree, hleaf]
    intro e' he'
    obtain ⟨-, haction', hmunch'⟩ := hrouted e' (List.mem_cons_of_mem _ he')
    simp [Candidate.agreesWith, haction, haction', hmunch, hmunch']

/-- Candidates that stand for the actions of their first terminals, of which each has one, come to
the move of the terminal ahead. -/
theorem StandFor.decides (hcs : StandFor Acts cs) (hpairs : r.emptyPairs = [])
    {terminals : List Handle} (hd : ∀ t ∈ terminals, ∀ u ∈ terminals, t ≠ u → r.distinct t u)
    (hterminals : ∀ {t x}, Acts t x → t ∈ terminals)
    (hunique : ∀ {t x y}, Acts t x → Acts t y → x = y)
    (hmove : ∀ {t u x}, Acts t x → Acts u x → x.move t = x.move u) (hdc : d ∈ cs)
    (ht : d.lookahead.head? = some t) (depth : Nat) :
    Decides t (d.action.move t) terminals (chooseWithin r (depth + 2) cs) := by
  cases cs with
  | nil => cases hdc
  | cons c cs =>
    by_cases hall : ∀ e ∈ cs, c.agreesWith e
    · -- Nothing is read: every candidate makes the same move.
      obtain ⟨u, hacts, -, hleaf, -⟩ := hcs c List.mem_cons_self
      have haction : c.action = d.action := (action_eq_of_agree hall hdc).symm
      rw [chooseWithin_of_agree hall, hleaf, haction]
      rw [haction] at hacts
      rw [hmove hacts (hcs.acts hdc ht)]
      exact .atOnce
    · have hheads : ∀ u ∈ (c :: cs).filterMap (·.lookahead.head?), u ∈ terminals := by
        intro u hu
        obtain ⟨e, he, heu⟩ := List.mem_filterMap.1 hu
        exact hterminals (hcs.acts he heu)
      have hahead : ∀ e ∈ c :: cs, e.lookahead ≠ [] := by
        intro e he hnil
        obtain ⟨u, -, hu, -⟩ := hcs e he
        rw [hnil] at hu
        cases hu
      rw [chooseWithin_read hpairs hall hahead fun x hx y hy => hd x (hheads x hx) y (hheads y hy)]
      exact .read (sorted_ofList _).nodup (fun u hu => hheads u (mem_ofList.1 hu))
        (mem_ofList.2 (List.mem_filterMap.2 ⟨d, hdc, ht⟩))
        (hcs.chooseWithin_routed hunique hdc ht depth)

end

end Plan

namespace Automaton

variable {g : Grammar} {a : Automaton} {i : Nat} {s : State}

/-- A candidate stands for an action on the terminal it has ahead. -/
theorem spec_of_mem_candidates (hs : a[i]? = some s) {c : Candidate} (h : c ∈ a.candidates g i) :
    ∃ t, Maps s.actions t c.action ∧ c.lookahead.head? = some t ∧ c.leaf = c.action.move t ∧
      c.munch = c.action.munch := by
  obtain ⟨t, action, hmaps, hcand⟩ := (mem_candidates hs).1 h
  refine ⟨t, ?_⟩
  cases action with
  | shift target =>
    obtain ⟨ahead, hahead, rfl⟩ := List.mem_map.1 hcand
    exact ⟨hmaps, head?_of_mem_lookaheads hahead, rfl, rfl⟩
  | reduce rule =>
    obtain ⟨ahead, hahead, rfl⟩ := List.mem_map.1 hcand
    exact ⟨hmaps, head?_of_mem_lookaheads hahead, rfl, rfl⟩
  | accept =>
    rw [candidatesFor, List.mem_singleton] at hcand
    subst hcand
    exact ⟨hmaps, rfl, rfl, rfl⟩

theorem lookaheads_ne_nil (t : Handle) (next : List Handle) : lookaheads t next ≠ [] := by
  rw [lookaheads]
  split
  · simp
  · next h => simpa using h

/-- Every action has a candidate. -/
theorem exists_mem_candidates (hs : a[i]? = some s) {t : Handle} {action : Action}
    (h : Maps s.actions t action) :
    ∃ c ∈ a.candidates g i, c.action = action ∧ c.lookahead.head? = some t := by
  have hex : ∃ c ∈ a.candidatesFor g i t action,
      c.action = action ∧ c.lookahead.head? = some t := by
    cases action with
    | shift target =>
      obtain ⟨ahead, hahead⟩ := List.exists_mem_of_ne_nil _
        (lookaheads_ne_nil t ((a[target]?).elim [] (·.terminals)))
      exact ⟨_, List.mem_map_of_mem hahead, rfl, head?_of_mem_lookaheads hahead⟩
    | reduce rule =>
      obtain ⟨ahead, hahead⟩ := List.exists_mem_of_ne_nil _ (lookaheads_ne_nil t
        (if (g.registry.nonEmptyOf t).isSome then a.followers g i rule t else []))
      exact ⟨_, List.mem_map_of_mem hahead, rfl, head?_of_mem_lookaheads hahead⟩
    | accept => exact ⟨_, List.mem_singleton_self _, rfl, rfl⟩
  obtain ⟨c, hc, hspec⟩ := hex
  exact ⟨c, (mem_candidates hs).2 ⟨t, action, h, hc⟩, hspec⟩

/-- A terminal of a state without conflicts has one action. -/
theorem Canonical.action_unique (hc : Canonical g a) (hs : s ∈ a)
    (hconflict : s.hasConflict = false) {t : Handle} {x y : Action} (hx : Maps s.actions t x)
    (hy : Maps s.actions t y) : x = y := by
  have hordered : Ordered s.actions := by
    rw [hc.actions hs]
    exact State.ordered_actionsOf g s.items s.edges
  obtain ⟨xs, hxs, hx⟩ := hx
  obtain ⟨ys, hys, hy⟩ := hy
  cases (hordered.lookup_eq_some.2 hxs).symm.trans (hordered.lookup_eq_some.2 hys)
  have hlen : ¬ 1 < xs.length := by
    have := List.any_eq_false.1 hconflict (t, xs) hxs
    simpa using this
  match xs, hlen, hx, hy with
  | [z], _, hx, hy => rw [List.mem_singleton.1 hx, List.mem_singleton.1 hy]
  | _ :: _ :: _, hlen, _, _ => exact absurd (by simp) hlen

/-- The terminals of a state's actions are the end of input or in use. -/
theorem Canonical.mem_terminals (hc : Canonical g a) (hs : s ∈ a) {t : Handle} {action : Action}
    (h : Maps s.actions t action) : t ∈ Handle.endOfInput :: g.terminals := by
  rw [List.mem_cons, Grammar.mem_terminals, ← List.mem_cons]
  rw [hc.actions hs, State.maps_actionsOf] at h
  rcases h with ⟨item, hi, -, rfl, -⟩ | ⟨j, he, ht, -⟩
  · exact (hc.proper hs).lookahead item hi
  · have hmem : t ∈ s.items.expected g := by
      rw [← hc.keys hs]
      exact List.mem_map_of_mem he
    obtain ⟨item, -, hnext⟩ := ItemSet.mem_expected.1 hmem
    obtain ⟨rest, hrest⟩ := Item.next?_eq_some.1 hnext
    obtain ⟨rule, hr, -, hX⟩ := Item.rest_eq_cons hrest
    refine List.mem_cons_of_mem _ (Grammar.mem_uses.2 ⟨ht, rule, List.mem_of_getElem? hr, ?_⟩)
    exact List.mem_of_mem_drop (hX ▸ List.mem_cons_self)

/-- A shift is along a transition. -/
theorem Canonical.edge_of_shift (hc : Canonical g a) (hs : s ∈ a) {t : Handle} {j : Nat}
    (h : Maps s.actions t (.shift j)) : (t, j) ∈ s.edges := by
  rw [hc.actions hs, State.maps_actionsOf] at h
  rcases h with ⟨item, -, -, -, heq⟩ | ⟨j', he, -, heq⟩
  · split at heq <;> cases heq
  · cases heq
    exact he

/-- A shift to one state is over one terminal, so an action on several terminals is one move. -/
theorem Canonical.move_eq (hc : Canonical g a) (hs : s ∈ a) {t u : Handle} {x : Action}
    (ht : Maps s.actions t x) (hu : Maps s.actions u x) : x.move t = x.move u := by
  cases x with
  | shift j => rw [hc.entry_unique hs hs (hc.edge_of_shift hs ht) (hc.edge_of_shift hs hu)]
  | reduce rule => rfl
  | accept => rfl

/-- **A state without conflicts** decides on the action of the terminal ahead, and reads that
terminal if others have other actions. -/
theorem decides_planOf (hc : Canonical g a) (hpairs : g.registry.emptyPairs = [])
    (hd : ∀ t ∈ Handle.endOfInput :: g.terminals, ∀ u ∈ Handle.endOfInput :: g.terminals,
      t ≠ u → g.registry.distinct t u)
    (hs : a[i]? = some s) (hconflict : s.hasConflict = false) {t : Handle} {action : Action}
    (h : Maps s.actions t action) :
    Plan.Decides t (action.move t) (Handle.endOfInput :: g.terminals) (a.planOf g i) := by
  have hmem := List.mem_of_getElem? hs
  obtain ⟨d, hdc, rfl, hhead⟩ := exists_mem_candidates (g := g) hs h
  obtain ⟨depth, hdepth⟩ := Plan.exists_depth g.registry (a.candidates g i)
  rw [planOf, hdepth]
  have hstand : Plan.StandFor (Maps s.actions) (a.candidates g i) :=
    fun c => spec_of_mem_candidates hs
  exact hstand.decides hpairs hd (hc.mem_terminals hmem) (hc.action_unique hmem hconflict)
    (hc.move_eq hmem) hdc hhead depth

end Automaton

end Mixfix
