import Mixfix.Plan.Choice
import Mixfix.Proofs.Automaton.Path

/-!
# The leaves of a plan

Whatever a plan reads and guesses on the way, the move it comes to is that of a candidate of its
state.  So a shift goes along a transition, and takes no token only for a possibly empty terminal; a
reduction has a complete item.

* `Plan.exists_of_mem_leaves`: a property that splitting and reading keep holds of a candidate
  behind every leaf.
* `Automaton.backed_of_mem_leaves`: every leaf of the plan of a state is backed by the state.
-/

namespace Mixfix

open Ascending

namespace Candidate

theorem mem_insertByAction {c d : Candidate} {cs : List Candidate} :
    d ∈ insertByAction c cs ↔ d = c ∨ d ∈ cs := by
  induction cs with
  | nil => simp [insertByAction]
  | cons e cs ih =>
    rw [insertByAction]
    split
    · rw [List.mem_cons, ih, List.mem_cons]
      exact or_left_comm
    · exact List.mem_cons

theorem mem_sortByAction {c : Candidate} {cs : List Candidate} :
    c ∈ sortByAction cs ↔ c ∈ cs := by
  induction cs with
  | nil => rfl
  | cons d cs ih =>
    rw [sortByAction, List.foldr_cons, ← sortByAction, mem_insertByAction, ih, List.mem_cons]

end Candidate

namespace Plan

mutual

/-- The moves that a plan may come to, whatever it reads and guesses. -/
def leaves : Plan → List Plan
  | .shift target terminal munch => [.shift target terminal munch]
  | .reduce rule => [.reduce rule]
  | .accept => [.accept]
  | .read branches => leavesAll branches
  | .error none => []
  | .error (some guess) => guess.leaves

/-- The moves that some branch may come to. -/
def leavesAll : List (List Handle × Plan) → List Plan
  | [] => []
  | (_, plan) :: branches => plan.leaves ++ leavesAll branches

end

theorem mem_leavesAll {leaf : Plan} {branches : List (List Handle × Plan)} :
    leaf ∈ leavesAll branches ↔ ∃ branch ∈ branches, leaf ∈ branch.2.leaves := by
  induction branches with
  | nil => simp [leavesAll]
  | cons branch branches ih =>
    obtain ⟨cls, plan⟩ := branch
    rw [leavesAll, List.mem_append, ih, List.exists_mem_cons_iff]

theorem leaves_leaf (c : Candidate) : c.leaf.leaves = [c.leaf] := by
  unfold Candidate.leaf
  split <;> rw [leaves]

theorem mem_pushNew {cs : List Candidate} {c d : Candidate} :
    d ∈ pushNew cs c ↔ d ∈ cs ∨ d = c := by
  rw [pushNew]
  split
  · next h => exact ⟨.inl, fun h' => h'.elim id fun h' => h' ▸ h⟩
  · rw [List.mem_append, List.mem_singleton]

theorem mem_unique {cs : List Candidate} {c : Candidate} : c ∈ unique cs ↔ c ∈ cs := by
  suffices ∀ seen : List Candidate, c ∈ cs.foldl pushNew seen ↔ c ∈ seen ∨ c ∈ cs by
    rw [unique, this]
    simp
  induction cs with
  | nil => simp
  | cons d cs ih =>
    intro seen
    rw [List.foldl_cons, ih, mem_pushNew, List.mem_cons, or_assoc]

theorem mem_routed {cs : List Candidate} {cls : List Handle} {c : Candidate} :
    c ∈ routed cs cls ↔ ∃ d ∈ cs, d.lookahead.head?.any cls.contains ∧ d.consume = c := by
  rw [routed, mem_unique, List.mem_map]
  simp only [List.mem_filter, and_assoc]

/-- A property of candidates that splitting and reading keep holds of a candidate behind every
leaf. -/
theorem exists_of_mem_leaves {r : Registry} {P : Candidate → Prop}
    (hsplit : ∀ {c d : Candidate}, P c → d ∈ splitEmpty r c → P d)
    (hconsume : ∀ {c : Candidate}, P c → P c.consume) {depth : Nat} {cs : List Candidate}
    (h : ∀ c ∈ cs, P c) {leaf : Plan} (hl : leaf ∈ (chooseWithin r depth cs).leaves) :
    ∃ c, P c ∧ leaf = c.leaf := by
  induction depth generalizing cs with
  | zero => cases cs <;> simp [chooseWithin, leaves] at hl
  | succ depth ih =>
    cases cs with
    | nil => simp [chooseWithin, leaves] at hl
    | cons c cs =>
      rw [chooseWithin] at hl
      split at hl
      · rw [leaves_leaf, List.mem_singleton] at hl
        exact ⟨c, h c List.mem_cons_self, hl⟩
      · split at hl
        · -- The candidates are split and the choice begins again.
          refine ih (fun d hd => ?_) hl
          obtain ⟨c', hc', hd⟩ := List.mem_flatMap.1 (mem_unique.1 hd)
          exact hsplit (h c' hc') hd
        · split at hl
          · -- A guess is a leaf as well.
            rw [leaves, leaves_leaf, List.mem_singleton] at hl
            exact ⟨c, h c List.mem_cons_self, hl⟩
          · rw [leaves, mem_leavesAll] at hl
            obtain ⟨branch, hb, hl⟩ := hl
            obtain ⟨cls, -, rfl⟩ := List.mem_map.1 hb
            refine ih (fun d hd => ?_) hl
            obtain ⟨c', hc', -, rfl⟩ := mem_routed.1 hd
            exact hconsume (h c' hc')

/-- A move that the items and transitions of a state allow. -/
def Backed (g : Grammar) (s : State) : Plan → Prop
  | .shift target terminal munch => (terminal, target) ∈ s.edges ∧ terminal.isTerminal ∧
      (munch = 0 → (g.registry.nonEmptyOf terminal).isSome)
  | .reduce rule => rule ≠ 0 ∧ ∃ item ∈ s.items, item.isComplete g ∧ item.rule = rule
  | .accept => ∃ item ∈ s.items, item.isComplete g ∧ item.rule = 0
  | .read _ | .error _ => False

end Plan

/-- A candidate with a move that the state allows.  A shift whose own terminal is ahead, and will be
split, has that terminal in front or has been split already. -/
def Candidate.Backed (g : Grammar) (s : State) (c : Candidate) : Prop :=
  c.leaf.Backed g s ∧ (c.own → c.lookahead.head? = some c.terminal ∨
    (g.registry.nonEmptyOf c.terminal).isSome)

theorem Candidate.Backed.consume {g : Grammar} {s : State} {c : Candidate} (h : c.Backed g s) :
    c.consume.Backed g s :=
  ⟨h.1, fun h => nomatch h⟩

theorem Candidate.Backed.split {g : Grammar} {s : State} {c d : Candidate} (h : c.Backed g s)
    (hd : d ∈ Plan.splitEmpty g.registry c) : d.Backed g s := by
  rw [Plan.splitEmpty] at hd
  cases he : Plan.emptyAhead g.registry c with
  | none =>
    rw [he, List.mem_singleton] at hd
    exact hd ▸ h
  | some u =>
    rw [he] at hd
    -- The terminal of a shift is possibly empty if it is the one that is split.
    have hown : c.own → (g.registry.nonEmptyOf c.terminal).isSome := by
      intro ho
      rcases h.2 ho with hhead | hsome
      · rw [Plan.emptyAhead, hhead, Option.bind_some] at he
        rw [he]
        rfl
      · exact hsome
    rcases List.mem_cons.1 hd with rfl | hd
    · refine ⟨?_, fun h => nomatch h⟩
      obtain ⟨hleaf, -⟩ := h
      unfold Candidate.leaf at hleaf ⊢
      cases hact : c.action with
      | shift target =>
        simp only [Candidate.consume, hact, Plan.Backed] at hleaf ⊢
        refine ⟨hleaf.1, hleaf.2.1, fun hm => ?_⟩
        by_cases ho : c.own
        · exact hown ho
        · rw [if_neg ho] at hm
          exact hleaf.2.2 hm
      | reduce rule =>
        simp only [Candidate.consume, hact, Plan.Backed] at hleaf ⊢
        exact hleaf
      | accept =>
        simp only [Candidate.consume, hact, Plan.Backed] at hleaf ⊢
        exact hleaf
    · rw [List.mem_singleton.1 hd]
      exact ⟨h.1, fun ho => .inr (hown ho)⟩

namespace Automaton

variable {g : Grammar} {a : Automaton}

theorem head?_of_mem_lookaheads {t : Handle} {next ahead : List Handle}
    (h : ahead ∈ lookaheads t next) : ahead.head? = some t := by
  rw [lookaheads] at h
  split at h
  · rw [List.mem_singleton.1 h]
    rfl
  · obtain ⟨u, -, rfl⟩ := List.mem_map.1 h
    rfl

/-- The candidates of a state come from its actions. -/
theorem mem_candidates {i : Nat} {s : State} (hs : a[i]? = some s) {c : Candidate} :
    c ∈ a.candidates g i ↔
      ∃ t action, Maps s.actions t action ∧ c ∈ a.candidatesFor g i t action := by
  rw [candidates, Candidate.mem_sortByAction, hs, Option.elim_some, List.mem_flatMap]
  constructor
  · rintro ⟨⟨t, actions⟩, he, hc⟩
    obtain ⟨action, haction, hc⟩ := List.mem_flatMap.1 hc
    exact ⟨t, action, ⟨actions, he, haction⟩, hc⟩
  · rintro ⟨t, action, ⟨actions, he, haction⟩, hc⟩
    exact ⟨(t, actions), he, List.mem_flatMap.2 ⟨action, haction, hc⟩⟩

theorem backed_of_mem_candidates (hc : Canonical g a) {i : Nat} {s : State} (hs : a[i]? = some s)
    {c : Candidate} (h : c ∈ a.candidates g i) : c.Backed g s := by
  obtain ⟨t, action, hmaps, hcand⟩ := (mem_candidates hs).1 h
  rw [hc.actions (List.mem_of_getElem? hs), State.maps_actionsOf] at hmaps
  rcases hmaps with ⟨item, hi, hcomplete, -, rfl⟩ | ⟨j, he, ht, rfl⟩
  · by_cases h0 : item.rule = 0
    · rw [if_pos h0, candidatesFor, List.mem_singleton] at hcand
      subst hcand
      exact ⟨⟨item, hi, hcomplete, h0⟩, fun h => nomatch h⟩
    · rw [if_neg h0, candidatesFor] at hcand
      obtain ⟨ahead, -, rfl⟩ := List.mem_map.1 hcand
      exact ⟨⟨h0, item, hi, hcomplete, rfl⟩, fun h => nomatch h⟩
  · rw [candidatesFor] at hcand
    obtain ⟨ahead, hahead, rfl⟩ := List.mem_map.1 hcand
    exact ⟨⟨he, ht, fun h => nomatch h⟩, fun _ => .inl (head?_of_mem_lookaheads hahead)⟩

/-- **Every leaf of a plan** is a move that its state allows. -/
theorem backed_of_mem_leaves (hc : Canonical g a) {i : Nat} {s : State} (hs : a[i]? = some s)
    {leaf : Plan} (h : leaf ∈ (a.planOf g i).leaves) : leaf.Backed g s := by
  obtain ⟨c, hback, rfl⟩ := Plan.exists_of_mem_leaves (P := Candidate.Backed g s)
    (fun h hd => h.split hd) (fun h => h.consume) (fun _ => backed_of_mem_candidates hc hs) h
  exact hback.1

end Automaton

end Mixfix
