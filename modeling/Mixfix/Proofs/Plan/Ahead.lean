import Mixfix.Proofs.Plan.Decision
import Mixfix.Proofs.Plan.Reads

/-!
# What candidates have ahead

The lookaheads of candidates hold terminals that states act on, which are in use or the end of
input.  Splitting brings in the non-empty variants of possibly empty ones, so a plan reads terminals
in use that are never empty, the end of input, and such variants.

* `Automaton.mem_followersWithin`: the followers that a search finds.
* `Automaton.mem_of_mem_candidates`: the terminals ahead of a candidate.
* `Automaton.mem_of_mem_reads`: the terminals that a plan reads.
-/

namespace Mixfix

namespace Ascending

/-- Sets under keys stay non-empty. -/
theorem insertAt_ne_nil {α β : Type} [LT α] [DecidableLT α] [LT β] [DecidableLT β] [StrictTotal β]
    {a : α} {b : β} {m : List (α × List β)} (h : ∀ e ∈ m, e.2 ≠ []) :
    ∀ e ∈ insertAt a b m, e.2 ≠ [] := by
  induction m with
  | nil => simp [insertAt]
  | cons e m ih =>
    obtain ⟨k, s⟩ := e
    obtain ⟨hs, hm⟩ := List.forall_mem_cons.1 h
    rw [insertAt]
    split
    · exact List.forall_mem_cons.2 ⟨List.cons_ne_nil _ _, h⟩
    · split
      · exact List.forall_mem_cons.2 ⟨hs, ih hm⟩
      · exact List.forall_mem_cons.2 ⟨List.ne_nil_of_mem (mem_insert.2 (.inl rfl)), hm⟩

end Ascending

open Ascending

namespace Automaton

variable {g : Grammar} {a : Automaton} {i : Nat} {s : State}

/-- The terminals of a state are those that it has actions on. -/
theorem Canonical.mem_state_terminals (hc : Canonical g a) (hs : s ∈ a) {t : Handle} :
    t ∈ s.terminals ↔ ∃ action, Maps s.actions t action := by
  have hne : ∀ e ∈ s.actions, e.2 ≠ [] := by
    rw [hc.actions hs]
    refine List.foldlRecOn (motive := fun m : List (Handle × List Action) => ∀ e ∈ m, e.2 ≠ [])
      _ _ ?_ fun _ h _ _ => insertAt_ne_nil h
    exact List.foldlRecOn (motive := fun m : List (Handle × List Action) => ∀ e ∈ m, e.2 ≠ [])
      _ _ (fun _ h => nomatch h) fun _ h _ _ => insertAt_ne_nil h
  rw [State.terminals, List.mem_map]
  constructor
  · rintro ⟨⟨t, actions⟩, he, rfl⟩
    obtain ⟨action, haction⟩ := List.exists_mem_of_ne_nil _ (hne _ he)
    exact ⟨action, actions, he, haction⟩
  · rintro ⟨action, actions, he, -⟩
    exact ⟨(t, actions), he, rfl⟩

/-- The terminals acted on in a state that may not be there. -/
def terminalsAt (a : Automaton) (i : Nat) : List Handle := (a[i]?).elim [] (·.terminals)

theorem mem_terminalsAt {t : Handle} :
    t ∈ a.terminalsAt i ↔ ∃ s, a[i]? = some s ∧ t ∈ s.terminals := by
  rw [terminalsAt]
  cases a[i]? <;> simp

/-- The reductions on a terminal that may come after one. -/
def reductionsAfter (g : Grammar) (a : Automaton) (t : Handle) (here : Nat × Nat) :
    List (Nat × Nat) :=
  (a.actionsAfter g t here.1 here.2).filterMap fun
    | (after, .reduce rule) => some (after, rule)
    | _ => none

theorem mem_reductionsAfter {t : Handle} {here : Nat × Nat} {j id : Nat} :
    (j, id) ∈ a.reductionsAfter g t here ↔ (j, .reduce id) ∈ a.actionsAfter g t here.1 here.2 := by
  rw [reductionsAfter, List.mem_filterMap]
  constructor
  · rintro ⟨⟨after, action⟩, h, heq⟩
    cases action with
    | reduce rule =>
      cases heq
      exact h
    | shift _ => cases heq
    | accept => cases heq
  · exact fun h => ⟨_, h, rfl⟩

/-- The followers that a search finds with no more than `bound` turns. -/
def followersWithin (g : Grammar) (a : Automaton) (bound state rule : Nat) (t : Handle) :
    List Handle :=
  ofList <| (reach (a.reductionsAfter g t) bound (state, rule)).flatMap fun here =>
    (a.actionsAfter g t here.1 here.2).flatMap fun
      | (_, .shift target) => a.terminalsAt target
      | _ => []

theorem followers_eq {t : Handle} {id : Nat} : a.followers g i id t =
    a.followersWithin g (a.length * g.rules.length + 1) i id t := rfl

theorem mem_followersWithin {bound id : Nat} {t u : Handle} : u ∈ a.followersWithin g bound i id t ↔
    ∃ there ∈ reach (a.reductionsAfter g t) bound (i, id),
      ∃ j target, (j, .shift target) ∈ a.actionsAfter g t there.1 there.2 ∧
        u ∈ a.terminalsAt target := by
  rw [followersWithin, mem_ofList, List.mem_flatMap]
  refine exists_congr fun there => and_congr_right fun _ => ?_
  rw [List.mem_flatMap]
  constructor
  · rintro ⟨⟨j, action⟩, haction, hu⟩
    cases action with
    | shift target => exact ⟨j, target, haction, hu⟩
    | reduce _ => cases hu
    | accept => cases hu
  · rintro ⟨j, target, hshift, hu⟩
    exact ⟨_, hshift, hu⟩

theorem exists_of_mem_followers {rule : Nat} {t u : Handle} (h : u ∈ a.followers g i rule t) :
    ∃ j, u ∈ a.terminalsAt j := by
  rw [followers_eq, mem_followersWithin] at h
  obtain ⟨-, -, -, target, -, hu⟩ := h
  exact ⟨target, hu⟩

theorem mem_of_mem_lookaheads {t u : Handle} {next ahead : List Handle}
    (h : ahead ∈ lookaheads t next) (hu : u ∈ ahead) : u = t ∨ u ∈ next := by
  rw [lookaheads] at h
  split at h
  · rw [List.mem_singleton.1 h, List.mem_singleton] at hu
    exact .inl hu
  · obtain ⟨v, hv, rfl⟩ := List.mem_map.1 h
    rcases List.mem_cons.1 hu with rfl | hu
    · exact .inl rfl
    · rw [List.mem_singleton.1 hu]
      exact .inr hv

/-- The terminals ahead of a candidate are in use, or the end of input. -/
theorem mem_of_mem_candidates (hc : Canonical g a) (hs : a[i]? = some s) {c : Candidate}
    (h : c ∈ a.candidates g i) : ∀ t ∈ c.lookahead, t ∈ Handle.endOfInput :: g.terminals := by
  have hacted : ∀ {j t}, t ∈ a.terminalsAt j → t ∈ Handle.endOfInput :: g.terminals := by
    intro j t ht
    obtain ⟨s', hs', ht⟩ := mem_terminalsAt.1 ht
    obtain ⟨action, hmaps⟩ := (hc.mem_state_terminals (List.mem_of_getElem? hs')).1 ht
    exact hc.mem_terminals (List.mem_of_getElem? hs') hmaps
  obtain ⟨t, action, hmaps, hcand⟩ := (mem_candidates hs).1 h
  have ht := hc.mem_terminals (List.mem_of_getElem? hs) hmaps
  intro u hu
  cases action with
  | shift target =>
    obtain ⟨ahead, hahead, rfl⟩ := List.mem_map.1 hcand
    rcases mem_of_mem_lookaheads hahead hu with rfl | hu
    · exact ht
    · exact hacted hu
  | reduce rule =>
    obtain ⟨ahead, hahead, rfl⟩ := List.mem_map.1 hcand
    rcases mem_of_mem_lookaheads hahead hu with rfl | hu
    · exact ht
    · split at hu
      · obtain ⟨j, hj⟩ := exists_of_mem_followers hu
        exact hacted hj
      · cases hu
  | accept =>
    rw [candidatesFor, List.mem_singleton] at hcand
    subst hcand
    rw [List.mem_singleton.1 hu]
    exact ht

end Automaton

namespace Plan

/-- A property of the terminals ahead that holds of non-empty variants too is kept by splitting. -/
theorem forall_mem_of_mem_splitEmpty {r : Registry} {P : Handle → Prop}
    (hvariant : ∀ {t u}, P t → r.nonEmptyOf t = some u → P u) {c d : Candidate}
    (h : ∀ t ∈ c.lookahead, P t) (hd : d ∈ splitEmpty r c) : ∀ t ∈ d.lookahead, P t := by
  rw [splitEmpty] at hd
  cases he : emptyAhead r c with
  | none =>
    rw [he, List.mem_singleton] at hd
    exact hd ▸ h
  | some u =>
    rw [he] at hd
    obtain ⟨t, hhead, hu⟩ := Option.bind_eq_some_iff.1 he
    rcases List.mem_cons.1 hd with rfl | hd
    · exact fun v hv => h v (List.mem_of_mem_tail hv)
    · rw [List.mem_singleton.1 hd]
      exact List.forall_mem_cons.2 ⟨hvariant (h t (List.mem_of_mem_head? hhead)) hu,
        fun v hv => h v (List.mem_of_mem_tail hv)⟩

end Plan

namespace Automaton

variable {g : Grammar} {a : Automaton} {i : Nat} {s : State}

/-- **The reads of a plan.** A plan tells apart terminals that are not possibly empty and have every
property that the end of input, the terminals in use and non-empty variants have. -/
theorem mem_of_mem_reads (hc : Canonical g a) (hs : a[i]? = some s) {P : Handle → Prop}
    (huse : ∀ t ∈ Handle.endOfInput :: g.terminals, P t)
    (hvariant : ∀ {t u}, P t → g.registry.nonEmptyOf t = some u → P u)
    {node : List (List Handle)} (h : node ∈ (a.planOf g i).reads) :
    ∃ ts, (∀ t ∈ ts, P t ∧ g.registry.nonEmptyOf t = none) ∧
      node = Plan.classes g.registry ts := by
  obtain ⟨cs, hcs, rfl⟩ := Plan.exists_of_mem_reads
    (P := fun c => ∀ t ∈ c.lookahead, P t)
    (fun h hd => Plan.forall_mem_of_mem_splitEmpty hvariant h hd)
    (fun h t ht => h t (List.mem_of_mem_tail ht))
    (fun c hcand t ht => huse t (mem_of_mem_candidates hc hs hcand t ht)) h
  refine ⟨_, fun t ht => ?_, rfl⟩
  obtain ⟨c, hcand, hhead⟩ := List.mem_filterMap.1 ht
  obtain ⟨hP, hempty⟩ := hcs c hcand
  rw [Plan.emptyAhead, hhead] at hempty
  exact ⟨hP t (List.mem_of_mem_head? hhead), hempty⟩

end Automaton

end Mixfix
