import Mixfix.Proofs.Plan.Selection
import Mixfix.Proofs.Plan.Recursion
import Mixfix.Proofs.Registry.Calls

/-!
# Walks of a plan

A walk takes the tokens ahead one by one and follows the branches of a plan. It keeps every
candidate that the tokens may stand for, so it ends at the move of that candidate or at a conflict
that the plan reports. Under tokens that suit two candidates with different actions it ends at a
conflict.

* `Plan.Chosen`: the plan of some candidates, as a relation without a bound.
* `Plan.chosen_choose`: the bound on the decisions never shows.
* `Plan.walk?`: where a walk along the tokens ends.
* `Plan.Chosen.walk`: the tokens that suit a candidate lead to its action or to a conflict.
-/

namespace Mixfix

namespace Plan

variable {r : Registry} {c d : Candidate} {cs : List Candidate} {word : List Handle}

/-! ### The choice without a bound -/

/-- The plan that selects one of the candidates. -/
inductive Chosen (r : Registry) : List Candidate → Plan → Prop where
  | none : Chosen r [] (.error none)
  | agree {c : Candidate} {cs : List Candidate} : (∀ d ∈ cs, c.agreesWith d) →
      Chosen r (c :: cs) c.leaf
  | split {cs : List Candidate} {plan : Plan} : (∃ d ∈ cs, (emptyAhead r d).isSome) →
      Chosen r (unique (cs.flatMap (splitEmpty r))) plan → Chosen r cs plan
  /-- A candidate that makes another move than the first is left with nothing to read. -/
  | conflict {c : Candidate} {cs : List Candidate} : (∃ d ∈ cs, ¬ c.agreesWith d) →
      (∀ d ∈ c :: cs, emptyAhead r d = none) → (∃ d ∈ c :: cs, d.lookahead = []) →
      Chosen r (c :: cs) (.error (some c.leaf))
  | read {cs : List Candidate} {next : List Handle → Plan} :
      (∀ d ∈ cs, emptyAhead r d = none) → (∀ d ∈ cs, d.lookahead ≠ []) →
      (∀ cls ∈ classes r (cs.filterMap (·.lookahead.head?)), Chosen r (routed cs cls) (next cls)) →
      Chosen r cs (.read ((classes r (cs.filterMap (·.lookahead.head?))).map fun cls =>
        (cls, next cls)))

/-- **The bound on the decisions never shows.** -/
theorem chosen_choose (hr : r.Reached) (cs : List Candidate) : Chosen r cs (choose r cs) := by
  induction cs using (defers_wf hr).induction with
  | _ cs ih =>
    have hdecided := decided_decision r (choose r) cs
    rw [← choose_eq hr] at hdecided
    generalize choose r cs = plan at hdecided ⊢
    cases hdecided with
    | none => exact .none
    | agree hall => exact .agree hall
    | split hdisagree hsome => exact .split hsome (ih _ (.split hdisagree hsome))
    | conflict hdisagree hempty hend => exact .conflict hdisagree hempty hend
    | read hdisagree hempty hne =>
      exact .read hempty hne fun cls hcls => ih _ (.read hdisagree hempty hne hcls)

/-! ### Walks -/

/-- Where a walk along the tokens ends: each read takes the next token and goes to the branch whose
class has it. There is no end if the tokens run out or no branch has the next one. -/
def walk? : Plan → List Handle → Option Plan
  | .read branches, t :: word => (branch? branches t).bind fun plan => plan.walk? word
  | .read _, [] => none
  | plan, _ => some plan

/-- The action of a move. -/
def action? : Plan → Option Action
  | .shift target _ _ => some (.shift target)
  | .reduce rule => some (.reduce rule)
  | .accept => some .accept
  | .read _ | .error _ => none

theorem action?_leaf (c : Candidate) : c.leaf.action? = some c.action := by
  unfold Candidate.leaf
  split <;> next h => rw [h]; rfl

theorem walk?_leaf (c : Candidate) (word : List Handle) : c.leaf.walk? word = some c.leaf := by
  unfold Candidate.leaf
  split <;> simp [walk?]

/-- A conflict among candidates, with the best guess. -/
def IsConflict (plan : Plan) : Prop := ∃ guess, plan = .error (some guess)

theorem IsConflict.action? {plan : Plan} (h : plan.IsConflict) : plan.action? = none := by
  obtain ⟨guess, rfl⟩ := h
  rfl

/-- The walk along tokens that suit a candidate comes to an end: a conflict or a move with the
action of the candidate. -/
theorem Chosen.walk {plan : Plan} (hr : r.Reached) (h : Chosen r cs plan) (hc : c ∈ cs)
    (hsuits : Suits r False c word) :
    ∃ p, plan.walk? word = some p ∧ (p.IsConflict ∨ p.action? = some c.action) := by
  induction h generalizing c word with
  | none => cases hc
  | @agree e cs hall =>
    refine ⟨e.leaf, walk?_leaf e word, .inr ?_⟩
    rw [action?_leaf]
    rcases List.mem_cons.1 hc with rfl | hc
    · rfl
    · have hagree := hall c hc
      simp only [Candidate.agreesWith, Bool.and_eq_true, decide_eq_true_eq] at hagree
      rw [hagree.1]
  | split _ _ ih =>
    -- One of the two ways to take a possibly empty terminal suits the tokens.
    obtain ⟨d, hd, haction, hsuits⟩ := hsuits.split hr.nonEmptyOf_variant
    rw [← haction]
    exact ih (mem_unique.2 (List.mem_flatMap.2 ⟨c, hc, hd⟩)) hsuits
  | @conflict e => exact ⟨.error (some e.leaf), by simp [walk?], .inl ⟨_, rfl⟩⟩
  | @read cs next hempty hne _ ih =>
    obtain ⟨t, rest, rfl, hhead, hsuits⟩ := hsuits.read (hempty c hc) (hne c hc)
    have hclass : ∃ cls ∈ classes r (cs.filterMap (·.lookahead.head?)), t ∈ cls :=
      exists_mem_classes.2 (List.mem_filterMap.2 ⟨c, hc, hhead⟩)
    obtain ⟨cls, hcls, ht, hbranch⟩ := exists_branch? next hclass
    rw [walk?, hbranch, Option.bind_some]
    refine ih cls hcls (c := c.consume) (mem_routed.2 ⟨c, hc, ?_, rfl⟩) hsuits
    simpa [hhead] using ht

/-- **A plan never picks the wrong action.** If the tokens ahead begin with some that the lookahead
of a candidate may stand for, then the walk finds a branch for every token that it reads and has one
to read wherever it needs one. It ends at a conflict or at a move with the action of the candidate,
and at a conflict if the tokens suit a candidate with another action as well. -/
theorem choose_walk (hr : r.Reached) (hc : c ∈ cs) (hword : r.Begins c.lookahead word) :
    ∃ p, (choose r cs).walk? word = some p ∧ (p.IsConflict ∨ p.action? = some c.action) ∧
      ∀ d ∈ cs, r.Begins d.lookahead word → d.action ≠ c.action → p.IsConflict := by
  have hchosen := chosen_choose hr cs
  obtain ⟨p, hwalk, hp⟩ := hchosen.walk hr hc (.past hword False.elim)
  refine ⟨p, hwalk, hp, fun d hd hdword hne => ?_⟩
  obtain ⟨q, hwalk', hq⟩ := hchosen.walk hr hd (.past hdword False.elim)
  cases hwalk.symm.trans hwalk'
  refine hp.resolve_right fun hc => ?_
  refine hne (Option.some.inj ?_)
  rcases hq with hq | hq
  · exact absurd (hq.action?.symm.trans hc) nofun
  · exact hq.symm.trans hc

/-- Blanks that may be missing, blanks, and two letters. -/
def spaced : Registry :=
  .ofLists [] [["ws?"], ["ws"], ["x"], ["y"]] [[⟨-2⟩, ⟨-3⟩, ⟨-4⟩]] [(⟨-1⟩, ⟨-2⟩)]

theorem reached_spaced : spaced.Reached :=
  Registry.reached_iff.2 ⟨[.intern ["ws?"], .intern ["ws"], .intern ["x"], .intern ["y"],
    .declareDistinct [⟨-2⟩, ⟨-3⟩, ⟨-4⟩], .declareEmptyPair ⟨-1⟩ ⟨-2⟩],
    Registry.eq_of_lists rfl rfl rfl rfl rfl⟩

/-- Blanks and the first letter lead to the shift over the blanks that may be missing, though the
other candidate has blanks ahead as well. -/
theorem walk_spaced :
    ∃ p, (choose spaced [⟨[⟨-1⟩, ⟨-3⟩], .shift 1, ⟨-1⟩, 1, true⟩,
        ⟨[⟨-2⟩, ⟨-4⟩], .shift 2, ⟨-2⟩, 1, true⟩]).walk? [⟨-2⟩, ⟨-3⟩] = some p ∧
      (p.IsConflict ∨ p.action? = some (.shift 1)) ∧
      ∀ d ∈ [(⟨[⟨-1⟩, ⟨-3⟩], .shift 1, ⟨-1⟩, 1, true⟩ : Candidate),
          ⟨[⟨-2⟩, ⟨-4⟩], .shift 2, ⟨-2⟩, 1, true⟩],
        spaced.Begins d.lookahead [⟨-2⟩, ⟨-3⟩] → d.action ≠ .shift 1 → p.IsConflict :=
  choose_walk reached_spaced List.mem_cons_self ⟨_, [], rfl, .token (.token .nil)⟩

end Plan

end Mixfix
