import Mathlib.Data.List.Sort
import Mixfix.Proofs.Executor.Reading
import Mixfix.Proofs.Plan.Conflicts
import Mixfix.Proofs.Plan.Paths
import Mixfix.Proofs.Registry.Calls

/-!
# The best guess of a conflict

The candidates of a state stand in the order of their actions. Splitting, leaving out repetitions
and routing keep that order, so the first candidate left at a conflict, which is its best guess, has
the least action of all that are left. An executor that follows guesses makes that move: a shift if
one is left, else the reduction by the first rule.

* `Plan.Leads.ordered`: the candidates left at the end of a path are in the order of their actions.
* `Plan.Best`: the best action among the candidates left at the end of a path.
* `Executor.mayMove_of_walk`: an executor moves as the walk along the tokens that it has ahead.
* `Automaton.guesses_best`: the guesses in the plans of a grammar.
-/

namespace Mixfix

open Ascending

/-! ### Order -/

namespace Candidate

/-- The candidates are in the order of their actions. -/
def Ordered (cs : List Candidate) : Prop := cs.Pairwise fun c d => ¬ d.action < c.action

variable {c : Candidate} {cs : List Candidate}

/-- Sorting by action is insertion sort. -/
theorem sortByAction_eq (cs : List Candidate) :
    sortByAction cs = cs.insertionSort fun c d => ¬ d.action < c.action := by
  have hinsert : ∀ (c : Candidate) (cs : List Candidate),
      insertByAction c cs = cs.orderedInsert (fun c d => ¬ d.action < c.action) c := by
    intro c cs
    induction cs with
    | nil => rfl
    | cons d cs ih =>
      rw [insertByAction, List.orderedInsert, ih]
      exact (ite_not _ _ _).symm
  rw [sortByAction, List.insertionSort]
  exact congrArg (List.foldr · [] cs) (funext₂ hinsert)

theorem ordered_sortByAction (cs : List Candidate) : Ordered (sortByAction cs) := by
  have htotal : Std.Total fun c d : Candidate => ¬ d.action < c.action :=
    ⟨fun c d => or_iff_not_imp_left.2 fun h h' =>
      StrictTotal.irrefl _ (StrictTotal.trans (not_not.1 h) h')⟩
  have htrans : IsTrans Candidate fun c d => ¬ d.action < c.action := by
    refine ⟨fun c d e hcd hde hec => ?_⟩
    by_cases hdc : c.action < d.action
    · exact hde (StrictTotal.trans hec hdc)
    · rw [StrictTotal.tri hdc hcd] at hec
      exact hde hec
  rw [sortByAction_eq]
  exact List.pairwise_insertionSort _ cs

end Candidate

theorem Automaton.ordered_candidates (g : Grammar) (a : Automaton) (i : Nat) :
    Candidate.Ordered (a.candidates g i) := Candidate.ordered_sortByAction _

namespace Plan

open Candidate

variable {r : Registry} {c d : Candidate} {cs ds : List Candidate} {path : List (List Handle)}

theorem unique_sublist (cs : List Candidate) : (unique cs).Sublist cs := by
  suffices ∀ seen : List Candidate, (cs.foldl pushNew seen).Sublist (seen ++ cs) from this []
  induction cs with
  | nil => exact fun seen => (List.append_nil seen).symm ▸ List.Sublist.refl seen
  | cons c cs ih =>
    intro seen
    rw [List.foldl_cons]
    refine (ih _).trans ?_
    rw [pushNew]
    split
    · exact List.Sublist.append_left (List.sublist_cons_self c cs) seen
    · rw [List.append_assoc]
      exact List.Sublist.refl _

theorem action_of_mem_splitEmpty (h : d ∈ splitEmpty r c) : d.action = c.action := by
  rw [splitEmpty] at h
  split at h
  · rw [List.mem_singleton.1 h]
  · rcases List.mem_cons.1 h with rfl | h
    · rfl
    · rw [List.mem_singleton.1 h]

theorem ordered_split (h : Ordered cs) : Ordered (unique (cs.flatMap (splitEmpty r))) := by
  refine List.Pairwise.sublist (unique_sublist _) (List.pairwise_flatMap.2 ⟨fun c _ => ?_, ?_⟩)
  · refine List.pairwise_of_forall_mem_list fun d hd e he => ?_
    rw [action_of_mem_splitEmpty hd, action_of_mem_splitEmpty he]
    exact StrictTotal.irrefl _
  · refine h.imp fun hcd x hx y hy => ?_
    rw [action_of_mem_splitEmpty hx, action_of_mem_splitEmpty hy]
    exact hcd

theorem ordered_routed (h : Ordered cs) (cls : List Handle) : Ordered (routed cs cls) :=
  List.Pairwise.sublist (unique_sublist _) (List.pairwise_map.2 (h.sublist List.filter_sublist))

/-- The candidates left at the end of a path are in the order of their actions. -/
theorem Leads.ordered (h : Leads r cs path ds) (hcs : Ordered cs) : Ordered ds := by
  induction h with
  | here => exact hcs
  | split _ ih => exact ih (ordered_split hcs)
  | read _ _ _ _ ih => exact ih (ordered_routed hcs _)

/-! ### The candidates left -/

/-- The candidate is left at the end of a path. -/
def Left (r : Registry) (path : List (List Handle)) (c : Candidate) : Prop :=
  ∃ d, Becomes r c path d

theorem Becomes.action (h : Becomes r c path d) : d.action = c.action := by
  induction h with
  | rest => rfl
  | split _ hd _ ih => rw [ih, action_of_mem_splitEmpty hd]
  | read _ _ _ _ ih => exact ih

/-- With possibly empty terminals taken as their variants, a candidate that is left has nothing
possibly empty ahead. -/
theorem Left.exists_becomes (hr : r.Reached) (h : Left r path c) :
    ∃ d, Becomes r c path d ∧ emptyAhead r d = none := by
  obtain ⟨d, h⟩ := h
  induction h with
  | rest c =>
    cases hempty : emptyAhead r c with
    | none => exact ⟨c, .rest c, hempty⟩
    | some u =>
      obtain ⟨t, -, hu⟩ := Option.bind_eq_some_iff.1 hempty
      refine ⟨{ c with lookahead := u :: c.lookahead.tail }, ?_, hr.nonEmptyOf_variant hu⟩
      refine .split (by rw [hempty]; rfl) ?_ (.rest _)
      rw [splitEmpty, hempty]
      exact List.mem_cons_of_mem _ List.mem_cons_self
  | split hsome hd _ ih =>
    obtain ⟨e, h, he⟩ := ih
    exact ⟨e, .split hsome hd h, he⟩
  | read hempty hhead ht _ ih =>
    obtain ⟨e, h, he⟩ := ih
    exact ⟨e, .read hempty hhead ht h, he⟩

/-- The best action among the candidates left at the end of a path: the least, which is a shift if
one of them shifts, and else the reduction by the first rule if one of them reduces. -/
structure Best (r : Registry) (cs : List Candidate) (path : List (List Handle)) (action : Action) :
    Prop where
  attained : ∃ c ∈ cs, Left r path c ∧ c.action = action
  least : ∀ c ∈ cs, Left r path c → ¬ c.action < action
  shift : ∀ c ∈ cs, Left r path c → ∀ j, c.action = .shift j → ∃ k ≤ j, action = .shift k
  reduce : ∀ c ∈ cs, Left r path c → ∀ rule, c.action = .reduce rule →
    (∃ k, action = .shift k) ∨ ∃ first ≤ rule, action = .reduce first

end Plan

theorem Action.shift_of_not_lt {x : Action} {j : Nat} (h : ¬ shift j < x) :
    ∃ k ≤ j, x = shift k := by
  rw [lt_iff] at h
  cases x <;> simp_all [rank]

theorem Action.reduce_of_not_lt {x : Action} {rule : Nat} (h : ¬ reduce rule < x) :
    (∃ k, x = shift k) ∨ ∃ first ≤ rule, x = reduce first := by
  rw [lt_iff] at h
  cases x <;> simp_all [rank]

namespace Plan

variable {r : Registry} {c : Candidate} {cs ds : List Candidate} {path : List (List Handle)}

/-- The least action is the best. -/
theorem Best.of_least {action : Action} (hattained : ∃ c ∈ cs, Left r path c ∧ c.action = action)
    (hleast : ∀ c ∈ cs, Left r path c → ¬ c.action < action) : Best r cs path action where
  attained := hattained
  least := hleast
  shift c hc hleft _ hj := Action.shift_of_not_lt (hj ▸ hleast c hc hleft)
  reduce c hc hleft _ hrule := Action.reduce_of_not_lt (hrule ▸ hleast c hc hleft)

/-- The first candidate left has the best action. -/
theorem Leads.best (hr : r.Reached) (h : Leads r cs path (c :: ds)) (hcs : Candidate.Ordered cs) :
    Best r cs path c.action := by
  refine .of_least ?_ fun e he hleft => ?_
  · have hc := h.emptyAhead_eq_none c List.mem_cons_self
    obtain ⟨e, he, hbecomes⟩ := (h.mem_iff hc).1 List.mem_cons_self
    exact ⟨e, he, ⟨c, hbecomes⟩, hbecomes.action.symm⟩
  · obtain ⟨d, hbecomes, hd⟩ := hleft.exists_becomes hr
    rw [← hbecomes.action]
    rcases List.mem_cons.1 ((h.mem_iff hd).2 ⟨e, he, hbecomes⟩) with rfl | hmem
    · exact StrictTotal.irrefl _
    · exact (List.pairwise_cons.1 (h.ordered hcs)).1 d hmem

/-- **The guess of a conflict** is the move of a candidate with the best action. -/
theorem exists_best (hr : r.Reached) (hcs : Candidate.Ordered cs) {guess : Plan}
    (h : Along (choose r cs) path (.error (some guess))) :
    ∃ c : Candidate, guess = c.leaf ∧ Best r cs path c.action := by
  generalize hnode : Plan.error (some guess) = node at h
  cases meets_choose hr h with
  | move c => exact absurd hnode.symm (leaf_ne_error c _)
  | nothing => cases hnode
  | read => cases hnode
  | @conflict c ds hleads =>
    cases hnode
    exact ⟨c, rfl, hleads.best hr hcs⟩

/-- Only a choice among no candidates is a conflict without a guess. -/
theorem eq_nil_of_along (hr : r.Reached) (h : Along (choose r cs) path (.error none)) :
    cs = [] ∧ path = [] := by
  generalize hnode : Plan.error none = node at h
  cases meets_choose hr h with
  | move c => exact absurd hnode.symm (leaf_ne_error c _)
  | nothing hcs hpath => exact ⟨hcs, hpath⟩
  | read => cases hnode
  | conflict => cases hnode

/-! ### Walks -/

/-- The classes of the branches that a walk along the tokens goes through. -/
def classesAlong : Plan → List Handle → List (List Handle)
  | .read branches, t :: word =>
    (branches.find? (·.1.contains t)).elim [] fun branch => branch.1 :: branch.2.classesAlong word
  | _, _ => []

/-- A walk ends at the end of the path that it goes. -/
theorem along_of_walk? {plan node : Plan} {word : List Handle} (h : plan.walk? word = some node) :
    Along plan (plan.classesAlong word) node := by
  induction word generalizing plan with
  | nil =>
    cases plan with
    | read => cases h
    | shift | reduce | accept | error =>
      cases h
      exact .here _
  | cons t word ih =>
    cases plan with
    | shift | reduce | accept | error =>
      cases h
      exact .here _
    | read branches =>
      rw [walk?, branch?] at h
      rw [classesAlong]
      cases hbranch : branches.find? (·.1.contains t) with
      | none =>
        rw [hbranch] at h
        cases h
      | some branch =>
        rw [hbranch] at h
        exact .read (List.mem_of_find?_eq_some hbranch) (ih h)

/-- The best guess of a conflict. -/
def guess? : Plan → Option Plan
  | .error guess => guess
  | _ => none

theorem guess?_eq_some {plan guess : Plan} :
    plan.guess? = some guess ↔ plan = .error (some guess) := by
  cases plan <;> simp [guess?]

end Plan

namespace Executor

variable {σ : Type} {e : Executor σ} {w : Window}

/-- A read takes the token at a depth of the buffer, which it may have to add. -/
theorem read_ahead {m : Machine σ} {ts : List Handle} {depth : Nat}
    {buffer buffer' : List (Ahead σ)} {t : Handle}
    (h : (e.read w m ts depth buffer).result = .ok (some (t, buffer')))
    (hdepth : depth ≤ buffer.length) :
    ∃ token, token.terminal = t ∧ buffer'[depth]? = some token ∧ buffer <+: buffer' := by
  rw [read_eq] at h
  split at h
  · next token htoken =>
    cases h
    exact ⟨token, rfl, htoken, List.prefix_rfl⟩
  · next hnone =>
    obtain ⟨found, -, h⟩ := Traced.bind_eq_ok.1 h
    cases found with
    | none => cases h
    | some token =>
      obtain ⟨_, -, h⟩ := Traced.bind_eq_ok.1 h
      cases h
      obtain rfl := Nat.le_antisymm hdepth (List.getElem?_eq_none_iff.1 hnone)
      exact ⟨token, rfl, List.getElem?_concat_length, List.prefix_append _ _⟩

/-- The walk along the tokens comes to the move, or to a conflict with the move among its guesses,
which the executor follows. -/
def MayMove (e : Executor σ) (plan : Plan) (word : List Handle) (move : Move) : Prop :=
  plan.walk? word = some move.leaf ∨
    e.config.resolve ∧ ∃ guess, plan.walk? word = some (.error (some guess)) ∧
      move.leaf ∈ guess.leaves

mutual

/-- An executor moves as the walk along the terminals of the tokens that it has ahead. -/
theorem mayMove_of_walk {m : Machine σ} {move : Move} {buffer' : List (Ahead σ)} :
    ∀ {plan : Plan} {depth : Nat} {buffer : List (Ahead σ)}, depth ≤ buffer.length →
      (e.walk w m plan depth buffer).result = .ok (some (move, buffer')) →
      buffer <+: buffer' ∧ e.MayMove plan ((buffer'.drop depth).map (·.terminal)) move
  | .shift _ _ _, _, _, _, h | .reduce _, _, _, _, h | .accept, _, _, _, h => by
    rw [walk] at h
    cases h
    exact ⟨List.prefix_rfl, .inl (by simp [Plan.walk?, Move.leaf])⟩
  | .error none, _, _, _, h => by
    rw [walk] at h
    cases h
  | .error (some guess), _, _, hdepth, h => by
    rw [walk] at h
    split at h
    · next hresolve =>
      refine ⟨(mayMove_of_walk hdepth h).1, .inr ⟨hresolve, guess, ?_, (walk_result h).1⟩⟩
      simp [Plan.walk?]
    · cases h
  | .read branches, depth, _, hdepth, h => by
    rw [walk, Traced.bind_eq_ok] at h
    obtain ⟨found, hread, h⟩ := h
    cases found with
    | none => cases h
    | some found =>
      obtain ⟨token, ht, htoken, hmore⟩ := read_ahead hread hdepth
      obtain ⟨hlt, hget⟩ := List.getElem?_eq_some_iff.1 htoken
      obtain ⟨hlater, plan, hbranch, hmove⟩ := mayMove_of_walkBranch hlt h
      refine ⟨hmore.trans hlater, ?_⟩
      have hdrop : buffer'.drop depth = token :: buffer'.drop (depth + 1) := by
        rw [List.drop_eq_getElem_cons (hlt.trans_le hlater.length_le), ← hlater.getElem hlt, hget]
      rw [MayMove, hdrop, List.map_cons, ht, Plan.walk?, hbranch]
      exact hmove

theorem mayMove_of_walkBranch {m : Machine σ} {move : Move} {buffer' : List (Ahead σ)} :
    ∀ {branches : List (List Handle × Plan)} {t : Handle} {depth : Nat} {buffer : List (Ahead σ)},
      depth ≤ buffer.length →
      (e.walkBranch w m branches t depth buffer).result = .ok (some (move, buffer')) →
      buffer <+: buffer' ∧ ∃ plan, Plan.branch? branches t = some plan ∧
        e.MayMove plan ((buffer'.drop depth).map (·.terminal)) move
  | [], _, _, _, _, h => by
    rw [walkBranch] at h
    cases h
  | (cls, plan) :: branches, _, _, _, hdepth, h => by
    rw [walkBranch] at h
    rw [Plan.branch?, List.find?_cons]
    split at h
    · next hin =>
      rw [hin]
      exact (mayMove_of_walk hdepth h).imp_right fun hmove => ⟨plan, rfl, hmove⟩
    · next hout =>
      rw [Bool.eq_false_of_not_eq_true hout]
      exact mayMove_of_walkBranch hdepth h

end

end Executor

namespace Automaton

/-- **A guess is the best action.** Where a walk of the plan of a state ends at a conflict with a
guess, that guess is a move, and its action is the best one among the candidates of the state that
are left there. Only the whole plan of a state without actions is a conflict without a guess. An
executor moves as the walk along the tokens that it has ahead, or, if it follows guesses, by the
guess at the end of that walk. -/
theorem guesses_best {r : Registry} {start : Handle} {rules : List Rule}
    {kinds : List (Handle × Kind)} {g : Grammar} (hr : r.Reached)
    (h : Grammar.ofRules r start rules kinds = .ok g) {i : Nat} {s : State}
    (hs : (ofGrammar g)[i]? = some s) :
    (∀ word guess, ((ofGrammar g).planOf g i).walk? word = some (.error (some guess)) →
      ∃ action, guess.action? = some action ∧
        Plan.Best g.registry ((ofGrammar g).candidates g i)
          (((ofGrammar g).planOf g i).classesAlong word) action) ∧
    (∀ path, Plan.Along ((ofGrammar g).planOf g i) path (.error none) →
      path = [] ∧ (ofGrammar g).planOf g i = .error none ∧ s.actions = []) ∧
    ∀ {σ : Type} (e : Executor σ) (w : Window) (m : Executor.Machine σ) move buffer,
      (e.walk w m ((ofGrammar g).planOf g i) 0 m.buffer).result = .ok (some (move, buffer)) →
      ((ofGrammar g).planOf g i).walk? (buffer.map (·.terminal)) = some move.leaf ∨
        e.config.resolve ∧ ((ofGrammar g).planOf g i).walk? (buffer.map (·.terminal)) =
          some (.error (some move.leaf)) := by
  have hreached := hr.of_ofRules h
  have hordered := ordered_candidates g (ofGrammar g) i
  refine ⟨fun word guess hwalk => ?_, fun path hpath => ?_, ?_⟩
  · obtain ⟨c, rfl, hbest⟩ := Plan.exists_best hreached hordered (Plan.along_of_walk? hwalk)
    exact ⟨c.action, Plan.action?_leaf c, hbest⟩
  · obtain ⟨hnil, rfl⟩ := Plan.eq_nil_of_along hreached hpath
    refine ⟨rfl, by rw [planOf, hnil]; rfl, ?_⟩
    exact ((canonical (Grammar.WellFormed.of_ofRules h)).candidates_eq_nil hs).1 hnil
  · intro σ e w m move buffer hwalk
    refine (Executor.mayMove_of_walk (Nat.zero_le _) hwalk).2.imp_right ?_
    rintro ⟨hresolve, guess, hguess, hleaf⟩
    obtain ⟨c, rfl, -⟩ := Plan.exists_best hreached hordered (Plan.along_of_walk? hguess)
    rw [Plan.leaves_leaf, List.mem_singleton] at hleaf
    exact ⟨hresolve, hleaf ▸ hguess⟩

/-- Behind two operands the operator may be shifted, or wait for a reduction: the guess is the
shift. -/
theorem ambiguous_guess :
    let plan := (ofGrammar Table.ambiguous).planOf Table.ambiguous 4
    ∃ guess, plan.walk? [⟨-1⟩] = some (.error (some guess)) ∧ guess.action? = some (.shift 3) ∧
      Plan.Best Table.ambiguous.registry ((ofGrammar Table.ambiguous).candidates Table.ambiguous 4)
        (plan.classesAlong [⟨-1⟩]) (.shift 3) := by
  have hreached : Registry.Reached
      (.ofLists ["E"] [["x"], ["y"]] [[⟨-1⟩, ⟨-2⟩]] []) :=
    Registry.reached_iff.2 ⟨[.intern ["E"], .intern ["x"], .intern ["y"],
      .declareDistinct [⟨-1⟩, ⟨-2⟩]], Registry.eq_of_lists rfl rfl rfl rfl rfl⟩
  have hstate : ((ofGrammar Table.ambiguous)[4]?).isSome := by decide +kernel
  have hnode : ((((ofGrammar Table.ambiguous).planOf Table.ambiguous 4).walk? [⟨-1⟩]).bind
    Plan.guess?).bind Plan.action? = some (.shift 3) := by decide +kernel
  obtain ⟨s, hs⟩ := Option.isSome_iff_exists.1 hstate
  obtain ⟨guess, hnode, hguess⟩ := Option.bind_eq_some_iff.1 hnode
  obtain ⟨node, hwalk, hnode⟩ := Option.bind_eq_some_iff.1 hnode
  cases Plan.guess?_eq_some.1 hnode
  obtain ⟨action, haction, hbest⟩ := (guesses_best hreached Table.ambiguous_ofRules hs).1 _ _ hwalk
  cases haction.symm.trans hguess
  exact ⟨guess, hwalk, hguess, hbest⟩

end Automaton

end Mixfix
