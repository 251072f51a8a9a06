import Mixfix.Proofs.Plan.Reads
import Mixfix.Proofs.Plan.Walk

/-!
# Paths of a plan

A path of a plan goes through reads, from each to the branch of one of its classes. On the way every
candidate goes on by itself: a possibly empty terminal in front is taken as nothing or as its
variant, and a class that has the terminal in front takes it away. The candidates left at the end of
the path are the ones that a read there tells apart, or that a conflict there is among. A read takes
one terminal from all of them, so there are no more reads on a path than terminals in the longest
lookahead.

* `Plan.Along`: the nodes at the ends of the paths.
* `Plan.Becomes`: what a candidate may be at the end of a path.
* `Plan.meets_choose`: what there is at the end of a path of a choice.
* `Plan.choose_reads`: the choice ends, and how many reads a path has and what each tells apart.
-/

namespace Mixfix

open Ascending

namespace Plan

variable {r : Registry} {c d : Candidate} {cs ds : List Candidate} {path : List (List Handle)}

/-! ### The candidates of one read -/

/-- A class of the terminals in front selects a candidate. -/
theorem routed_ne_nil {cls : List Handle}
    (h : cls ∈ classes r (cs.filterMap (·.lookahead.head?))) : routed cs cls ≠ [] := by
  obtain ⟨t, ht⟩ := List.exists_mem_of_ne_nil cls (classes_ne_nil h)
  obtain ⟨c, hc, hhead⟩ := List.mem_filterMap.1 (exists_mem_classes.1 ⟨cls, h, ht⟩)
  exact List.ne_nil_of_mem (mem_routed.2 ⟨c, hc, by simpa [hhead] using ht, rfl⟩)

theorem splitEmpty_ne_nil (r : Registry) (c : Candidate) : splitEmpty r c ≠ [] := by
  rw [splitEmpty]
  split <;> exact List.cons_ne_nil _ _

/-! ### Paths -/

/-- The nodes of a plan, each with the classes of the branches that lead to it. A guess is reached
without a read. -/
inductive Along : Plan → List (List Handle) → Plan → Prop where
  | here (plan : Plan) : Along plan [] plan
  | guess {guess node : Plan} {path : List (List Handle)} : Along guess path node →
      Along (.error (some guess)) path node
  | read {branches : List (List Handle × Plan)} {cls : List Handle} {plan node : Plan}
      {path : List (List Handle)} : (cls, plan) ∈ branches → Along plan path node →
      Along (.read branches) (cls :: path) node

theorem leaf_ne_error (c : Candidate) (guess : Option Plan) : c.leaf ≠ .error guess := by
  unfold Candidate.leaf
  split <;> nofun

theorem leaf_ne_read (c : Candidate) (branches : List (List Handle × Plan)) :
    c.leaf ≠ .read branches := by
  unfold Candidate.leaf
  split <;> nofun

theorem Along.leaf {node : Plan} (h : Along c.leaf path node) : path = [] ∧ node = c.leaf := by
  generalize hleaf : c.leaf = plan at h
  cases h with
  | here => exact ⟨rfl, rfl⟩
  | guess => exact absurd hleaf (leaf_ne_error c _)
  | read => exact absurd hleaf (leaf_ne_read c _)

/-- What a candidate may be at the end of a path: the possibly empty terminals in front are taken
one way or the other, and each class takes the terminal in front. -/
inductive Becomes (r : Registry) : Candidate → List (List Handle) → Candidate → Prop where
  | rest (c : Candidate) : Becomes r c [] c
  | split {c d e : Candidate} {path : List (List Handle)} : (emptyAhead r c).isSome →
      d ∈ splitEmpty r c → Becomes r d path e → Becomes r c path e
  | read {c e : Candidate} {t : Handle} {cls : List Handle} {path : List (List Handle)} :
      emptyAhead r c = none → c.lookahead.head? = some t → t ∈ cls → Becomes r c.consume path e →
      Becomes r c (cls :: path) e

/-- What is left of a candidate is what is left of one of the two that it is split into. -/
theorem becomes_split (hd : emptyAhead r d = none) :
    Becomes r c path d ↔ ∃ e ∈ splitEmpty r c, Becomes r e path d := by
  cases hempty : emptyAhead r c with
  | none => simp only [splitEmpty, hempty, List.mem_singleton, exists_eq_left]
  | some u =>
    constructor
    · intro h
      cases h with
      | rest => exact absurd (hempty.symm.trans hd) (Option.some_ne_none u)
      | split _ he h => exact ⟨_, he, h⟩
      | read hnone => exact absurd (hempty.symm.trans hnone) (Option.some_ne_none u)
    · rintro ⟨e, he, h⟩
      exact .split (by rw [hempty]; rfl) he h

theorem becomes_nil (hc : emptyAhead r c = none) : Becomes r c [] d ↔ d = c := by
  constructor
  · intro h
    cases h with
    | rest => rfl
    | split hsome => exact absurd (hc ▸ hsome) nofun
  · rintro rfl
    exact .rest _

theorem becomes_cons (hc : emptyAhead r c = none) {cls : List Handle} :
    Becomes r c (cls :: path) d ↔
      c.lookahead.head?.any cls.contains ∧ Becomes r c.consume path d := by
  rw [Option.any_eq_true]
  simp only [List.contains_iff_mem]
  constructor
  · intro h
    cases h with
    | split hsome => exact absurd (hc ▸ hsome) nofun
    | read _ hhead ht h => exact ⟨⟨_, hhead, ht⟩, h⟩
  · rintro ⟨⟨t, hhead, ht⟩, h⟩
    exact .read hc hhead ht h

/-! ### The candidates at the end of a path -/

/-- The choice among the first candidates comes along a path to the one among the second, which have
nothing possibly empty ahead. -/
inductive Leads (r : Registry) : List Candidate → List (List Handle) → List Candidate → Prop where
  | here {cs : List Candidate} : (∀ c ∈ cs, emptyAhead r c = none) → Leads r cs [] cs
  | split {cs ds : List Candidate} {path : List (List Handle)} :
      Leads r (unique (cs.flatMap (splitEmpty r))) path ds → Leads r cs path ds
  | read {cs ds : List Candidate} {cls : List Handle} {path : List (List Handle)} :
      (∀ c ∈ cs, emptyAhead r c = none) → (∀ c ∈ cs, c.lookahead ≠ []) →
      cls ∈ classes r (cs.filterMap (·.lookahead.head?)) → Leads r (routed cs cls) path ds →
      Leads r cs (cls :: path) ds

theorem Leads.emptyAhead_eq_none (h : Leads r cs path ds) : ∀ d ∈ ds, emptyAhead r d = none := by
  induction h with
  | here hempty => exact hempty
  | split _ ih => exact ih
  | read _ _ _ _ ih => exact ih

/-- The candidates at the end of a path are what each candidate by itself becomes. -/
theorem Leads.mem_iff (h : Leads r cs path ds) (hd : emptyAhead r d = none) :
    d ∈ ds ↔ ∃ c ∈ cs, Becomes r c path d := by
  induction h with
  | @here cs hempty =>
    constructor
    · exact fun h => ⟨d, h, .rest d⟩
    · rintro ⟨c, hc, h⟩
      exact (becomes_nil (hempty c hc)).1 h ▸ hc
  | split _ ih =>
    simp only [ih, mem_split]
    constructor
    · rintro ⟨e, ⟨c, hc, he⟩, h⟩
      exact ⟨c, hc, (becomes_split hd).2 ⟨e, he, h⟩⟩
    · rintro ⟨c, hc, h⟩
      obtain ⟨e, he, h⟩ := (becomes_split hd).1 h
      exact ⟨e, ⟨c, hc, he⟩, h⟩
  | @read cs ds cls path hempty hne hcls _ ih =>
    simp only [ih, mem_routed]
    constructor
    · rintro ⟨e, ⟨c, hc, hhead, rfl⟩, h⟩
      exact ⟨c, hc, (becomes_cons (hempty c hc)).2 ⟨hhead, h⟩⟩
    · rintro ⟨c, hc, h⟩
      obtain ⟨hhead, h⟩ := (becomes_cons (hempty c hc)).1 h
      exact ⟨c.consume, ⟨c, hc, hhead, rfl⟩, h⟩

/-- Every read on a path takes a terminal from the longest lookahead. -/
theorem Leads.longest_add_le (hr : r.Reached) (h : Leads r cs path ds) :
    longest ds + path.length ≤ longest cs := by
  induction h with
  | here => exact Nat.le_refl _
  | split _ ih => exact ih.trans (longest_split hr)
  | @read cs ds cls path hempty hne hcls _ ih =>
    have hcs : cs ≠ [] := by
      rintro rfl
      exact routed_ne_nil hcls rfl
    have hlt : longest (routed cs cls) < longest cs := longest_routed hne hcs
    rw [List.length_cons]
    omega

/-- What there is at the end of a path of the choice among candidates: a move, a conflict among the
candidates left, or a read that tells them apart. -/
inductive Meets (r : Registry) (cs : List Candidate) (path : List (List Handle)) : Plan → Prop where
  | move (c : Candidate) : Meets r cs path c.leaf
  | nothing : cs = [] → path = [] → Meets r cs path (.error none)
  | conflict {c : Candidate} {ds : List Candidate} : Leads r cs path (c :: ds) →
      Meets r cs path (.error (some c.leaf))
  | read {ds : List Candidate} : Leads r cs path ds → ds ≠ [] → (∀ d ∈ ds, d.lookahead ≠ []) →
      Meets r cs path (.read ((classes r (ds.filterMap (·.lookahead.head?))).map fun cls =>
        (cls, choose r (routed ds cls))))

/-- What a choice meets is met by every choice that comes to it. -/
theorem Meets.of_leads {node : Plan} {path' : List (List Handle)} (h : Meets r ds path node)
    (hne : ds ≠ []) (hleads : ∀ {es}, Leads r ds path es → Leads r cs path' es) :
    Meets r cs path' node := by
  cases h with
  | move c => exact .move c
  | nothing hnil => exact absurd hnil hne
  | conflict h => exact .conflict (hleads h)
  | read h hes hahead => exact .read (hleads h) hes hahead

/-- **The nodes of a choice.** -/
theorem meets_choose (hr : r.Reached) {node : Plan} (h : Along (choose r cs) path node) :
    Meets r cs path node := by
  induction cs using (defers_wf hr).induction generalizing path node with
  | _ cs ih =>
    have hdecided := decided_decision r (choose r) cs
    rw [← choose_eq hr] at hdecided
    generalize choose r cs = plan at h hdecided
    cases hdecided with
    | none =>
      cases h
      exact .nothing rfl rfl
    | @agree c cs =>
      rw [h.leaf.2]
      exact .move c
    | @split c cs hdisagree hsome =>
      have hne : unique ((c :: cs).flatMap (splitEmpty r)) ≠ [] := by
        obtain ⟨d, hd⟩ := List.exists_mem_of_ne_nil _ (splitEmpty_ne_nil r c)
        exact List.ne_nil_of_mem (mem_split.2 ⟨c, List.mem_cons_self, hd⟩)
      exact (ih _ (.split hdisagree hsome) h).of_leads hne .split
    | @conflict c cs hdisagree hempty =>
      cases h with
      | here => exact .conflict (.here hempty)
      | guess h =>
        rw [h.leaf.2]
        exact .move c
    | @read c cs hdisagree hempty hahead =>
      cases h with
      | here => exact .read (.here hempty) (List.cons_ne_nil c cs) hahead
      | read hbranch h =>
        obtain ⟨cls, hcls, hbranch⟩ := List.mem_map.1 hbranch
        cases hbranch
        exact (ih _ (.read hdisagree hempty hahead hcls) h).of_leads (routed_ne_nil hcls)
          (.read hempty hahead hcls)

/-- **The reads on a path.** There are fewer before a read than terminals in the longest lookahead.
The read tells apart the terminals in front of the candidates left, none of them possibly empty, and
no two of its classes share one. -/
theorem read_along (hr : r.Reached) {branches : List (List Handle × Plan)}
    (h : Along (choose r cs) path (.read branches)) :
    path.length < longest cs ∧ (∀ branch ∈ branches, ∀ t ∈ branch.1, r.nonEmptyOf t = none) ∧
      (branches.map (·.1)).Pairwise List.Disjoint ∧
      ∀ t, (∃ branch ∈ branches, t ∈ branch.1) ↔ ∃ c ∈ cs, ∃ d, Becomes r c path d ∧
        emptyAhead r d = none ∧ d.lookahead.head? = some t := by
  generalize hnode : Plan.read branches = node at h
  cases meets_choose hr h with
  | move c => exact absurd hnode.symm (leaf_ne_read c _)
  | nothing => cases hnode
  | conflict => cases hnode
  | @read ds hleads hne hahead =>
    cases hnode
    have hempty := hleads.emptyAhead_eq_none
    have hcover : ∀ t, (∃ branch ∈ (classes r (ds.filterMap (·.lookahead.head?))).map fun cls =>
        (cls, choose r (routed ds cls)), t ∈ branch.1) ↔ ∃ d ∈ ds, d.lookahead.head? = some t := by
      intro t
      simp only [List.mem_map, exists_exists_and_eq_and]
      rw [exists_mem_classes, List.mem_filterMap]
    refine ⟨?_, fun branch hbranch t ht => ?_, ?_, fun t => ?_⟩
    · obtain ⟨d, hd⟩ := List.exists_mem_of_ne_nil ds hne
      have hpos := (List.length_pos_of_ne_nil (hahead d hd)).trans_le (length_le_longest hd)
      have hle := hleads.longest_add_le hr
      omega
    · obtain ⟨d, hd, hhead⟩ := (hcover t).1 ⟨branch, hbranch, ht⟩
      have hnone := hempty d hd
      rwa [emptyAhead, hhead] at hnone
    · rw [List.map_map]
      exact (List.map_id _).symm ▸ classes_pairwise r _
    · rw [hcover]
      constructor
      · rintro ⟨d, hd, hhead⟩
        obtain ⟨c, hc, h⟩ := (hleads.mem_iff (hempty d hd)).1 hd
        exact ⟨c, hc, d, h, hempty d hd, hhead⟩
      · rintro ⟨c, hc, d, h, hnone, hhead⟩
        exact ⟨d, (hleads.mem_iff hnone).2 ⟨c, hc, h⟩, hhead⟩

end Plan

namespace Automaton

theorem length_of_mem_lookaheads {t : Handle} {next ahead : List Handle}
    (h : ahead ∈ lookaheads t next) : ahead.length ≤ 2 := by
  rw [lookaheads] at h
  split at h
  · rw [List.mem_singleton.1 h]
    exact Nat.le_succ 1
  · obtain ⟨u, -, rfl⟩ := List.mem_map.1 h
    exact Nat.le_refl 2

/-- The candidates of a state look at most two terminals ahead. -/
theorem longest_candidates (g : Grammar) (a : Automaton) (i : Nat) :
    Plan.longest (a.candidates g i) ≤ 2 := by
  refine Plan.longest_le_iff.2 fun c hc => ?_
  cases hs : a[i]? with
  | none =>
    rw [candidates, hs] at hc
    cases hc
  | some s =>
    obtain ⟨t, action, -, hc⟩ := (mem_candidates hs).1 hc
    cases action with
    | accept =>
      rw [List.mem_singleton.1 hc]
      exact Nat.le_succ 1
    | shift target | reduce rule =>
      obtain ⟨ahead, hahead, rfl⟩ := List.mem_map.1 hc
      exact length_of_mem_lookaheads hahead

end Automaton

namespace Plan

/-- **A choice ends and reads no more than it needs.** No choice calls for others without end, and
the choice is the one that makes its decisions by those that it calls for. On every path of its plan
there are at most as many reads as terminals in the longest lookahead. A read has no possibly empty
terminal, no terminal in two classes, and exactly the terminals in front of the candidates left. So
the plan of a state reads no more than two tokens. -/
theorem choose_reads {r : Registry} (hr : r.Reached) :
    (WellFounded fun ds cs => Defers r cs ds) ∧
    (∀ next : List Candidate → Plan, next = choose r ↔ ∀ cs, next cs = decision r next cs) ∧
    (∀ cs path branches, Along (choose r cs) path (.read branches) →
      path.length < longest cs ∧ (∀ branch ∈ branches, ∀ t ∈ branch.1, r.nonEmptyOf t = none) ∧
      (branches.map (·.1)).Pairwise List.Disjoint ∧
      ∀ t, (∃ branch ∈ branches, t ∈ branch.1) ↔ ∃ c ∈ cs, ∃ d, Becomes r c path d ∧
        emptyAhead r d = none ∧ d.lookahead.head? = some t) ∧
    ∀ (g : Grammar) (a : Automaton) (i : Nat) path branches, g.registry = r →
      Along (a.planOf g i) path (.read branches) → path.length < 2 := by
  refine ⟨defers_wf hr, fun _ => eq_choose_iff hr, fun _ _ _ => read_along hr, ?_⟩
  rintro g a i path branches rfl h
  exact (read_along hr h).1.trans_le (a.longest_candidates g i)

/-- Blanks that may be missing before one letter, and blanks before another: behind the blanks there
is a read again, and no other behind that. -/
theorem spaced_reads :
    let plan := choose spaced [⟨[⟨-1⟩, ⟨-3⟩], .shift 1, ⟨-1⟩, 1, true⟩,
      ⟨[⟨-2⟩, ⟨-4⟩], .shift 2, ⟨-2⟩, 1, true⟩]
    (∃ branches, Along plan [[⟨-2⟩]] (.read branches)) ∧
      ∀ path branches, Along plan path (.read branches) → path.length < 2 :=
  ⟨⟨_, .read (List.mem_cons_of_mem _ List.mem_cons_self) (.here _)⟩,
    fun path branches h => ((choose_reads reached_spaced).2.2.1 _ path branches h).1⟩

end Plan

end Mixfix
