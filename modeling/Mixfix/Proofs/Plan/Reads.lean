import Mixfix.Proofs.Plan.Classes
import Mixfix.Proofs.Plan.Leaves

/-!
# The reads of a plan

Every read of a plan tells apart the terminals that its candidates have ahead, once none of these is
possibly empty.

* `Plan.exists_of_isVague`: a vague plan has a read with a class of several terminals.
* `Plan.exists_of_mem_reads`: behind every read are candidates that keep what splitting and reading
  keep.
-/

namespace Mixfix

open Ascending

namespace Plan

/-! ### Reads -/

mutual

/-- The classes of every read that a plan may make, whatever it reads and guesses before. -/
def reads : Plan → List (List (List Handle))
  | .read branches => branches.map (·.1) :: readsAll branches
  | .error (some guess) => guess.reads
  | .shift .. | .reduce _ | .accept | .error none => []

/-- The classes of every read in some branch. -/
def readsAll : List (List Handle × Plan) → List (List (List Handle))
  | [] => []
  | (_, plan) :: branches => plan.reads ++ readsAll branches

end

theorem mem_readsAll {node : List (List Handle)} {branches : List (List Handle × Plan)} :
    node ∈ readsAll branches ↔ ∃ branch ∈ branches, node ∈ branch.2.reads := by
  induction branches with
  | nil => simp [readsAll]
  | cons branch branches ih =>
    obtain ⟨cls, plan⟩ := branch
    rw [readsAll, List.mem_append, ih, List.exists_mem_cons_iff]

mutual

/-- A vague plan makes a read with a class of more than one terminal. -/
theorem exists_of_isVague : ∀ {plan : Plan}, plan.isVague →
    ∃ node ∈ plan.reads, ∃ cls ∈ node, 1 < cls.length
  | .read branches, h => by
    rw [isVague] at h
    rw [reads]
    rcases exists_of_someVague h with ⟨branch, hbranch, hcls⟩ | ⟨node, hnode, hcls⟩
    · exact ⟨_, List.mem_cons_self, branch.1, List.mem_map_of_mem hbranch, hcls⟩
    · exact ⟨node, List.mem_cons_of_mem _ hnode, hcls⟩
  | .error (some guess), h => by
    rw [isVague] at h
    rw [reads]
    exact exists_of_isVague h
  | .error none, h | .shift .., h | .reduce _, h | .accept, h => by simp [isVague] at h

theorem exists_of_someVague : ∀ {branches : List (List Handle × Plan)}, someVague branches →
    (∃ branch ∈ branches, 1 < branch.1.length) ∨
      ∃ node ∈ readsAll branches, ∃ cls ∈ node, 1 < cls.length
  | [], h => by simp [someVague] at h
  | (cls, plan) :: branches, h => by
    rw [someVague, Bool.or_eq_true, Bool.or_eq_true, decide_eq_true_iff] at h
    rw [readsAll]
    rcases h with (hcls | hplan) | hbranches
    · exact .inl ⟨_, List.mem_cons_self, hcls⟩
    · obtain ⟨node, hnode, hcls⟩ := exists_of_isVague hplan
      exact .inr ⟨node, List.mem_append_left _ hnode, hcls⟩
    · rcases exists_of_someVague hbranches with ⟨branch, hbranch, hcls⟩ | ⟨node, hnode, hcls⟩
      · exact .inl ⟨branch, List.mem_cons_of_mem _ hbranch, hcls⟩
      · exact .inr ⟨node, List.mem_append_right _ hnode, hcls⟩

end

theorem reads_leaf (c : Candidate) : c.leaf.reads = [] := by
  unfold Candidate.leaf
  split <;> rw [reads]

/-- Behind every read are candidates with a property that splitting and reading keep, and with
nothing possibly empty ahead. -/
theorem exists_of_mem_reads {r : Registry} {P : Candidate → Prop}
    (hsplit : ∀ {c d : Candidate}, P c → d ∈ splitEmpty r c → P d)
    (hconsume : ∀ {c : Candidate}, P c → P c.consume) {depth : Nat} {cs : List Candidate}
    (h : ∀ c ∈ cs, P c) {node : List (List Handle)}
    (hn : node ∈ (chooseWithin r depth cs).reads) :
    ∃ ds : List Candidate, (∀ d ∈ ds, P d ∧ emptyAhead r d = none) ∧
      node = classes r (ds.filterMap (·.lookahead.head?)) := by
  induction depth generalizing cs with
  | zero => cases cs <;> simp [chooseWithin, reads] at hn
  | succ depth ih =>
    cases cs with
    | nil => simp [chooseWithin, reads] at hn
    | cons c cs =>
      rw [chooseWithin] at hn
      split at hn
      · rw [reads_leaf] at hn
        cases hn
      · split at hn
        · refine ih (fun d hd => ?_) hn
          obtain ⟨c', hc', hd⟩ := List.mem_flatMap.1 (mem_unique.1 hd)
          exact hsplit (h c' hc') hd
        · next hempty =>
          split at hn
          · rw [reads, reads_leaf] at hn
            cases hn
          · rw [reads, List.mem_cons, List.map_map] at hn
            rcases hn with rfl | hn
            · refine ⟨c :: cs, fun d hd => ⟨h d hd, ?_⟩, List.map_id _⟩
              rw [Bool.not_eq_true, List.any_eq_false] at hempty
              simpa using hempty d hd
            · obtain ⟨branch, hb, hn⟩ := mem_readsAll.1 hn
              obtain ⟨cls, -, rfl⟩ := List.mem_map.1 hb
              refine ih (fun d hd => ?_) hn
              obtain ⟨c', hc', -, rfl⟩ := mem_routed.1 hd
              exact hconsume (h c' hc')

end Plan

end Mixfix
