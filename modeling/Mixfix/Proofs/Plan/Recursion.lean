import Mixfix.Proofs.Plan.Leaves
import Mixfix.Proofs.Registry.Reached

/-!
# The recursion of the choice

A choice among candidates calls for others: among the candidates with each possibly empty terminal
in front taken both ways, or among those that a class of next terminals selects. The first may be
almost twice as many, with lookaheads as long as before. But a variant is not possibly empty itself,
so either way one possibly empty terminal less is in front, and a read takes one terminal from all.
So no choice calls for others without end, and the bound on the decisions never shows.

* `Plan.Decided`: what one decision comes to.
* `Plan.Defers`: the choices that a choice calls for.
* `Plan.defers_wf`: no choice calls for others without end.
* `Plan.choose_eq`: a choice by those that it calls for.
-/

namespace Mixfix

namespace Plan

variable {r : Registry} {c d : Candidate} {cs ds : List Candidate}

/-! ### One decision -/

/-- The first decision of a choice, where `next` makes those that it calls for. -/
def decision (r : Registry) (next : List Candidate → Plan) : List Candidate → Plan
  | [] => .error none
  | c :: cs =>
    if cs.all (c.agreesWith ·) then c.leaf
    else if (c :: cs).any fun d => (emptyAhead r d).isSome then
      next (unique ((c :: cs).flatMap (splitEmpty r)))
    else if (c :: cs).any (·.lookahead.isEmpty) then
      .error (some c.leaf)
    else
      .read ((classes r ((c :: cs).filterMap (·.lookahead.head?))).map fun cls =>
        (cls, next (routed (c :: cs) cls)))

theorem chooseWithin_succ (depth : Nat) (cs : List Candidate) :
    chooseWithin r (depth + 1) cs = decision r (chooseWithin r depth) cs := by
  cases cs <;> rfl

/-- What a decision comes to. -/
inductive Decided (r : Registry) (next : List Candidate → Plan) : List Candidate → Plan → Prop where
  | none : Decided r next [] (.error none)
  | agree {c : Candidate} {cs : List Candidate} : (∀ d ∈ cs, c.agreesWith d) →
      Decided r next (c :: cs) c.leaf
  | split {c : Candidate} {cs : List Candidate} : (∃ d ∈ cs, ¬ c.agreesWith d) →
      (∃ d ∈ c :: cs, (emptyAhead r d).isSome) →
      Decided r next (c :: cs) (next (unique ((c :: cs).flatMap (splitEmpty r))))
  | conflict {c : Candidate} {cs : List Candidate} : (∃ d ∈ cs, ¬ c.agreesWith d) →
      (∀ d ∈ c :: cs, emptyAhead r d = none) → (∃ d ∈ c :: cs, d.lookahead = []) →
      Decided r next (c :: cs) (.error (some c.leaf))
  | read {c : Candidate} {cs : List Candidate} : (∃ d ∈ cs, ¬ c.agreesWith d) →
      (∀ d ∈ c :: cs, emptyAhead r d = none) → (∀ d ∈ c :: cs, d.lookahead ≠ []) →
      Decided r next (c :: cs) (.read ((classes r ((c :: cs).filterMap (·.lookahead.head?))).map
        fun cls => (cls, next (routed (c :: cs) cls))))

theorem decided_decision (r : Registry) (next : List Candidate → Plan) (cs : List Candidate) :
    Decided r next cs (decision r next cs) := by
  cases cs with
  | nil => exact .none
  | cons c cs =>
    rw [decision]
    split_ifs with hagree hempty hend
    · exact .agree (by simpa using hagree)
    · exact .split (by simpa using hagree) (by simpa using hempty)
    · exact .conflict (by simpa using hagree) (by simpa using hempty) (by simpa using hend)
    · exact .read (by simpa using hagree) (by simpa using hempty) (by simpa using hend)

/-- The choice among the first candidates calls for the one among the second. -/
inductive Defers (r : Registry) : List Candidate → List Candidate → Prop where
  | split {c : Candidate} {cs : List Candidate} : (∃ d ∈ cs, ¬ c.agreesWith d) →
      (∃ d ∈ c :: cs, (emptyAhead r d).isSome) →
      Defers r (c :: cs) (unique ((c :: cs).flatMap (splitEmpty r)))
  | read {c : Candidate} {cs : List Candidate} {cls : List Handle} : (∃ d ∈ cs, ¬ c.agreesWith d) →
      (∀ d ∈ c :: cs, emptyAhead r d = none) → (∀ d ∈ c :: cs, d.lookahead ≠ []) →
      cls ∈ classes r ((c :: cs).filterMap (·.lookahead.head?)) →
      Defers r (c :: cs) (routed (c :: cs) cls)

/-- A decision depends on the choices that it calls for. -/
theorem decision_congr {next next' : List Candidate → Plan}
    (h : ∀ ds, Defers r cs ds → next ds = next' ds) : decision r next cs = decision r next' cs := by
  cases cs with
  | nil => rfl
  | cons c cs =>
    rw [decision, decision]
    split_ifs with hagree hempty hend
    · rfl
    · exact h _ (.split (by simpa using hagree) (by simpa using hempty))
    · rfl
    · refine congrArg Plan.read (List.map_congr_left fun cls hcls => ?_)
      rw [h _ (.read (by simpa using hagree) (by simpa using hempty) (by simpa using hend) hcls)]

/-! ### What is left to do -/

/-- How many possibly empty terminals a candidate has ahead before any other. -/
def emptyRun (r : Registry) (c : Candidate) : Nat :=
  (c.lookahead.takeWhile fun t => (r.nonEmptyOf t).isSome).length

theorem emptyRun_le : emptyRun r c ≤ c.lookahead.length :=
  (List.takeWhile_sublist _).length_le

theorem emptyRun_eq_zero : emptyRun r c = 0 ↔ emptyAhead r c = none := by
  rw [emptyRun, emptyAhead, List.length_eq_zero_iff]
  cases c.lookahead with
  | nil => simp
  | cons t ahead => cases h : r.nonEmptyOf t <;> simp [h]

/-- Whichever way a possibly empty terminal is taken, one less is in front. -/
theorem emptyRun_of_mem_splitEmpty (hr : r.Reached) (h : d ∈ splitEmpty r c) :
    d.lookahead.length ≤ c.lookahead.length ∧ emptyRun r d ≤ emptyRun r c - 1 := by
  rw [splitEmpty] at h
  cases hempty : emptyAhead r c with
  | none =>
    rw [hempty, List.mem_singleton] at h
    rw [h, emptyRun_eq_zero.2 hempty]
    exact ⟨Nat.le_refl _, Nat.zero_le _⟩
  | some u =>
    rw [hempty] at h
    obtain ⟨t, hhead, hu⟩ := Option.bind_eq_some_iff.1 hempty
    obtain ⟨ahead, hahead⟩ := List.head?_eq_some_iff.1 hhead
    have hrun : emptyRun r c = emptyRun r c.consume + 1 := by
      simp [emptyRun, Candidate.consume, hahead, hu]
    rcases List.mem_cons.1 h with rfl | h
    · refine ⟨?_, Nat.le_sub_one_of_lt (Nat.lt_of_lt_of_eq (Nat.lt_succ_self _) hrun.symm)⟩
      exact List.length_tail ▸ Nat.sub_le _ _
    · obtain rfl := List.mem_singleton.1 h
      have hnone : emptyAhead r { c with lookahead := u :: c.lookahead.tail } = none :=
        hr.nonEmptyOf_variant hu
      rw [emptyRun_eq_zero.2 hnone]
      exact ⟨by simp [hahead], Nat.zero_le _⟩

theorem foldl_max_le_iff {l : List Nat} {n : Nat} : l.foldl max 0 ≤ n ↔ ∀ k ∈ l, k ≤ n := by
  have hmax : (0 :: l).max? = some (l.foldl max 0) := rfl
  rw [List.max?_le_iff hmax, List.forall_mem_cons, and_iff_right (Nat.zero_le n)]

/-- The length of the longest lookahead. -/
def longest (cs : List Candidate) : Nat := (cs.map (·.lookahead.length)).foldl max 0

/-- The length of the longest run of possibly empty terminals in front. -/
def longestRun (r : Registry) (cs : List Candidate) : Nat := (cs.map (emptyRun r)).foldl max 0

theorem longest_le_iff {n : Nat} : longest cs ≤ n ↔ ∀ c ∈ cs, c.lookahead.length ≤ n := by
  rw [longest, foldl_max_le_iff, List.forall_mem_map]

theorem longestRun_le_iff {n : Nat} : longestRun r cs ≤ n ↔ ∀ c ∈ cs, emptyRun r c ≤ n := by
  rw [longestRun, foldl_max_le_iff, List.forall_mem_map]

theorem length_le_longest (h : c ∈ cs) : c.lookahead.length ≤ longest cs :=
  longest_le_iff.1 (Nat.le_refl _) c h

theorem emptyRun_le_longestRun (h : c ∈ cs) : emptyRun r c ≤ longestRun r cs :=
  longestRun_le_iff.1 (Nat.le_refl _) c h

theorem longestRun_le_longest : longestRun r cs ≤ longest cs :=
  longestRun_le_iff.2 fun _ hc => emptyRun_le.trans (length_le_longest hc)

theorem mem_split : d ∈ unique (cs.flatMap (splitEmpty r)) ↔ ∃ c ∈ cs, d ∈ splitEmpty r c := by
  rw [mem_unique, List.mem_flatMap]

theorem longest_split (hr : r.Reached) :
    longest (unique (cs.flatMap (splitEmpty r))) ≤ longest cs := by
  refine longest_le_iff.2 fun d hd => ?_
  obtain ⟨c, hc, hd⟩ := mem_split.1 hd
  exact (emptyRun_of_mem_splitEmpty hr hd).1.trans (length_le_longest hc)

theorem longestRun_split (hr : r.Reached) (h : ∃ d ∈ cs, (emptyAhead r d).isSome) :
    longestRun r (unique (cs.flatMap (splitEmpty r))) < longestRun r cs := by
  have hpos : 0 < longestRun r cs := by
    obtain ⟨d, hd, hsome⟩ := h
    refine Nat.lt_of_lt_of_le (Nat.pos_of_ne_zero fun hzero => ?_) (emptyRun_le_longestRun hd)
    rw [emptyRun_eq_zero.1 hzero] at hsome
    cases hsome
  have hle : longestRun r (unique (cs.flatMap (splitEmpty r))) ≤ longestRun r cs - 1 := by
    refine longestRun_le_iff.2 fun d hd => ?_
    obtain ⟨c, hc, hd⟩ := mem_split.1 hd
    have := (emptyRun_of_mem_splitEmpty hr hd).2
    exact this.trans (Nat.sub_le_sub_right (emptyRun_le_longestRun hc) 1)
  omega

/-- A read takes one terminal from all. -/
theorem longest_routed {cls : List Handle} (h : ∀ d ∈ cs, d.lookahead ≠ []) (hne : cs ≠ []) :
    longest (routed cs cls) < longest cs := by
  have hpos : 0 < longest cs := by
    obtain ⟨c, hc⟩ := List.exists_mem_of_ne_nil cs hne
    exact (List.length_pos_of_ne_nil (h c hc)).trans_le (length_le_longest hc)
  have hle : longest (routed cs cls) ≤ longest cs - 1 := by
    refine longest_le_iff.2 fun d hd => ?_
    obtain ⟨c, hc, -, rfl⟩ := mem_routed.1 hd
    rw [Candidate.consume, List.length_tail]
    exact Nat.sub_le_sub_right (length_le_longest hc) 1
  omega

/-- A bound on the decisions: the runs in front are at most as long as the lookaheads, and each read
may leave others in front. -/
def work (r : Registry) (cs : List Candidate) : Nat :=
  longest cs * (longest cs + 1) + longestRun r cs

theorem Defers.work_lt (hr : r.Reached) (h : Defers r cs ds) : work r ds < work r cs := by
  cases h with
  | @split c cs _ hempty =>
    have hlongest : longest (unique ((c :: cs).flatMap (splitEmpty r))) ≤ _ := longest_split hr
    exact Nat.add_lt_add_of_le_of_lt (Nat.mul_le_mul hlongest (Nat.add_le_add_right hlongest 1))
      (longestRun_split hr hempty)
  | @read c cs cls _ _ hne =>
    have hrun : longestRun r (routed (c :: cs) cls) ≤ _ := longestRun_le_longest
    have hlongest : longest (routed (c :: cs) cls) < _ := longest_routed hne (List.cons_ne_nil c cs)
    calc work r (routed (c :: cs) cls)
        ≤ longest (routed (c :: cs) cls) * (longest (routed (c :: cs) cls) + 2) := by
          rw [work]
          lia
      _ ≤ longest (routed (c :: cs) cls) * (longest (c :: cs) + 1) :=
          Nat.mul_le_mul_left _ (Nat.succ_le_succ hlongest)
      _ < longest (c :: cs) * (longest (c :: cs) + 1) :=
          Nat.mul_lt_mul_of_pos_right hlongest (Nat.succ_pos _)
      _ ≤ work r (c :: cs) := Nat.le_add_right _ _

/-- **No choice calls for others without end.** -/
theorem defers_wf (hr : r.Reached) : WellFounded fun ds cs => Defers r cs ds :=
  Subrelation.wf (fun h => h.work_lt hr) (InvImage.wf (work r) Nat.lt_wfRel.wf)

/-! ### The choice without a bound -/

/-- The bound on the decisions does not matter once it is large enough. -/
theorem chooseWithin_eq (hr : r.Reached) {n m : Nat} (hn : work r cs < n) (hm : work r cs < m) :
    chooseWithin r n cs = chooseWithin r m cs := by
  induction n generalizing m cs with
  | zero => exact absurd hn (Nat.not_lt_zero _)
  | succ n ih =>
    obtain ⟨m, rfl⟩ := Nat.exists_eq_succ_of_ne_zero (Nat.ne_zero_of_lt hm)
    rw [chooseWithin_succ, chooseWithin_succ]
    refine decision_congr fun ds hds => ?_
    have hlt := hds.work_lt hr
    exact ih (by omega) (by omega)

theorem choose_eq_chooseWithin (hr : r.Reached) {n : Nat} (hn : work r cs < n) :
    choose r cs = chooseWithin r n cs := by
  refine chooseWithin_eq hr ?_ hn
  have hrun : longestRun r cs ≤ longest cs := longestRun_le_longest
  show longest cs * (longest cs + 1) + longestRun r cs < (longest cs + 2) * (longest cs + 2)
  lia

/-- **A choice by those that it calls for.** -/
theorem choose_eq (hr : r.Reached) (cs : List Candidate) :
    choose r cs = decision r (choose r) cs := by
  rw [choose_eq_chooseWithin hr (Nat.lt_succ_self _), chooseWithin_succ]
  exact decision_congr fun ds hds => (choose_eq_chooseWithin hr (hds.work_lt hr)).symm

/-- What makes its decisions as the choice does is the choice. -/
theorem eq_choose_iff (hr : r.Reached) {next : List Candidate → Plan} :
    next = choose r ↔ ∀ cs, next cs = decision r next cs := by
  constructor
  · rintro rfl
    exact choose_eq hr
  · intro h
    funext cs
    induction cs using (defers_wf hr).induction with
    | _ cs ih => rw [h, choose_eq hr, decision_congr ih]

end Plan

end Mixfix
