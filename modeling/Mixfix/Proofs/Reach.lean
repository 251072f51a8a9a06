import Mathlib.Data.List.Perm.Subperm
import Mathlib.Logic.Relation
import Mixfix.Reach

/-!
# Reachability is complete

A work list that may open as many elements as there are stops with a set that is closed under the
successor function, so it has everything that is reachable, and nothing else.  It stops in whatever
order it takes its elements.

* `Pursuit`: what a work list keeps, and what it ends with.
* `Pursuit.acc`: no work list takes turns forever.
* `reach_add`: with enough turns, more of them change nothing.
* `mem_reach`: every reachable element is found.
* `mem_reach_iff`: what is found is what is reachable.
* `perm_reach`: in any order the same elements are found.
-/

namespace Mixfix

variable {α : Type} [DecidableEq α]

theorem mem_addNew {seen l : List α} {b : α} : b ∈ addNew seen l ↔ b ∈ l ∧ b ∉ seen := by
  induction l generalizing seen with
  | nil => simp [addNew]
  | cons a l ih =>
    rw [addNew]
    split
    · next ha =>
      rw [ih, List.mem_cons]
      refine ⟨fun ⟨hl, hs⟩ => ⟨.inr hl, hs⟩, fun ⟨hl, hs⟩ => ⟨hl.resolve_left ?_, hs⟩⟩
      rintro rfl
      exact hs ha
    · next ha =>
      rw [List.mem_cons, List.mem_cons, ih, List.mem_cons, not_or]
      by_cases hb : b = a
      · simp [hb, ha]
      · simp [hb]

theorem nodup_addNew (seen l : List α) : (addNew seen l).Nodup := by
  induction l generalizing seen with
  | nil => exact List.nodup_nil
  | cons a l ih =>
    rw [addNew]
    split
    · exact ih seen
    · exact List.nodup_cons.2 ⟨fun h => (mem_addNew.1 h).2 List.mem_cons_self, ih _⟩

/-- A turn of a work list, the elements seen and those pending: whichever pending element it takes,
what is new of its successors joins both. -/
inductive Turn (next : α → List α) : List α × List α → List α × List α → Prop where
  | take {seen before after : List α} {a : α} : Turn next (seen, before ++ a :: after)
      (seen ++ addNew seen (next a), before ++ after ++ addNew seen (next a))

/-- What a work list keeps: it has seen elements of a closed row, each once, and those that are not
pending have been opened. -/
structure Pursuit (next : α → List α) (all seen pending : List α) : Prop where
  closed : ∀ a ∈ all, next a ⊆ all
  nodup : seen.Nodup
  within : seen ⊆ all
  found : pending ⊆ seen
  opened : ∀ a ∈ seen, a ∈ pending ∨ next a ⊆ seen

namespace Pursuit

variable {next : α → List α} {all seen pending : List α} {a : α}

omit [DecidableEq α] in
theorem length_le (h : Pursuit next all seen pending) : seen.length ≤ all.length :=
  (h.nodup.subperm h.within).length_le

theorem step (h : Pursuit next all seen (a :: pending)) :
    Pursuit next all (seen ++ addNew seen (next a)) (addNew seen (next a) ++ pending) where
  closed := h.closed
  nodup := List.nodup_append.2 ⟨h.nodup, nodup_addNew seen _, fun b hb c hc heq =>
    (mem_addNew.1 hc).2 (heq ▸ hb)⟩
  within := by
    intro b hb
    rcases List.mem_append.1 hb with hb | hb
    · exact h.within hb
    · exact h.closed a (h.within (h.found List.mem_cons_self)) (mem_addNew.1 hb).1
  found := by
    intro b hb
    rcases List.mem_append.1 hb with hb | hb
    · exact List.mem_append_right _ hb
    · exact List.mem_append_left _ (h.found (List.mem_cons_of_mem _ hb))
  opened := by
    intro b hb
    rcases List.mem_append.1 hb with hb | hb
    · rcases h.opened b hb with hp | hn
      · rcases List.mem_cons.1 hp with rfl | hp
        · refine .inr fun c hc => List.mem_append.2 ?_
          by_cases hcs : c ∈ seen
          · exact .inl hcs
          · exact .inr (mem_addNew.2 ⟨hc, hcs⟩)
        · exact .inl (List.mem_append_right _ hp)
      · exact .inr fun c hc => List.mem_append_left _ (hn hc)
    · exact .inl (List.mem_append_left _ hb)

omit [DecidableEq α] in
/-- At the start, nothing that was seen has been opened. -/
theorem init (hall : ∀ a ∈ all, next a ⊆ all) (hnodup : seen.Nodup) (hseen : seen ⊆ all) :
    Pursuit next all seen seen :=
  ⟨hall, hnodup, hseen, List.Subset.refl _, fun _ h => .inl h⟩

omit [DecidableEq α] in
theorem one (hall : ∀ a ∈ all, next a ⊆ all) (ha : a ∈ all) : Pursuit next all [a] [a] :=
  .init hall (List.nodup_cons.2 ⟨List.not_mem_nil, List.nodup_nil⟩)
    (List.cons_subset.2 ⟨ha, List.nil_subset _⟩)

omit [DecidableEq α] in
/-- The order of the pending elements does not matter. -/
theorem of_perm {pending' : List α} (h : Pursuit next all seen pending)
    (hp : pending.Perm pending') : Pursuit next all seen pending' where
  closed := h.closed
  nodup := h.nodup
  within := h.within
  found := fun _ hb => h.found (hp.mem_iff.2 hb)
  opened := fun b hb => (h.opened b hb).imp_left hp.mem_iff.1

/-- With turns for every element that is not opened, the work list ends closed. -/
theorem ends {bound : Nat} (h : Pursuit next all seen pending)
    (hb : all.length + pending.length ≤ seen.length + bound) :
    seen ⊆ reachFrom next bound seen pending ∧
      ∀ b ∈ reachFrom next bound seen pending,
        next b ⊆ reachFrom next bound seen pending := by
  have hdone : pending = [] → ∀ b ∈ seen, next b ⊆ seen := by
    rintro rfl b hb
    exact (h.opened b hb).resolve_left List.not_mem_nil
  induction bound generalizing seen pending with
  | zero =>
    have hlen := h.length_le
    rw [reachFrom]
    exact ⟨List.Subset.refl _, hdone (List.length_eq_zero_iff.1 (by omega))⟩
  | succ bound ih =>
    cases pending with
    | nil =>
      rw [reachFrom]
      exact ⟨List.Subset.refl _, hdone rfl⟩
    | cons a pending =>
      rw [reachFrom]
      obtain ⟨hseen, hclosed⟩ := ih h.step
        (by simp only [List.length_append, List.length_cons] at hb ⊢; omega)
        fun hnil b hb => (h.step.opened b hb).resolve_left (hnil ▸ List.not_mem_nil)
      exact ⟨fun b hb => hseen (List.mem_append_left _ hb), hclosed⟩

/-- Then more turns change nothing. -/
theorem reachFrom_add {bound : Nat} (h : Pursuit next all seen pending)
    (hb : all.length + pending.length ≤ seen.length + bound) (more : Nat) :
    reachFrom next (bound + more) seen pending = reachFrom next bound seen pending := by
  induction bound generalizing seen pending with
  | zero =>
    have hlen := h.length_le
    obtain rfl := List.length_eq_zero_iff.1 (show pending.length = 0 by omega)
    cases more with
    | zero => rfl
    | succ more => rfl
  | succ bound ih =>
    cases pending with
    | nil => rw [Nat.succ_add, reachFrom, reachFrom]
    | cons a pending =>
      rw [Nat.succ_add, reachFrom, reachFrom]
      exact ih h.step (by simp only [List.length_append, List.length_cons] at hb ⊢; omega)

/-- Each element is found once. -/
theorem nodup_reachFrom {bound : Nat} (h : Pursuit next all seen pending) :
    (reachFrom next bound seen pending).Nodup := by
  induction bound generalizing seen pending with
  | zero => exact h.nodup
  | succ bound ih =>
    cases pending with
    | nil => exact h.nodup
    | cons a pending => exact ih h.step

/-! ### In any order -/

theorem turn {work work' : List α × List α} (hturn : Turn next work work')
    (h : Pursuit next all work.1 work.2) : Pursuit next all work'.1 work'.2 := by
  obtain ⟨⟩ := hturn
  exact (h.of_perm List.perm_middle).step.of_perm List.perm_append_comm

theorem turns {work work' : List α × List α} (hturns : Relation.ReflTransGen (Turn next) work work')
    (h : Pursuit next all work.1 work.2) :
    work.1 ⊆ work'.1 ∧ Pursuit next all work'.1 work'.2 := by
  induction hturns with
  | refl => exact ⟨List.Subset.refl _, h⟩
  | tail _ hturn ih =>
    refine ⟨List.Subset.trans ih.1 ?_, turn hturn ih.2⟩
    obtain ⟨⟩ := hturn
    exact List.subset_append_left _ _

/-- No work list takes turns forever: each turn either finds elements that were not seen, of which
there are only so many, or leaves fewer pending. -/
theorem acc {work : List α × List α} (h : Pursuit next all work.1 work.2) :
    Acc (fun work' work => Turn next work work') work := by
  generalize hn : all.length + work.2.length - work.1.length = n
  induction n using Nat.strongRecOn generalizing work with
  | ind n ih =>
    refine ⟨_, fun work' hturn => ih _ ?_ (turn hturn h) rfl⟩
    have hlen := (turn hturn h).length_le
    obtain ⟨⟩ := hturn
    simp only [List.length_append, List.length_cons] at hn hlen ⊢
    omega

end Pursuit

omit [DecidableEq α] in
/-- A closed row with the start has all that can be reached. -/
theorem mem_of_reachable {next : α → List α} {l : List α} (hl : ∀ a ∈ l, next a ⊆ l) {a b : α}
    (ha : a ∈ l) (h : Relation.ReflTransGen (fun x y => y ∈ next x) a b) : b ∈ l := by
  induction h with
  | refl => exact ha
  | tail _ hstep ih => exact hl _ ih hstep

/-- Every reachable element is found, if there are no more elements than turns. -/
theorem mem_reach {next : α → List α} {all : List α} (hall : ∀ a ∈ all, next a ⊆ all) {bound : Nat}
    (hb : all.length ≤ bound) {a b : α} (ha : a ∈ all)
    (h : Relation.ReflTransGen (fun x y => y ∈ next x) a b) : b ∈ reach next bound a := by
  obtain ⟨hseen, hclosed⟩ := (Pursuit.one hall ha).ends
    (show all.length + 1 ≤ 1 + bound by omega)
  exact mem_of_reachable hclosed (hseen List.mem_cons_self) h

/-- If there are no more elements than turns, more turns change nothing. -/
theorem reach_add {next : α → List α} {all : List α} (hall : ∀ a ∈ all, next a ⊆ all) {bound : Nat}
    (hb : all.length ≤ bound) {a : α} (ha : a ∈ all) (more : Nat) :
    reach next (bound + more) a = reach next bound a :=
  (Pursuit.one hall ha).reachFrom_add (show all.length + 1 ≤ 1 + bound by omega) more

/-- Only what can be reached from the elements seen or pending is found. -/
theorem reachable_of_mem_reachFrom {next : α → List α} {a b : α} {bound : Nat}
    {seen pending : List α}
    (hseen : ∀ x ∈ seen, Relation.ReflTransGen (fun x y => y ∈ next x) a x)
    (hpending : ∀ x ∈ pending, Relation.ReflTransGen (fun x y => y ∈ next x) a x)
    (hb : b ∈ reachFrom next bound seen pending) :
    Relation.ReflTransGen (fun x y => y ∈ next x) a b := by
  induction bound generalizing seen pending with
  | zero => exact hseen b hb
  | succ bound ih =>
    cases pending with
    | nil => exact hseen b hb
    | cons x pending =>
      obtain ⟨hx, hpending⟩ := List.forall_mem_cons.1 hpending
      have hfound : ∀ y ∈ addNew seen (next x), Relation.ReflTransGen (fun x y => y ∈ next x) a y :=
        fun y hy => hx.tail (mem_addNew.1 hy).1
      exact ih (List.forall_mem_append.2 ⟨hseen, hfound⟩)
        (List.forall_mem_append.2 ⟨hfound, hpending⟩) hb

/-- What is found is what can be reached. -/
theorem mem_reach_iff {next : α → List α} {all : List α} (hall : ∀ a ∈ all, next a ⊆ all)
    {bound : Nat} (hb : all.length ≤ bound) {a b : α} (ha : a ∈ all) :
    b ∈ reach next bound a ↔ Relation.ReflTransGen (fun x y => y ∈ next x) a b := by
  refine ⟨fun h => reachable_of_mem_reachFrom ?_ ?_ h, mem_reach hall hb ha⟩
  all_goals
    intro x hx
    rw [List.mem_singleton.1 hx]

/-- A work list that takes its elements in any order, and finds the successors of each in any order,
ends with the same elements, once each. -/
theorem perm_reach {next next' : α → List α} (hnext : ∀ b, (next' b).Perm (next b)) {all : List α}
    (hall : ∀ a ∈ all, next a ⊆ all) {bound : Nat} (hb : all.length ≤ bound) {a : α} (ha : a ∈ all)
    {found : List α} (hturns : Relation.ReflTransGen (Turn next') ([a], [a]) (found, [])) :
    found.Perm (reach next bound a) := by
  have hstart := Pursuit.one hall ha
  obtain ⟨hseen, hclosed⟩ := hstart.ends (show all.length + 1 ≤ 1 + bound by omega)
  -- What `reach` finds is closed, so the other work list stays within it.
  have hstart' : Pursuit next' (reach next bound a) [a] [a] :=
    .one (fun b hbr => List.Subset.trans (hnext b).subset (hclosed b hbr))
      (hseen List.mem_cons_self)
  obtain ⟨hcontains, hend⟩ := Pursuit.turns hturns hstart'
  refine (List.perm_ext_iff_of_nodup hend.nodup hstart.nodup_reachFrom).2 fun b =>
    ⟨fun hbf => hend.within hbf, fun hbr => ?_⟩
  -- It ends closed as well, and so with all that can be reached.
  have hend' : ∀ c ∈ found, next c ⊆ found := fun c hc =>
    List.Subset.trans (hnext c).symm.subset
      ((hend.opened c hc).resolve_left List.not_mem_nil)
  exact mem_of_reachable hend' (hcontains List.mem_cons_self) ((mem_reach_iff hall hb ha).1 hbr)

end Mixfix
