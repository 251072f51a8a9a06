import Mixfix.Proofs.Registry.Calls

/-!
# What is declared of terminals

The groups and the pairs of a registry are those that calls declared with success, and a call is
refused as soon as its pair would break a rule that the pairs keep to. So the rules hold after any
calls, whatever order they come in and whichever of them fail.

* `Registry.Lawful`: the rules that pairs of a possibly empty terminal and its variant keep to.
* `Registry.Declared.objects_iff`: nothing objects to a pair exactly if the rules allow it.
* `Registry.declared_exact`: what is declared after any calls, and when a pair is refused.
-/

namespace Mixfix.Registry

variable {r r' : Registry} {t u x y : Handle} {log : List (Call × Option Handle)}

/-- The rules for pairs of a possibly empty terminal and its non-empty variant. -/
structure Lawful (Pair : Handle → Handle → Prop) : Prop where
  /-- No terminal is both possibly empty and a variant, be it its own. -/
  unchained : ∀ {s t u}, Pair s t → ¬ Pair t u
  /-- The end of input takes part in no pair. -/
  ends : ∀ {t u}, Pair t u → t ≠ .endOfInput ∧ u ≠ .endOfInput
  /-- A possibly empty terminal has one variant. -/
  unique : ∀ {t u v}, Pair t u → Pair t v → u = v

theorem isEnd_eq_false : t.isEnd = false ↔ t ≠ .endOfInput := by
  rw [Handle.isEnd, decide_eq_false_iff_not]
  exact not_congr ⟨Handle.ext_id, congrArg Handle.id⟩

theorem nonEmptyOf_add (h : r.nonEmptyOf t = none) :
    ({ r with emptyPairs := r.emptyPairs ++ [(t, u)] } : Registry).nonEmptyOf x = some y ↔
      r.nonEmptyOf x = some y ∨ x = t ∧ y = u := by
  rw [nonEmptyOf, List.lookup_append, ← nonEmptyOf, Option.or_eq_some_iff]
  by_cases hx : x = t
  · subst hx
    simp [h, eq_comm]
  · simp [List.lookup_cons, hx, beq_false_of_ne hx]

/-- What is declared in a registry is what the calls declared with success, and the pairs keep to
the rules. -/
structure Declared (r : Registry) (log : List (Call × Option Handle)) : Prop where
  groups : ∀ group, group ∈ r.groups ↔ (.declareDistinct group, none) ∈ log
  pairs : ∀ t u, r.nonEmptyOf t = some u ↔ (.declareEmptyPair t u, none) ∈ log
  found : ∀ pair ∈ r.emptyPairs, r.nonEmptyOf pair.1 = some pair.2
  lawful : Lawful fun t u => r.nonEmptyOf t = some u

/-- Nothing objects to a pair exactly if the rules allow it beside the others. -/
theorem Declared.objects_iff (hd : Declared r log) : r.pairObjection t u = none ↔
    Lawful fun x y => r.nonEmptyOf x = some y ∨ x = t ∧ y = u := by
  have hvariant : (∀ pair ∈ r.emptyPairs, pair.2 ≠ t) ↔ ∀ s, r.nonEmptyOf s ≠ some t := by
    constructor
    · exact fun h s hs => h _ (mem_of_lookup_eq_some hs) rfl
    · rintro h ⟨s, v⟩ hpair rfl
      exact h s (hd.found _ hpair)
  rw [pairObjection_eq_none, isEnd_eq_false, isEnd_eq_false, hvariant]
  constructor
  · rintro ⟨hends, hne, ⟨hnone, hnot⟩, hsame⟩
    constructor
    · rintro s v w (hs | ⟨rfl, rfl⟩) (hv | ⟨rfl, rfl⟩)
      · exact hd.lawful.unchained hs hv
      · exact hnot s hs
      · exact absurd (hnone.symm.trans hv) nofun
      · exact hne rfl
    · rintro s v (hs | ⟨rfl, rfl⟩)
      · exact hd.lawful.ends hs
      · exact hends
    · rintro s v w (hv | ⟨rfl, rfl⟩) (hw | ⟨hst, rfl⟩)
      · exact hd.lawful.unique hv hw
      · exact hsame v (hst ▸ hv)
      · exact (hsame w hw).symm
      · rfl
  · intro hl
    have hnew : r.nonEmptyOf t = some u ∨ t = t ∧ u = u := .inr ⟨rfl, rfl⟩
    refine ⟨hl.ends hnew, ?_, ⟨?_, fun s hs => hl.unchained (.inl hs) hnew⟩, fun v hv => ?_⟩
    · rintro rfl
      exact hl.unchained hnew hnew
    · exact Option.eq_none_iff_forall_ne_some.2 fun v hv => hl.unchained hnew (.inl hv)
    · exact hl.unique (.inl hv) hnew

/-- A call that succeeds declares what it says, and keeps to the rules. -/
theorem Declared.does (hd : Declared r log) {call : Call} {answer : Option Handle}
    (hdoes : Does r call (.ok answer r')) : Declared r' (log ++ [(call, answer)]) := by
  cases hdoes with
  | found | nonTerminal | terminal | final =>
    exact ⟨fun group => (hd.groups group).trans (by simp),
      fun t u => (hd.pairs t u).trans (by simp), hd.found, hd.lawful⟩
  | distinct =>
    exact ⟨fun group => by simp [pushGroup, hd.groups], fun t u => (hd.pairs t u).trans (by simp),
      hd.found, hd.lawful⟩
  | @paired t u hpair =>
    refine ⟨fun group => (hd.groups group).trans (by simp), fun x y => ?_, hd.found, hd.lawful⟩
    rw [hd.pairs, List.mem_append, List.mem_singleton]
    refine ⟨.inl, fun h => h.elim id fun h => ?_⟩
    cases h
    exact (hd.pairs t u).1 hpair
  | @pair t u _ _ hobject hnone =>
    refine ⟨fun group => (hd.groups group).trans (by simp), fun x y => ?_, fun pair hpair => ?_, ?_⟩
    · rw [nonEmptyOf_add hnone, hd.pairs]
      simp
    · rw [nonEmptyOf_add hnone]
      rcases List.mem_append.1 hpair with hpair | hpair
      · exact .inl (hd.found pair hpair)
      · rw [List.mem_singleton.1 hpair]
        exact .inr ⟨rfl, rfl⟩
    · simp only [nonEmptyOf_add hnone]
      exact hd.objects_iff.1 hobject

theorem declared_after (calls : List Call) : Declared (after {} calls) (answers {} calls) := by
  have hempty : Declared {} [] :=
    ⟨fun _ => by simp, fun _ _ => by simp [nonEmptyOf], fun _ h => (nomatch h),
      ⟨fun h => (nomatch h), fun h => (nomatch h), fun h => (nomatch h)⟩⟩
  exact after_keeps (P := Declared) (fun hd hdoes => hd.does hdoes) hempty calls

/-- A variant stays what it is. -/
theorem nonEmptyOf_after (h : r.nonEmptyOf t = some u) (calls : List Call) :
    (r.after calls).nonEmptyOf t = some u := by
  refine after_keeps (P := fun r _ => r.nonEmptyOf t = some u) ?_ h calls
  intro r r' log call answer h hdoes
  cases hdoes with
  | found | nonTerminal | terminal | distinct | paired | final => exact h
  | pair _ _ _ hnone => exact (nonEmptyOf_add hnone).2 (.inl h)

/-- Two terminals have a group in common exactly if a place of one is a place of the other. -/
theorem any_memberships : (r.memberships t).any (r.memberships u).contains ↔
    ∃ group ∈ r.groups, t ∈ group ∧ u ∈ group := by
  simp only [List.any_eq_true, List.contains_iff_mem, r.memberships_eq, mem_places]
  constructor
  · rintro ⟨i, ⟨group, hi, ht⟩, group', hi', hu⟩
    cases hi.symm.trans hi'
    exact ⟨group, List.mem_of_getElem? hi, ht, hu⟩
  · rintro ⟨group, hgroup, ht, hu⟩
    obtain ⟨i, hi⟩ := List.getElem?_of_mem hgroup
    exact ⟨i, ⟨group, hi, ht⟩, group, hi, hu⟩

/-- Two terminals are distinct if they differ and one is the end of input or both are in a group. -/
theorem distinct_iff : r.distinct t u ↔
    t ≠ u ∧ (t = .endOfInput ∨ u = .endOfInput ∨ ∃ group ∈ r.groups, t ∈ group ∧ u ∈ group) := by
  have hend : ∀ {t : Handle}, t.isEnd ↔ t = .endOfInput := by
    intro t
    rw [← not_iff_not, Bool.not_eq_true, isEnd_eq_false]
  unfold distinct
  split_ifs with heq hends
  · simp [heq]
  · simp only [Bool.or_eq_true, hend] at hends
    simp only [true_iff]
    exact ⟨heq, hends.imp id .inl⟩
  · simp only [Bool.or_eq_true, hend, not_or] at hends
    rw [any_memberships]
    simp [heq, hends]

theorem distinct_symm (h : r.distinct t u) : r.distinct u t := by
  obtain ⟨hne, h⟩ := distinct_iff.1 h
  refine distinct_iff.2 ⟨hne.symm, ?_⟩
  rcases h with h | h | ⟨group, hgroup, ht, hu⟩
  · exact .inr (.inl h)
  · exact .inl h
  · exact .inr (.inr ⟨group, hgroup, hu, ht⟩)

/-! ### Refusals -/

theorem Numbered.exists_name {handles : List Handle} (hn : Numbered r handles)
    (ht : t = .endOfInput ∨ t ∈ handles) : ∃ name, r.name t = .ok name := by
  unfold name
  split
  · exact ⟨_, rfl⟩
  · next hend =>
    obtain ⟨symbols, hf⟩ := hn.found t (ht.resolve_left (isEnd_eq_false.1 (by simpa using hend)))
    rw [symbolsOf_of_find? hf]
    exact ⟨_, rfl⟩

section

variable (ht : ∃ name, r.name t = .ok name) (hu : ∃ name, r.name u = .ok name)

include ht in
theorem expectTerminal_eq_error (hn : ¬ t.isTerminal) :
    ∃ problem, r.expectTerminal t = .error (.problem problem) := by
  obtain ⟨name, hname⟩ := ht
  refine ⟨.notATerminal name, ?_⟩
  rw [expectTerminal, if_neg hn, hname]
  rfl

include ht hu in
/-- A pair of terminals that have names is refused for what is wrong with it, and for nothing
else. -/
theorem expectPair_eq_error (hbad : ¬ (t.isTerminal ∧ u.isTerminal ∧ r.pairObjection t u = none)) :
    ∃ problem, r.expectPair t u = .error (.problem problem) := by
  unfold expectPair
  by_cases htt : t.isTerminal
  swap
  · obtain ⟨problem, hp⟩ := expectTerminal_eq_error ht htt
    rw [hp]
    exact ⟨problem, rfl⟩
  by_cases hut : u.isTerminal
  swap
  · obtain ⟨problem, hp⟩ := expectTerminal_eq_error hu hut
    rw [expectTerminal_eq_ok_iff.2 htt, hp]
    exact ⟨problem, rfl⟩
  rw [expectTerminal_eq_ok_iff.2 htt, expectTerminal_eq_ok_iff.2 hut]
  cases hobject : r.pairObjection t u with
  | none => exact absurd ⟨htt, hut, hobject⟩ hbad
  | some reason =>
    obtain ⟨name, hname⟩ := ht
    obtain ⟨name', hname'⟩ := hu
    refine ⟨.invalidEmptyPair name name' reason, ?_⟩
    simp only [hname, hname']
    rfl

include ht hu in
/-- A pair of terminals that have names is declared if nothing objects to it, and refused
otherwise. -/
theorem declareEmptyPairM_cases :
    (t.isTerminal ∧ u.isTerminal ∧ r.pairObjection t u = none) ∧
        declareEmptyPairM t u r = .ok () (r.pushPair t u) ∨
      ¬ (t.isTerminal ∧ u.isTerminal ∧ r.pairObjection t u = none) ∧
        ∃ problem, declareEmptyPairM t u r = .error (.problem problem) r := by
  rw [declareEmptyPairM, check_modify]
  by_cases hgood : t.isTerminal ∧ u.isTerminal ∧ r.pairObjection t u = none
  · rw [expectPair_eq_ok_iff.2 hgood]
    exact .inl ⟨hgood, rfl⟩
  · obtain ⟨problem, hp⟩ := expectPair_eq_error ht hu hgood
    rw [hp]
    exact .inr ⟨hgood, problem, rfl⟩

end

/-- **What is declared of terminals.** After any calls, two terminals are distinct exactly if they
differ and one is the end of input or a call declared a group with both.  The pairs are those that
were declared, and keep to the rules: no terminal is both possibly empty and a variant, the end of
input is in no pair, and a possibly empty terminal keeps its variant for good.  A pair of known
handles is refused exactly if one is no terminal or the rules forbid the pair beside the others.  A
call that fails leaves the registry as it is. -/
theorem declared_exact (calls : List Call) :
    let r := after {} calls
    let known := fun h => h = .endOfInput ∨ h ∈ issued {} calls
    (∀ t u, r.distinct t u ↔ t ≠ u ∧ (t = .endOfInput ∨ u = .endOfInput ∨
      ∃ group, (.declareDistinct group, none) ∈ answers {} calls ∧ t ∈ group ∧ u ∈ group)) ∧
    (∀ t u, r.distinct t u = r.distinct u t) ∧ (∀ t, r.distinct t t = false) ∧
    (∀ t u, r.nonEmptyOf t = some u ↔ (.declareEmptyPair t u, none) ∈ answers {} calls) ∧
    Lawful (fun t u => r.nonEmptyOf t = some u) ∧
    (∀ more t u, r.nonEmptyOf t = some u → (after {} (calls ++ more)).nonEmptyOf t = some u) ∧
    (∀ t u, known t → known u →
      ((∃ problem left, declareEmptyPairM t u r = .error (.problem problem) left) ↔
        ¬ t.isTerminal ∨ ¬ u.isTerminal ∨
          ¬ Lawful fun x y => r.nonEmptyOf x = some y ∨ x = t ∧ y = u) ∧
      ∀ fault left, declareEmptyPairM t u r ≠ .error (.fault fault) left) ∧
    ∀ call failure left, perform call r = .error failure left → left = r := by
  intro r known
  have hd : Declared r (answers {} calls) := declared_after calls
  have hn : Numbered r (issued {} calls) := numbered_after calls
  have hdistinct : ∀ t u, r.distinct t u ↔ t ≠ u ∧ (t = .endOfInput ∨ u = .endOfInput ∨
      ∃ group, (.declareDistinct group, none) ∈ answers {} calls ∧ t ∈ group ∧ u ∈ group) := by
    intro t u
    simp only [distinct_iff, hd.groups]
  refine ⟨hdistinct, fun t u => ?_, fun t => if_pos rfl, hd.pairs, hd.lawful, fun more t u h => ?_,
    fun t u ht hu => ?_, fun call failure left => eq_of_perform_eq_error⟩
  · exact Bool.eq_iff_iff.2 ⟨distinct_symm, distinct_symm⟩
  · rw [after_append]
    exact nonEmptyOf_after h more
  · rw [← hd.objects_iff, ← not_and_or, ← not_and_or]
    rcases declareEmptyPairM_cases (hn.exists_name ht) (hn.exists_name hu) with
      ⟨hgood, hok⟩ | ⟨hrefused, problem, herror⟩
    · rw [hok]
      refine ⟨⟨?_, fun h => absurd hgood h⟩, ?_⟩
      · rintro ⟨_, _, h⟩
        cases h
      · rintro _ _ h
        cases h
    · rw [herror]
      refine ⟨⟨fun _ => hrefused, fun _ => ⟨problem, r, rfl⟩⟩, ?_⟩
      rintro _ _ h
      cases h

end Mixfix.Registry
