import Mixfix.Proofs.Registry.Reached

/-!
# Calls of a registry

A registry is made by calls that intern groups and declare terminals. What each of them may do to
the registry is said once (`Registry.Does`): a call that fails leaves it as it is, and what every
call that succeeds keeps holds after any calls.

The handles that the calls give back number the symbols of each sort in the order in which they come
first. A handle and its group lead to each other from then on.

* `Registry.after`, `Registry.answers`: the registry after some calls, and what they give back.
* `Registry.performs`: what a call does.
* `Registry.eq_of_perform_eq_error`: a call that fails leaves the registry as it is.
* `Registry.reached_iff`: the registries in use are those that calls lead to.
* `Registry.after_keeps`: what every successful call keeps holds after any calls.
* `Registry.issued_faithful`: handles and groups lead to each other after any calls.
-/

namespace Mixfix.Registry

variable {r r' : Registry} {symbols : List String} {h t u : Handle}

/-- A call that may change a registry. -/
inductive Call where
  | intern (symbols : List String)
  | declareDistinct (group : List Handle)
  | declareEmptyPair (empty nonEmpty : Handle)
  | markFinal (t : Handle)

/-- A call: what it gives back, which is a handle if it interns a group, or why it fails, and the
registry that it leaves. -/
def perform : Call → EStateM Failure Registry (Option Handle)
  | .intern symbols => return some (← (internM symbols).adaptExcept .problem)
  | .declareDistinct group => do
    declareDistinctM group
    return none
  | .declareEmptyPair empty nonEmpty => do
    declareEmptyPairM empty nonEmpty
    return none
  | .markFinal t => do
    markFinalM t
    return none

/-- The registry that some calls leave. Each of them finds what the one before it left, even if that
one failed. -/
def after (r : Registry) : List Call → Registry
  | [] => r
  | call :: calls =>
    match perform call r with
    | .ok _ r => after r calls
    | .error _ r => after r calls

/-- The calls that succeed, each with what it gives back. -/
def answers (r : Registry) : List Call → List (Call × Option Handle)
  | [] => []
  | call :: calls =>
    match perform call r with
    | .ok answer r => (call, answer) :: answers r calls
    | .error _ r => answers r calls

/-- The handles that some calls give back, in order. -/
def issued (r : Registry) (calls : List Call) : List Handle := (r.answers calls).filterMap (·.2)

theorem after_append (calls more : List Call) :
    r.after (calls ++ more) = (r.after calls).after more := by
  induction calls generalizing r with
  | nil => rfl
  | cons call calls ih =>
    rw [List.cons_append, after, after]
    cases perform call r with
    | error failure left => exact ih
    | ok answer left => exact ih

/-! ### What a call does -/

/-- What a call may do: it finds or adds a group of symbols, adds a declaration, finds its pair
declared, or fails and leaves the registry as it is. -/
inductive Does (r : Registry) :
    Call → EStateM.Result Failure Registry (Option Handle) → Prop where
  | found {symbols : List String} {h : Handle} : r.find? symbols = some h →
      Does r (.intern symbols) (.ok (some h) r)
  | nonTerminal {symbol : String} (hs : isNonTerminalSymbol symbol)
      (hnew : r.find? [symbol] = none) : Does r (.intern [symbol])
        (.ok (some (.ofNonTerminalIndex r.nonTerminals.length)) (r.pushNonTerminal symbol hs hnew))
  | terminal {symbols : List String} (hs : IsTerminalGroup symbols)
      (hnew : r.find? symbols = none) : Does r (.intern symbols)
        (.ok (some (.ofTerminalIndex r.terminals.length)) (r.pushTerminal symbols hs hnew))
  | distinct {group : List Handle} : (∀ t ∈ group, t.isTerminal) →
      Does r (.declareDistinct group) (.ok none (r.pushGroup group))
  | paired {t u : Handle} : r.nonEmptyOf t = some u → Does r (.declareEmptyPair t u) (.ok none r)
  | pair {t u : Handle} : t.isTerminal → u.isTerminal → r.pairObjection t u = none →
      r.nonEmptyOf t = none →
      Does r (.declareEmptyPair t u) (.ok none { r with emptyPairs := r.emptyPairs ++ [(t, u)] })
  | final {t : Handle} : t.isTerminal → Does r (.markFinal t) (.ok none (r.pushFinal t))
  | failed {call : Call} {failure : Failure} : Does r call (.error failure r)

theorem perform_intern (r : Registry) (symbols : List String) :
    perform (.intern symbols) r = match internM symbols r with
      | .ok h left => .ok (some h) left
      | .error problem left => .error (.problem problem) left := by
  change EStateM.bind (EStateM.adaptExcept _ _) _ r = _
  rw [EStateM.bind, EStateM.adaptExcept]
  cases internM symbols r <;> rfl

theorem perform_declaration {call : Call} (op : EStateM Failure Registry Unit) (r : Registry)
    (hcall : perform call = do op; return none) :
    perform call r = match op r with
      | .ok _ left => .ok none left
      | .error failure left => .error failure left := by
  rw [hcall]
  change EStateM.bind op _ r = _
  rw [EStateM.bind]
  cases op r <;> rfl

/-- What a call does. -/
theorem performs (r : Registry) (call : Call) : Does r call (perform call r) := by
  cases call with
  | intern symbols =>
    have hi := internM_interns r symbols
    rw [perform_intern]
    generalize internM symbols r = result at hi
    cases hi with
    | found hf => exact .found hf
    | nonTerminal => exact .nonTerminal _ _
    | terminal => exact .terminal _ _
    | empty | mixed => exact .failed
  | declareDistinct group =>
    rw [perform_declaration (declareDistinctM group) r rfl, declareDistinctM, check_modify]
    cases hgroup : group.forM r.expectTerminal with
    | ok _ => exact .distinct fun t ht => expectTerminal_eq_ok_iff.1 (forM_eq_ok.1 hgroup t ht)
    | error failure => exact .failed
  | declareEmptyPair t u =>
    rw [perform_declaration (declareEmptyPairM t u) r rfl, declareEmptyPairM, check_modify]
    cases hpair : r.expectPair t u with
    | ok _ =>
      obtain ⟨ht, hu, hnone⟩ := expectPair_eq_ok_iff.1 hpair
      dsimp only
      unfold pushPair
      split
      · next hsome =>
        obtain ⟨v, hv⟩ := Option.isSome_iff_exists.1 hsome
        obtain ⟨-, -, -, hsame⟩ := pairObjection_eq_none.1 hnone
        exact .paired (hsame v hv ▸ hv)
      · next hn => exact .pair ht hu hnone (Option.not_isSome_iff_eq_none.1 hn)
    | error failure => exact .failed
  | markFinal t =>
    rw [perform_declaration (markFinalM t) r rfl, markFinalM, check_modify]
    cases ht : r.expectTerminal t with
    | ok _ => exact .final (expectTerminal_eq_ok_iff.1 ht)
    | error failure => exact .failed

theorem does_of_perform {call : Call} {result : EStateM.Result Failure Registry (Option Handle)}
    (h : perform call r = result) : Does r call result := h ▸ performs r call

/-- A call that fails leaves the registry as it is. -/
theorem eq_of_perform_eq_error {call : Call} {failure : Failure}
    (h : perform call r = .error failure r') : r' = r := by
  cases does_of_perform h
  rfl

/-- **What every successful call keeps** holds after any calls. -/
theorem after_keeps {P : Registry → List (Call × Option Handle) → Prop}
    (hstep : ∀ {r r' log call answer}, P r log → Does r call (.ok answer r') →
      P r' (log ++ [(call, answer)]))
    (hr : P r []) (calls : List Call) : P (r.after calls) (r.answers calls) := by
  suffices ∀ log, P r log → P (r.after calls) (log ++ r.answers calls) from this [] hr
  clear hr
  induction calls generalizing r with
  | nil =>
    intro log hlog
    rwa [answers, List.append_nil]
  | cons call calls ih =>
    intro log hlog
    rw [after, answers]
    cases hp : perform call r with
    | error failure left =>
      cases eq_of_perform_eq_error hp
      exact ih log hlog
    | ok answer left =>
      rw [List.append_cons]
      exact ih _ (hstep hlog (does_of_perform hp))

/-! ### Registries in use -/

theorem Reached.does (hr : r.Reached) {call : Call} {answer : Option Handle}
    (hd : Does r call (.ok answer r')) : r'.Reached := by
  cases hd with
  | found | paired => exact hr
  | nonTerminal hs hnew => exact hr.intern (intern_nonTerminal hs hnew)
  | terminal hs hnew => exact hr.intern (intern_terminal hs hnew)
  | distinct hgroup => exact hr.distinct (declareDistinct_eq_ok.2 ⟨hgroup, rfl⟩)
  | @pair t u ht hu hnone hnew =>
    have hpush : r.pushPair t u = { r with emptyPairs := r.emptyPairs ++ [(t, u)] } :=
      if_neg (Option.not_isSome_iff_eq_none.2 hnew)
    exact hr.emptyPair (declareEmptyPair_eq_ok.2 ⟨ht, hu, hnone, hpush.symm⟩)
  | final ht => exact hr.final (markFinal_eq_ok.2 ⟨ht, rfl⟩)

theorem exists_after_of_ok (call : Call) {answer : Option Handle}
    (hr : ∃ calls, after {} calls = r) (h : perform call r = .ok answer r') :
    ∃ calls, after {} calls = r' := by
  obtain ⟨calls, rfl⟩ := hr
  exact ⟨calls ++ [call], by simp only [after_append, after, h]⟩

theorem exists_after_of_declared (call : Call) {op : EStateM Failure Registry Unit}
    (hr : ∃ calls, after {} calls = r) (hcall : perform call = do op; return none)
    (h : declared op r = .ok r') : ∃ calls, after {} calls = r' := by
  have hrun : perform call r = .ok none r' := by
    rw [perform_declaration op r hcall]
    rw [declared, outcome] at h
    cases hop : op r with
    | ok _ left =>
      rw [hop] at h
      cases h
      rfl
    | error failure left =>
      rw [hop] at h
      cases h
  exact exists_after_of_ok call hr hrun

/-- The registries in use are those that calls lead to from the empty one. -/
theorem reached_iff : r.Reached ↔ ∃ calls, after {} calls = r := by
  constructor
  · intro hr
    induction hr with
    | empty => exact ⟨[], rfl⟩
    | @intern r r' symbols h _ hi ih =>
      have hrun : perform (.intern symbols) r = .ok (some h) r' := by
        rw [perform_intern, outcome_eq_ok.1 hi]
      exact exists_after_of_ok _ ih hrun
    | @distinct r r' group _ hd ih =>
      exact exists_after_of_declared (.declareDistinct group) ih rfl hd
    | @emptyPair r r' t u _ hp ih =>
      exact exists_after_of_declared (.declareEmptyPair t u) ih rfl hp
    | @final r r' t _ hf ih => exact exists_after_of_declared (.markFinal t) ih rfl hf
  · rintro ⟨calls, rfl⟩
    exact after_keeps (P := fun r _ => r.Reached) (fun hr hd => hr.does hd) .empty calls

/-! ### Handles -/

theorem Does.extends {call : Call} {answer : Option Handle}
    (hd : Does r call (.ok answer r')) : r.Extends r' := by
  cases hd with
  | found | distinct | paired | pair | final => exact ⟨List.prefix_rfl, List.prefix_rfl⟩
  | nonTerminal => exact ⟨List.prefix_append _ _, List.prefix_rfl⟩
  | terminal => exact ⟨List.prefix_rfl, List.prefix_append _ _⟩

theorem extends_after (r : Registry) (calls : List Call) : r.Extends (r.after calls) :=
  after_keeps (P := fun r' _ => r.Extends r') (fun h hd => h.trans hd.extends) (.refl r) calls

/-- The numbers that satisfy `p` count on from the first, in the order in which they come first. -/
def Counts (p : Int → Bool) (number : Nat → Int) (n : Nat) (ids : List Int) : Prop :=
  (ids.filter p).eraseDups = (List.range n).map number

section

variable {p : Int → Bool} {number : Nat → Int} {n : Nat} {ids : List Int} {id : Int}

theorem Counts.mem_iff (hc : Counts p number n ids) : id ∈ ids ∧ p id ↔ ∃ k < n, number k = id := by
  rw [← List.mem_filter, ← List.mem_eraseDups, hc, List.mem_map]
  simp only [List.mem_range]

theorem Counts.old (hc : Counts p number n ids) (hid : id ∈ ids) :
    Counts p number n (ids ++ [id]) := by
  rw [Counts, ← hc]
  cases hp : p id <;> simp [List.filter_append, List.eraseDups_append, List.removeAll, hp, hid]

theorem Counts.other (hc : Counts p number n ids) (hp : p id = false) :
    Counts p number n (ids ++ [id]) := by
  simpa [Counts, List.filter_append, hp] using hc

theorem Counts.new (hc : Counts p number n ids) (hp : p (number n))
    (hnumber : Function.Injective number) : Counts p number (n + 1) (ids ++ [number n]) := by
  have hid : number n ∉ ids := by
    intro hmem
    obtain ⟨k, hk, heq⟩ := hc.mem_iff.1 ⟨hmem, hp⟩
    exact absurd (hnumber heq) (Nat.ne_of_lt hk)
  rw [Counts, List.range_succ, List.map_append, ← hc]
  simp [List.filter_append, List.eraseDups_append, List.eraseDups_cons, List.removeAll, hp, hid]

end

/-- The handles number the symbols of a registry: those of each sort count from one on. -/
structure Numbered (r : Registry) (handles : List Handle) : Prop where
  group : ∀ group ∈ r.terminals, IsTerminalGroup group
  found : ∀ h ∈ handles, ∃ symbols, r.find? symbols = some h
  positive : Counts (0 < ·) (fun n => n + 1) r.nonTerminals.length (handles.map (·.id))
  negative : Counts (· < 0) (fun n => -(n + 1)) r.terminals.length (handles.map (·.id))

variable {handles : List Handle}

/-- A handle that is found is among those that number the symbols. -/
theorem Numbered.mem (hn : Numbered r handles) (hf : r.find? symbols = some h) : h ∈ handles := by
  have hid : h.id ∈ handles.map (·.id) := by
    cases hs : isNonTerminalGroup symbols with
    | false =>
      rw [find?_terminal hs] at hf
      obtain ⟨n, hidx, rfl⟩ := Option.map_eq_some_iff.1 hf
      have hlt := (List.getElem?_eq_some_iff.1 (getElem?_of_idxOf? hidx)).1
      exact (hn.negative.mem_iff.2 ⟨n, hlt, rfl⟩).1
    | true =>
      match symbols, hs with
      | [symbol], hs =>
        rw [find?_nonTerminal hs] at hf
        obtain ⟨n, hidx, rfl⟩ := Option.map_eq_some_iff.1 hf
        have hlt := (List.getElem?_eq_some_iff.1 (getElem?_of_idxOf? hidx)).1
        exact (hn.positive.mem_iff.2 ⟨n, hlt, rfl⟩).1
  obtain ⟨k, hk, heq⟩ := List.mem_map.1 hid
  exact Handle.ext_id heq ▸ hk

/-- A call that succeeds numbers what it adds. -/
theorem Numbered.does (hn : Numbered r handles) {call : Call} {answer : Option Handle}
    (hd : Does r call (.ok answer r')) : Numbered r' (handles ++ answer.toList) := by
  have hfound : ∀ k ∈ handles, ∃ symbols, r'.find? symbols = some k := by
    intro k hk
    obtain ⟨symbols, hf⟩ := hn.found k hk
    exact ⟨symbols, hd.extends.find? hf⟩
  cases hd with
  | distinct | paired | pair | final =>
    rw [Option.toList_none, List.append_nil]
    exact ⟨hn.group, hfound, hn.positive, hn.negative⟩
  | @found symbols h hf =>
    have hid : h.id ∈ handles.map (·.id) := List.mem_map_of_mem (hn.mem hf)
    refine ⟨hn.group, ?_, ?_, ?_⟩
    · exact List.forall_mem_append.2 ⟨hfound, List.forall_mem_singleton.2 ⟨symbols, hf⟩⟩
    · rw [Option.toList_some, List.map_append]
      exact hn.positive.old hid
    · rw [Option.toList_some, List.map_append]
      exact hn.negative.old hid
  | @nonTerminal symbol hs hf =>
    refine ⟨hn.group, ?_, ?_, ?_⟩
    · exact List.forall_mem_append.2
        ⟨hfound, List.forall_mem_singleton.2 ⟨[symbol], find?_pushNonTerminal hs hf⟩⟩
    · rw [Option.toList_some, List.map_append, pushNonTerminal_nonTerminals, List.length_append]
      exact hn.positive.new (isNonTerminal_ofNonTerminalIndex _) fun m n h => by simp at h; omega
    · rw [Option.toList_some, List.map_append]
      exact hn.negative.other (decide_eq_false (Int.not_lt.2 (Int.natCast_nonneg (_ + 1))))
  | @terminal symbols hs hf =>
    refine ⟨?_, ?_, ?_, ?_⟩
    · exact List.forall_mem_append.2 ⟨hn.group, List.forall_mem_singleton.2 hs⟩
    · exact List.forall_mem_append.2
        ⟨hfound, List.forall_mem_singleton.2 ⟨symbols, find?_pushTerminal hs hf⟩⟩
    · rw [Option.toList_some, List.map_append]
      exact hn.positive.other (isNonTerminal_ofTerminalIndex _)
    · rw [Option.toList_some, List.map_append, pushTerminal_terminals, List.length_append]
      exact hn.negative.new (decide_eq_true (Int.negSucc_lt_zero _)) fun m n h => by
        simp at h; omega

/-- The handles that calls give back number the symbols. -/
theorem numbered_after (calls : List Call) : Numbered (after {} calls) (issued {} calls) := by
  have hempty : Numbered {} [] := ⟨fun _ h => (nomatch h), fun _ h => (nomatch h), rfl, rfl⟩
  refine after_keeps (P := fun r log => Numbered r (log.filterMap (·.2))) ?_ hempty calls
  intro r r' log call answer hn hd
  have hnew : [(call, answer)].filterMap (·.2) = answer.toList := by cases answer <;> rfl
  rw [List.filterMap_append, hnew]
  exact hn.does hd

theorem symbolsOf_of_find? (hf : r.find? symbols = some h) : r.symbolsOf h = .ok symbols := by
  rw [symbolsOf, lookup?_of_find? hf]

/-- A handle is positive or negative by the sort of its group. -/
theorem sign_of_find? (hf : r.find? symbols = some h) :
    (0 < h.id ↔ isNonTerminalGroup symbols) ∧ (h.id < 0 ↔ ¬ isNonTerminalGroup symbols) := by
  have hpos : 0 < h.id ↔ isNonTerminalGroup symbols := by
    rw [← isNonTerminal_of_find? hf]
    exact decide_eq_true_iff.symm
  have hne : h.id ≠ 0 := fun hid => find?_ne_end (hf.trans (congrArg some (Handle.ext_id hid)))
  exact ⟨hpos, by rw [← hpos]; omega⟩

/-- A group that is found is a nonterminal or a terminal. -/
theorem Numbered.group_of_find? (hn : Numbered r handles) (hf : r.find? symbols = some h) :
    isNonTerminalGroup symbols ∨ IsTerminalGroup symbols := by
  cases hs : isNonTerminalGroup symbols with
  | true => exact .inl rfl
  | false =>
    rw [find?_terminal hs] at hf
    obtain ⟨n, hidx, -⟩ := Option.map_eq_some_iff.1 hf
    exact .inr (hn.group symbols (List.mem_of_getElem? (getElem?_of_idxOf? hidx)))

/-- A group is refused exactly if it is empty or has a nonterminal beside another symbol. -/
theorem Numbered.internM_eq_error (hn : Numbered r handles) (symbols : List String) :
    (∃ problem left, internM symbols r = .error problem left) ↔
      symbols = [] ∨ 2 ≤ symbols.length ∧ ∃ s ∈ symbols, isNonTerminalSymbol s := by
  have hi := internM_interns r symbols
  have hsingle : ∀ {symbol : String}, ¬ ([symbol] = [] ∨ 2 ≤ [symbol].length ∧
      ∃ s ∈ [symbol], isNonTerminalSymbol s) := by simp
  have hterminal : IsTerminalGroup symbols → ¬ (symbols = [] ∨ 2 ≤ symbols.length ∧
      ∃ s ∈ symbols, isNonTerminalSymbol s) := by
    rintro hs (hnil | ⟨-, s, hmem, hupper⟩)
    · exact hs.1 hnil
    · exact absurd (hupper.symm.trans (hs.2 s hmem)) nofun
  generalize internM symbols r = result at hi
  cases hi with
  | found hf =>
    refine ⟨fun ⟨_, _, h⟩ => (nomatch h), fun hbad => absurd hbad ?_⟩
    rcases hn.group_of_find? hf with hs | hs
    · obtain ⟨s, rfl, -⟩ := isNonTerminalGroup_iff.1 hs
      exact hsingle
    · exact hterminal hs
  | nonTerminal => exact ⟨fun ⟨_, _, h⟩ => (nomatch h), fun hbad => absurd hbad hsingle⟩
  | terminal hs => exact ⟨fun ⟨_, _, h⟩ => (nomatch h), fun hbad => absurd hbad (hterminal hs)⟩
  | empty => exact ⟨fun _ => .inl rfl, fun _ => ⟨_, _, rfl⟩⟩
  | mixed hlength hupper => exact ⟨fun _ => .inr ⟨hlength, hupper⟩, fun _ => ⟨_, _, rfl⟩⟩

/-- A group that is refused leaves the registry as it is. -/
theorem eq_of_internM_eq_error {problem : Problem} (hi : internM symbols r = .error problem r') :
    r' = r := by
  have hdoes := internM_interns r symbols
  rw [hi] at hdoes
  cases hdoes <;> rfl

/-- **Handles and groups lead to each other.** After any calls, the symbols of every handle that
was given back lead to the handle again.  A handle that is found stands for its group and was given
back; it is positive for a single symbol that names a nonterminal and negative for any other group.
The handles of each sign are given out one after the other.  No later call changes what a handle
stands for.  A group is refused exactly if it is empty or has a nonterminal beside another symbol,
and then the registry is left as it is. -/
theorem issued_faithful (calls : List Call) :
    let r := after {} calls
    let handles := issued {} calls
    (∀ h ∈ handles, ∃ symbols, r.symbolsOf h = .ok symbols ∧ r.find? symbols = some h) ∧
    (∀ symbols h, r.find? symbols = some h → r.symbolsOf h = .ok symbols ∧ h ∈ handles ∧
      (0 < h.id ↔ ∃ s, symbols = [s] ∧ isNonTerminalSymbol s) ∧
      (h.id < 0 ↔ ¬ ∃ s, symbols = [s] ∧ isNonTerminalSymbol s)) ∧
    (((handles.map (·.id)).filter (0 < ·)).eraseDups =
      (List.range r.nonTerminals.length).map fun n : Nat => (n : Int) + 1) ∧
    (((handles.map (·.id)).filter (· < 0)).eraseDups =
      (List.range r.terminals.length).map fun n : Nat => -((n : Int) + 1)) ∧
    (∀ more, ∀ h ∈ handles, (after {} (calls ++ more)).symbolsOf h = r.symbolsOf h) ∧
    ∀ symbols, ((∃ problem left, internM symbols r = .error problem left) ↔
        symbols = [] ∨ 2 ≤ symbols.length ∧ ∃ s ∈ symbols, isNonTerminalSymbol s) ∧
      ∀ problem left, internM symbols r = .error problem left → left = r := by
  intro r handles
  have hn : Numbered r handles := numbered_after calls
  refine ⟨fun h hh => ?_, fun symbols h hf => ?_, hn.positive, hn.negative, fun more h hh => ?_,
    fun symbols => ⟨hn.internM_eq_error symbols, fun problem left => eq_of_internM_eq_error⟩⟩
  · obtain ⟨symbols, hf⟩ := hn.found h hh
    exact ⟨symbols, symbolsOf_of_find? hf, hf⟩
  · rw [← isNonTerminalGroup_iff]
    exact ⟨symbolsOf_of_find? hf, hn.mem hf, sign_of_find? hf⟩
  · obtain ⟨symbols, hf⟩ := hn.found h hh
    have hmore : (after {} (calls ++ more)).find? symbols = some h := by
      rw [after_append]
      exact (extends_after r more).find? hf
    rw [symbolsOf_of_find? hmore, symbolsOf_of_find? hf]

end Mixfix.Registry
