import Mixfix.Registry

/-!
# Handles and what they stand for

Interning adds to a registry and changes nothing in it, so a handle keeps its meaning; a group of
symbols and its handle determine each other.

* `Registry.internM_interns`, `Registry.intern_spec`: interning finds a group, adds it or refuses
  it.
* `Registry.Extends.find?`: a handle found once is found ever after.
* `Registry.lookup?_of_find?`: the handle of a group stands for the group.
* `Registry.issues_of_intern`: interning declares nothing of the terminals.
-/

namespace Mixfix.Registry

variable {r r' r'' : Registry}

/-- The second registry has all symbols of the first, in the same order, and maybe more. -/
structure Extends (r r' : Registry) : Prop where
  nonTerminals : r.nonTerminals <+: r'.nonTerminals
  terminals : r.terminals <+: r'.terminals

theorem Extends.refl (r : Registry) : r.Extends r := ⟨List.prefix_rfl, List.prefix_rfl⟩

theorem Extends.trans (h : r.Extends r') (h' : r'.Extends r'') : r.Extends r'' :=
  ⟨h.nonTerminals.trans h'.nonTerminals, h.terminals.trans h'.terminals⟩

theorem find?_nonTerminal {symbol : String} (h : isNonTerminalSymbol symbol) :
    r.find? [symbol] = (r.nonTerminals.idxOf? symbol).map Handle.ofNonTerminalIndex := by
  rw [find?, r.handles_eq, indexed_nonTerminal h]

theorem find?_terminal {symbols : List String} (h : isNonTerminalGroup symbols = false) :
    r.find? symbols = (r.terminals.idxOf? symbols).map Handle.ofTerminalIndex := by
  rw [find?, r.handles_eq, indexed_terminal h]

theorem lookup?_ofNonTerminalIndex (n : Nat) :
    r.lookup? (.ofNonTerminalIndex n) = r.nonTerminals[n]?.map ([·]) := rfl

theorem lookup?_ofTerminalIndex (n : Nat) :
    r.lookup? (.ofTerminalIndex n) = r.terminals[n]? := rfl

theorem isNonTerminal_ofNonTerminalIndex (n : Nat) :
    (Handle.ofNonTerminalIndex n).isNonTerminal = true :=
  decide_eq_true (Int.ofNat_succ_pos n)

theorem isNonTerminal_ofTerminalIndex (n : Nat) :
    (Handle.ofTerminalIndex n).isNonTerminal = false :=
  decide_eq_false (by show ¬ (0 : Int) < -(n + 1); omega)

theorem idxOf?_mono {α : Type} [BEq α] [LawfulBEq α] {l l' : List α} (h : l <+: l') {a : α}
    {n : Nat} (hn : l.idxOf? a = some n) : l'.idxOf? a = some n := by
  obtain ⟨more, rfl⟩ := h
  rw [List.idxOf?, List.findIdx?_append, ← List.idxOf?, hn]
  rfl

/-- A group and its handle are of one sort. -/
theorem isNonTerminal_of_find? {symbols : List String} {h : Handle}
    (hf : r.find? symbols = some h) : h.isNonTerminal = isNonTerminalGroup symbols := by
  cases hs : isNonTerminalGroup symbols with
  | false =>
    rw [find?_terminal hs] at hf
    obtain ⟨n, -, rfl⟩ := Option.map_eq_some_iff.1 hf
    exact isNonTerminal_ofTerminalIndex n
  | true =>
    match symbols, hs with
    | [symbol], hs =>
      rw [find?_nonTerminal hs] at hf
      obtain ⟨n, -, rfl⟩ := Option.map_eq_some_iff.1 hf
      exact isNonTerminal_ofNonTerminalIndex n

/-- No group has the handle of the end of input. -/
theorem find?_ne_end {symbols : List String} : r.find? symbols ≠ some .endOfInput := by
  intro hf
  cases hs : isNonTerminalGroup symbols with
  | false =>
    rw [find?_terminal hs] at hf
    obtain ⟨n, -, hn⟩ := Option.map_eq_some_iff.1 hf
    have : -((n : Int) + 1) = 0 := congrArg Handle.id hn
    omega
  | true =>
    have hn := isNonTerminal_of_find? hf
    rw [hs] at hn
    cases hn

/-- The handle of a group stands for the group. -/
theorem lookup?_of_find? {symbols : List String} {h : Handle} (hf : r.find? symbols = some h) :
    r.lookup? h = some symbols := by
  cases hs : isNonTerminalGroup symbols with
  | false =>
    rw [find?_terminal hs] at hf
    obtain ⟨n, hn, rfl⟩ := Option.map_eq_some_iff.1 hf
    rw [lookup?_ofTerminalIndex, getElem?_of_idxOf? hn]
  | true =>
    match symbols, hs with
    | [symbol], hs =>
      rw [find?_nonTerminal hs] at hf
      obtain ⟨n, hn, rfl⟩ := Option.map_eq_some_iff.1 hf
      rw [lookup?_ofNonTerminalIndex, getElem?_of_idxOf? hn]
      rfl

/-- Different groups have different handles. -/
theorem find?_inj {xs ys : List String} {h : Handle} (hx : r.find? xs = some h)
    (hy : r.find? ys = some h) : xs = ys :=
  Option.some.inj ((lookup?_of_find? hx).symm.trans (lookup?_of_find? hy))

/-- A handle found once is found ever after. -/
theorem Extends.find? (he : r.Extends r') {symbols : List String} {h : Handle}
    (hf : r.find? symbols = some h) : r'.find? symbols = some h := by
  cases hs : isNonTerminalGroup symbols with
  | false =>
    rw [find?_terminal hs] at hf ⊢
    obtain ⟨n, hn, rfl⟩ := Option.map_eq_some_iff.1 hf
    rw [idxOf?_mono he.terminals hn]
    rfl
  | true =>
    match symbols, hs with
    | [symbol], hs =>
      rw [find?_nonTerminal hs] at hf ⊢
      obtain ⟨n, hn, rfl⟩ := Option.map_eq_some_iff.1 hf
      rw [idxOf?_mono he.nonTerminals hn]
      rfl

/-! ### Interning -/

@[simp] theorem pushNonTerminal_nonTerminals {symbol : String} (hs : isNonTerminalSymbol symbol)
    (hnew : r.find? [symbol] = none) :
    (r.pushNonTerminal symbol hs hnew).nonTerminals = r.nonTerminals ++ [symbol] := rfl

@[simp] theorem pushTerminal_terminals {group : List String} (hs : IsTerminalGroup group)
    (hnew : r.find? group = none) :
    (r.pushTerminal group hs hnew).terminals = r.terminals ++ [group] := rfl

/-- A group that was added is found. -/
theorem find?_pushNonTerminal {symbol : String} (hs : isNonTerminalSymbol symbol)
    (hnew : r.find? [symbol] = none) : (r.pushNonTerminal symbol hs hnew).find? [symbol] =
      some (.ofNonTerminalIndex r.nonTerminals.length) := if_pos rfl

theorem find?_pushTerminal {group : List String} (hs : IsTerminalGroup group)
    (hnew : r.find? group = none) : (r.pushTerminal group hs hnew).find? group =
      some (.ofTerminalIndex r.terminals.length) := if_pos rfl

/-- What interning a group does: it finds the group, adds it to the lists and the map of a registry,
or refuses it and leaves the registry as it is. -/
inductive Interns (r : Registry) :
    List String → EStateM.Result Problem Registry Handle → Prop where
  | found {symbols : List String} {h : Handle} : r.find? symbols = some h →
      Interns r symbols (.ok h r)
  | nonTerminal {symbol : String} (hs : isNonTerminalSymbol symbol)
      (hnew : r.find? [symbol] = none) : Interns r [symbol]
        (.ok (.ofNonTerminalIndex r.nonTerminals.length) (r.pushNonTerminal symbol hs hnew))
  | terminal {symbols : List String} (hs : IsTerminalGroup symbols)
      (hnew : r.find? symbols = none) : Interns r symbols
        (.ok (.ofTerminalIndex r.terminals.length) (r.pushTerminal symbols hs hnew))
  | empty : Interns r [] (.error .emptySymbolGroup r)
  | mixed {symbols : List String} : 2 ≤ symbols.length → (∃ s ∈ symbols, isNonTerminalSymbol s) →
      Interns r symbols (.error (.mixedSymbolGroup symbols) r)

theorem internM_interns (r : Registry) (symbols : List String) :
    Interns r symbols (internM symbols r) := by
  unfold internM
  split
  · next hf => exact .found hf
  · next hnew =>
    split
    · exact .empty
    · split
      · next hany =>
        split
        · next hone =>
          subst hone
          exact .nonTerminal _ _
        · next hmore => exact .mixed (Nat.succ_le_succ (List.length_pos_iff.2 hmore)) hany
      · exact .terminal _ _

theorem outcome_eq_ok {ε α : Type} {op : EStateM ε Registry α} {a : α} :
    outcome op r = .ok (a, r') ↔ op r = .ok a r' := by
  unfold outcome
  split
  · next h => rw [h]; simp
  · next h => rw [h]; simp

theorem interns_of_intern {symbols : List String} {h : Handle}
    (hi : r.intern symbols = .ok (h, r')) : Interns r symbols (.ok h r') :=
  outcome_eq_ok.1 hi ▸ internM_interns r symbols

/-- A group that is known is found. -/
theorem intern_of_find? {symbols : List String} {h : Handle} (hf : r.find? symbols = some h) :
    r.intern symbols = .ok (h, r) := by
  rw [intern, outcome_eq_ok, internM]
  split
  · next hf' =>
    cases hf.symm.trans hf'
    rfl
  · next hnew => exact absurd (hf.symm.trans hnew) nofun

/-- A nonterminal that is not known is added. -/
theorem intern_nonTerminal {symbol : String} (hs : isNonTerminalSymbol symbol)
    (hnew : r.find? [symbol] = none) : r.intern [symbol] =
      .ok (.ofNonTerminalIndex r.nonTerminals.length, r.pushNonTerminal symbol hs hnew) := by
  rw [intern, outcome_eq_ok]
  have hi := internM_interns r [symbol]
  generalize internM [symbol] r = result at hi
  cases hi with
  | found hf => exact absurd (hf.symm.trans hnew) nofun
  | nonTerminal => rfl
  | terminal hg => exact absurd (hs.symm.trans (hg.2 symbol (List.mem_singleton_self symbol))) nofun
  | mixed hlength => exact absurd hlength (by simp)

/-- A terminal that is not known is added. -/
theorem intern_terminal {group : List String} (hs : IsTerminalGroup group)
    (hnew : r.find? group = none) : r.intern group =
      .ok (.ofTerminalIndex r.terminals.length, r.pushTerminal group hs hnew) := by
  rw [intern, outcome_eq_ok]
  have hi := internM_interns r group
  generalize internM group r = result at hi
  cases hi with
  | found hf => exact absurd (hf.symm.trans hnew) nofun
  | nonTerminal hn =>
    exact absurd (hn.symm.trans (hs.2 _ (List.mem_singleton_self _))) nofun
  | terminal => rfl
  | empty => exact absurd rfl hs.1
  | mixed _ hupper =>
    obtain ⟨symbol, hmem, hn⟩ := hupper
    exact absurd (hn.symm.trans (hs.2 symbol hmem)) nofun

/-- A group is refused only if it is empty or has a nonterminal beside another symbol. -/
theorem intern_eq_error {symbols : List String} {problem : Problem}
    (hi : r.intern symbols = .error problem) :
    symbols = [] ∨ 2 ≤ symbols.length ∧ ∃ s ∈ symbols, isNonTerminalSymbol s := by
  have hdoes := internM_interns r symbols
  rw [intern, outcome] at hi
  cases hop : internM symbols r with
  | ok h left =>
    rw [hop] at hi
    cases hi
  | error problem' left =>
    rw [hop] at hdoes
    cases hdoes with
    | empty => exact .inl rfl
    | mixed hlength hupper => exact .inr ⟨hlength, hupper⟩

/-- Interning finds a group or adds it. -/
theorem intern_spec {symbols : List String} {h : Handle} (hi : r.intern symbols = .ok (h, r')) :
    r'.find? symbols = some h ∧ r.Extends r' := by
  cases interns_of_intern hi with
  | found hf => exact ⟨hf, .refl r⟩
  | nonTerminal hs hnew =>
    exact ⟨find?_pushNonTerminal hs hnew, List.prefix_append _ _, List.prefix_rfl⟩
  | terminal hs hnew =>
    exact ⟨find?_pushTerminal hs hnew, List.prefix_rfl, List.prefix_append _ _⟩

/-! ### Declaring -/

section

variable {ε : Type} {test : Registry → Except ε Unit} {f : Registry → Registry}

/-- An operation that looks first changes the registry only if nothing is refused. -/
theorem check_modify (r : Registry) :
    (do check test; modify f : EStateM ε Registry PUnit) r =
      match test r with
      | .ok () => .ok () (f r)
      | .error e => .error e r := by
  change EStateM.bind (check test) _ r = _
  rw [EStateM.bind, check]
  cases test r <;> rfl

theorem declared_check_modify (r : Registry) :
    declared (do check test; modify f) r = (do test r; return f r) := by
  rw [declared, outcome, check_modify]
  cases test r <;> rfl

end

/-- A declaration changes no symbol. -/
theorem extends_pushGroup (r : Registry) (group : List Handle) : r.Extends (r.pushGroup group) :=
  ⟨List.prefix_rfl, List.prefix_rfl⟩

theorem extends_pushPair (r : Registry) (t u : Handle) : r.Extends (r.pushPair t u) := by
  unfold pushPair
  split <;> exact ⟨List.prefix_rfl, List.prefix_rfl⟩

theorem extends_pushFinal (r : Registry) (t : Handle) : r.Extends (r.pushFinal t) :=
  ⟨List.prefix_rfl, List.prefix_rfl⟩

theorem declareDistinct_eq (r : Registry) (group : List Handle) :
    r.declareDistinct group = (do group.forM r.expectTerminal; return r.pushGroup group) :=
  declared_check_modify r

theorem declareEmptyPair_eq (r : Registry) (t u : Handle) :
    r.declareEmptyPair t u = (do r.expectPair t u; return r.pushPair t u) :=
  declared_check_modify r

theorem markFinal_eq (r : Registry) (t : Handle) :
    r.markFinal t = (do r.expectTerminal t; return r.pushFinal t) :=
  declared_check_modify r

theorem expectTerminal_eq_ok_iff {t : Handle} : r.expectTerminal t = .ok () ↔ t.isTerminal := by
  rw [expectTerminal]
  split
  · next ht => exact ⟨fun _ => ht, fun _ => rfl⟩
  · next ht =>
    refine ⟨fun h => ?_, fun h => absurd h ht⟩
    cases hname : r.name t <;> rw [hname] at h <;> cases h

/-- The second registry knows all that the first knows, and declares the same of the terminals. -/
structure Issues (r r' : Registry) : Prop extends r.Extends r' where
  groups : r'.groups = r.groups
  emptyPairs : r'.emptyPairs = r.emptyPairs

theorem Issues.refl (r : Registry) : r.Issues r := ⟨.refl r, rfl, rfl⟩

theorem Issues.trans {r r' r'' : Registry} (h : r.Issues r') (h' : r'.Issues r'') : r.Issues r'' :=
  ⟨h.toExtends.trans h'.toExtends, h'.groups.trans h.groups, h'.emptyPairs.trans h.emptyPairs⟩

theorem issues_of_intern {r r' : Registry} {symbols : List String} {h : Handle}
    (hi : r.intern symbols = .ok (h, r')) : r.Issues r' := by
  refine ⟨(intern_spec hi).2, ?_, ?_⟩
  all_goals
    cases interns_of_intern hi with
    | found => rfl
    | nonTerminal => rfl
    | terminal => rfl

end Mixfix.Registry
