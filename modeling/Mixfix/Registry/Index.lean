import Mixfix.Handle
import Mixfix.Unicode.Uppercase

/-!
# The index of a registry

A registry keeps its symbols and its groups in lists, in the order in which they come, and finds
them by maps: the handle of a group of symbols, and the places of the groups that a terminal is in.
The maps are filled entry by entry.

* `Registry.put_nonTerminal`, `Registry.put_terminal`: a new entry of the first map keeps it in
  agreement with the lists.
* `Registry.enroll_places`: so do the new entries of the second.
* `Registry.mem_places`: what the second map says of a terminal.
-/

namespace Mixfix

/-- A symbol that names a nonterminal. -/
def isNonTerminalSymbol (symbol : String) : Bool := symbol.toList.head?.any isUppercase

namespace Registry

/-- The group is one symbol that names a nonterminal. -/
def isNonTerminalGroup : List String → Bool
  | [symbol] => isNonTerminalSymbol symbol
  | _ => false

/-- The symbols of a terminal: one or more, none of which names a nonterminal. -/
def IsTerminalGroup (group : List String) : Prop :=
  group ≠ [] ∧ ∀ symbol ∈ group, isNonTerminalSymbol symbol = false

/-- The handle of a group by the place where it is in the list of its sort. -/
def indexed (nonTerminals : List String) (terminals : List (List String)) (symbols : List String) :
    Option Handle :=
  match symbols with
  | [symbol] =>
    if isNonTerminalSymbol symbol then
      (nonTerminals.idxOf? symbol).map Handle.ofNonTerminalIndex
    else
      (terminals.idxOf? symbols).map Handle.ofTerminalIndex
  | _ => (terminals.idxOf? symbols).map Handle.ofTerminalIndex

/-- The places of the groups that have a terminal. -/
def places (groups : List (List Handle)) (t : Handle) : List Nat :=
  groups.zipIdx.filterMap fun (group, i) => if t ∈ group then some i else none

/-- A map with another value for one key. -/
def put {α β : Type} [DecidableEq α] (m : α → β) (a : α) (b : β) : α → β :=
  fun x => if x = a then b else m x

theorem getElem?_of_idxOf? {α : Type} [BEq α] [LawfulBEq α] {l : List α} {a : α} {n : Nat}
    (h : l.idxOf? a = some n) : l[n]? = some a := by
  rw [List.idxOf?, List.findIdx?_eq_some_iff_getElem] at h
  obtain ⟨hn, hb, -⟩ := h
  rw [List.getElem?_eq_getElem hn, eq_of_beq hb]

theorem idxOf?_append_self {α : Type} [BEq α] [LawfulBEq α] {l : List α} {a : α}
    (h : l.idxOf? a = none) : (l ++ [a]).idxOf? a = some l.length := by
  rw [List.idxOf?, List.findIdx?_append, ← List.idxOf?, h]
  simp

theorem idxOf?_append_of_ne {α : Type} [BEq α] [LawfulBEq α] {l : List α} {a b : α} (h : b ≠ a) :
    (l ++ [b]).idxOf? a = l.idxOf? a := by
  rw [List.idxOf?, List.findIdx?_append, ← List.idxOf?]
  simp [h]

theorem indexed_nonTerminal {nonTerminals : List String} {terminals : List (List String)}
    {symbol : String} (h : isNonTerminalSymbol symbol) :
    indexed nonTerminals terminals [symbol] =
      (nonTerminals.idxOf? symbol).map Handle.ofNonTerminalIndex := by
  rw [indexed, if_pos h]

theorem indexed_terminal {nonTerminals : List String} {terminals : List (List String)}
    {symbols : List String} (h : isNonTerminalGroup symbols = false) :
    indexed nonTerminals terminals symbols =
      (terminals.idxOf? symbols).map Handle.ofTerminalIndex := by
  unfold indexed
  split
  · next symbol =>
    rw [if_neg]
    rw [isNonTerminalGroup] at h
    simp [h]
  · rfl

theorem isNonTerminalGroup_iff {symbols : List String} :
    isNonTerminalGroup symbols ↔ ∃ s, symbols = [s] ∧ isNonTerminalSymbol s := by
  constructor
  · intro hs
    match symbols, hs with
    | [s], hs => exact ⟨s, rfl, hs⟩
  · rintro ⟨s, rfl, hs⟩
    exact hs

theorem IsTerminalGroup.isNonTerminalGroup {group : List String} (h : IsTerminalGroup group) :
    isNonTerminalGroup group = false := by
  refine Bool.eq_false_iff.2 fun hn => ?_
  obtain ⟨symbol, rfl, hs⟩ := isNonTerminalGroup_iff.1 hn
  exact Bool.noConfusion (hs.symm.trans (h.2 symbol (List.mem_singleton_self symbol)))

/-- The map with a nonterminal more agrees with the list that has it at its end. -/
theorem put_nonTerminal {nonTerminals : List String} {terminals : List (List String)}
    {symbol : String} (hs : isNonTerminalSymbol symbol)
    (hnew : indexed nonTerminals terminals [symbol] = none) (symbols : List String) :
    put (indexed nonTerminals terminals) [symbol] (some (.ofNonTerminalIndex nonTerminals.length))
      symbols = indexed (nonTerminals ++ [symbol]) terminals symbols := by
  rw [indexed_nonTerminal hs, Option.map_eq_none_iff] at hnew
  unfold put
  split
  · next heq =>
    rw [heq, indexed_nonTerminal hs, idxOf?_append_self hnew]
    rfl
  · next hne =>
    cases hgroup : isNonTerminalGroup symbols with
    | false => rw [indexed_terminal hgroup, indexed_terminal hgroup]
    | true =>
      obtain ⟨s, rfl, hs'⟩ := isNonTerminalGroup_iff.1 hgroup
      have hsymbol : symbol ≠ s := fun h => hne (congrArg ([·]) h.symm)
      rw [indexed_nonTerminal hs', indexed_nonTerminal hs', idxOf?_append_of_ne hsymbol]

/-- The map with a terminal more agrees with the list that has it at its end. -/
theorem put_terminal {nonTerminals : List String} {terminals : List (List String)}
    {group : List String} (hs : IsTerminalGroup group)
    (hnew : indexed nonTerminals terminals group = none) (symbols : List String) :
    put (indexed nonTerminals terminals) group (some (.ofTerminalIndex terminals.length)) symbols =
      indexed nonTerminals (terminals ++ [group]) symbols := by
  rw [indexed_terminal hs.isNonTerminalGroup, Option.map_eq_none_iff] at hnew
  unfold put
  split
  · next heq =>
    rw [heq, indexed_terminal hs.isNonTerminalGroup, idxOf?_append_self hnew]
    rfl
  · next hne =>
    cases hgroup : isNonTerminalGroup symbols with
    | false =>
      rw [indexed_terminal hgroup, indexed_terminal hgroup, idxOf?_append_of_ne (Ne.symm hne)]
    | true =>
      obtain ⟨s, rfl, hs'⟩ := isNonTerminalGroup_iff.1 hgroup
      rw [indexed_nonTerminal hs', indexed_nonTerminal hs']

/-- Adds the place of a group to those of each of its terminals. -/
def enroll (place : Nat) (group : List Handle) (m : Handle → List Nat) : Handle → List Nat :=
  group.foldl (fun m t => put m t (m t ++ [place])) m

/-- Each terminal of the group gets the place once, whatever the order they come in. -/
theorem enroll_apply {place : Nat} {group : List Handle} (hg : group.Nodup) (m : Handle → List Nat)
    (t : Handle) : enroll place group m t = if t ∈ group then m t ++ [place] else m t := by
  induction group generalizing m with
  | nil => rfl
  | cons u group ih =>
    obtain ⟨hu, hg⟩ := List.nodup_cons.1 hg
    rw [enroll, List.foldl_cons, ← enroll, ih hg, put]
    by_cases htu : t = u
    · subst htu
      simp [hu]
    · simp [htu]

/-- The place of a group is found by a terminal exactly if the group has it. -/
theorem mem_places {groups : List (List Handle)} {t : Handle} {i : Nat} :
    i ∈ places groups t ↔ ∃ group, groups[i]? = some group ∧ t ∈ group := by
  simp only [places, List.mem_filterMap, Prod.exists, List.mk_mem_zipIdx_iff_getElem?,
    Option.ite_none_right_eq_some, Option.some.injEq]
  constructor
  · rintro ⟨group, _, hi, ht, rfl⟩
    exact ⟨group, hi, ht⟩
  · rintro ⟨group, hi, ht⟩
    exact ⟨group, i, hi, ht, rfl⟩

/-- The map with the places of a group more agrees with the list that has it at its end. -/
theorem enroll_places (groups : List (List Handle)) (group : List Handle) (t : Handle) :
    enroll groups.length (Ascending.ofList group) (places groups) t =
      places (groups ++ [group]) t := by
  have hmem : t ∈ Ascending.ofList group ↔ t ∈ group := Ascending.mem_ofList
  simp only [enroll_apply (Ascending.sorted_ofList group).nodup, hmem]
  rw [places, places, List.zipIdx_append, List.filterMap_append]
  by_cases ht : t ∈ group <;> simp [ht]

end Registry

end Mixfix
