import Mixfix.Proofs.Grammar
import Mixfix.Proofs.Grammar.Meaning
import Mixfix.Proofs.Registry

/-!
# The languages of a grammar

The words of a nonterminal are the rows of terminals that it derives, written with the symbols of
the terminals. They are the least languages that satisfy the rules: given languages for the
nonterminals by name, every handle, row and choice of rows has its words, and a rule holds if the
words of its right-hand side are among those of its left-hand side.

* `Grammar.language`: the words that a symbol derives.
* `Grammar.language_le`: languages that satisfy the rules include what the symbols derive.
* `Grammar.satisfied_nameLanguage`: what the nonterminals derive satisfies the rules.
-/

namespace Mixfix

/-- The words of a group of symbols: those of the nonterminal it names, or the terminal itself. -/
def groupWords (ρ : String → Words) : List String → Words
  | [symbol] => if isNonTerminalSymbol symbol then ρ symbol else {[[symbol]]}
  | group => {[group]}

theorem groupWords_terminal (ρ : String → Words) {group : List String}
    (h : Registry.isNonTerminalGroup group = false) : groupWords ρ group = {[group]} := by
  unfold groupWords
  split
  · next symbol => exact if_neg (by simpa [Registry.isNonTerminalGroup] using h)
  · rfl

namespace Registry

variable {r : Registry} {ρ : String → Words}

/-- The words of a handle, given those of the nonterminals. -/
def words (r : Registry) (ρ : String → Words) (h : Handle) : Words :=
  {w | ∃ group, r.find? group = some h ∧ w ∈ groupWords ρ group}

/-- The words of a row: one of each symbol, in order. -/
def rowWords (r : Registry) (ρ : String → Words) (row : List Handle) : Words :=
  (row.map (r.words ρ)).prod

/-- The words of all of some rows. -/
def bodiesWords (r : Registry) (ρ : String → Words) (bodies : List (List Handle)) : Words :=
  (bodies.map (r.rowWords ρ)).sum

@[simp] theorem rowWords_nil : r.rowWords ρ [] = 1 := rfl

@[simp] theorem rowWords_cons (h : Handle) (row : List Handle) :
    r.rowWords ρ (h :: row) = r.words ρ h * r.rowWords ρ row :=
  List.prod_cons

@[simp] theorem rowWords_append (row row' : List Handle) :
    r.rowWords ρ (row ++ row') = r.rowWords ρ row * r.rowWords ρ row' := by
  rw [rowWords, List.map_append, List.prod_append, ← rowWords, ← rowWords]

@[simp] theorem bodiesWords_nil : r.bodiesWords ρ [] = 0 := rfl

@[simp] theorem bodiesWords_cons (body : List Handle) (bodies : List (List Handle)) :
    r.bodiesWords ρ (body :: bodies) = r.rowWords ρ body + r.bodiesWords ρ bodies :=
  List.sum_cons

@[simp] theorem bodiesWords_append (bodies bodies' : List (List Handle)) :
    r.bodiesWords ρ (bodies ++ bodies') = r.bodiesWords ρ bodies + r.bodiesWords ρ bodies' := by
  rw [bodiesWords, List.map_append, List.sum_append, ← bodiesWords, ← bodiesWords]

/-- One more symbol at the end of every row. -/
theorem bodiesWords_map_append (bodies : List (List Handle)) (h : Handle) :
    r.bodiesWords ρ (bodies.map (· ++ [h])) = r.bodiesWords ρ bodies * r.words ρ h := by
  induction bodies with
  | nil => simp
  | cons body bodies ih => rw [List.map_cons, bodiesWords_cons, bodiesWords_cons, ih, add_mul]; simp

/-- A handle has the words of its group. -/
theorem words_of_find? {group : List String} {h : Handle} (hf : r.find? group = some h) :
    r.words ρ h = groupWords ρ group := by
  ext w
  constructor
  · rintro ⟨group', hf', hw⟩
    have : some group' = some group := (lookup?_of_find? hf').symm.trans (lookup?_of_find? hf)
    cases this
    exact hw
  · intro hw
    exact ⟨group, hf, hw⟩

theorem words_nonTerminal {name : String} {h : Handle} (hf : r.find? [name] = some h)
    (hn : h.isNonTerminal) : r.words ρ h = ρ name := by
  have hs : isNonTerminalSymbol name = true := (isNonTerminal_of_find? hf).symm.trans hn
  rw [words_of_find? hf, groupWords, if_pos hs]

theorem words_terminal {group : List String} {h : Handle} (hf : r.find? group = some h)
    (ht : h.isTerminal) : r.words ρ h = {[group]} := by
  have hg := isNonTerminal_of_find? hf
  rw [Handle.isNonTerminal_eq, ht] at hg
  rw [words_of_find? hf, groupWords_terminal ρ hg.symm]

/-- The languages satisfy the rules: what a right-hand side stands for, the left-hand side does. -/
def Satisfied (r : Registry) (ρ : String → Words) (rules : List Rule) : Prop :=
  ∀ rule ∈ rules, r.rowWords ρ rule.rhs ≤ r.words ρ rule.lhs

theorem satisfied_append {rules rules' : List Rule} :
    r.Satisfied ρ (rules ++ rules') ↔ r.Satisfied ρ rules ∧ r.Satisfied ρ rules' :=
  List.forall_mem_append

/-- The rules of one left-hand side are satisfied together. -/
theorem satisfied_map {lhs : Handle} {bodies : List (List Handle)} :
    r.Satisfied ρ (bodies.map (Rule.mk lhs)) ↔ r.bodiesWords ρ bodies ≤ r.words ρ lhs := by
  induction bodies with
  | nil => simp [Satisfied]
  | cons body bodies ih =>
    rw [bodiesWords_cons, add_le_iff, ← ih]
    simp [Satisfied]

/-- The terminal is the handle of the group. -/
def IsTerminal (r : Registry) (group : List String) (t : Handle) : Prop :=
  r.find? group = some t ∧ t.isTerminal

/-- A row of terminals stands for one word. -/
theorem rowWords_terminals {w : List (List String)} {row : List Handle}
    (h : List.Forall₂ r.IsTerminal w row) : r.rowWords ρ row = {w} := by
  induction h with
  | nil => rfl
  | @cons group t w row ht _ ih =>
    rw [rowWords_cons, words_terminal ht.1 ht.2, ih, Language.mul_def]
    exact Set.image2_singleton

end Registry

namespace Grammar

variable {g : Grammar} {ρ : String → Words}

/-- The words that a symbol derives. -/
def language (g : Grammar) (h : Handle) : Words :=
  {w | ∃ row, List.Forall₂ g.registry.IsTerminal w row ∧ g.Derives [h] row}

theorem rowWords_le_of_derives (hs : g.registry.Satisfied ρ g.rules) {u v : List Handle}
    (h : g.Derives u v) : g.registry.rowWords ρ v ≤ g.registry.rowWords ρ u := by
  induction h with
  | refl => exact le_rfl
  | tail _ hstep ih =>
    obtain ⟨rule, hr, before, after, rfl, rfl⟩ := hstep
    refine le_trans ?_ ih
    simp only [Registry.rowWords_append, Registry.rowWords_cons, ← mul_assoc]
    exact mul_le_mul_left (mul_le_mul_right (hs rule hr) _) _

/-- Languages that satisfy the rules include what the symbols derive. -/
theorem language_le (hs : g.registry.Satisfied ρ g.rules) (h : Handle) :
    g.language h ≤ g.registry.words ρ h := by
  rintro w ⟨row, hrow, hd⟩
  have hle := rowWords_le_of_derives hs hd
  rw [Registry.rowWords_terminals hrow] at hle
  rw [Registry.rowWords_cons, Registry.rowWords_nil, mul_one] at hle
  exact hle rfl

/-- The words that the nonterminal of a name derives. -/
def nameLanguage (g : Grammar) (name : String) : Words :=
  {w | ∃ h, g.registry.find? [name] = some h ∧ w ∈ g.language h}

theorem words_nameLanguage_le (h : Handle) :
    g.registry.words g.nameLanguage h ≤ g.language h := by
  rintro w ⟨group, hf, hw⟩
  by_cases hg : Registry.isNonTerminalGroup group
  · match group, hg with
    | [symbol], hg =>
      have hs : isNonTerminalSymbol symbol = true := hg
      rw [groupWords, if_pos hs] at hw
      obtain ⟨h', hf', hw⟩ := hw
      cases hf.symm.trans hf'
      exact hw
  · rw [Bool.not_eq_true] at hg
    rw [groupWords_terminal _ hg] at hw
    have hw : w = [group] := hw
    have ht : h.isTerminal = true := by
      simpa [Handle.isNonTerminal_eq, hg] using Registry.isNonTerminal_of_find? hf
    exact ⟨[h], by rw [hw]; exact .cons ⟨hf, ht⟩ .nil, .refl⟩

theorem exists_derives_of_rowWords {row : List Handle} {w : List (List String)}
    (hw : w ∈ g.registry.rowWords g.nameLanguage row) :
    ∃ terminals, List.Forall₂ g.registry.IsTerminal w terminals ∧ g.Derives row terminals := by
  induction row generalizing w with
  | nil =>
    have hw : w = [] := hw
    exact ⟨[], by rw [hw]; exact .nil, .refl⟩
  | cons h row ih =>
    rw [Registry.rowWords_cons, Language.mem_mul] at hw
    obtain ⟨u, hu, v, hv, rfl⟩ := hw
    obtain ⟨first, hfirst, hd⟩ := words_nameLanguage_le h hu
    obtain ⟨rest, hrest, hd'⟩ := ih hv
    exact ⟨first ++ rest, List.rel_append hfirst hrest, hd.append hd'⟩

/-- What the nonterminals derive satisfies the rules, if each left-hand side is the nonterminal of
its name. -/
theorem satisfied_nameLanguage (hn : ∀ rule ∈ g.rules, ∃ name,
    g.registry.find? [name] = some rule.lhs ∧ rule.lhs.isNonTerminal) :
    g.registry.Satisfied g.nameLanguage g.rules := by
  intro rule hr w hw
  obtain ⟨name, hf, hl⟩ := hn rule hr
  obtain ⟨row, hrow, hd⟩ := exists_derives_of_rowWords hw
  rw [Registry.words_nonTerminal hf hl]
  exact ⟨rule.lhs, hf, row, hrow, .of_rule hr hd⟩

end Grammar

end Mixfix
