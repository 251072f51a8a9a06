import Mixfix.Automaton.First
import Mixfix.Proofs.Fixpoint
import Mixfix.Proofs.Grammar

/-!
# First terminals cover every derivation

A pass over the rules that leaves the flag down has found nothing to add, and one that raises it has
added an entry.  There is room for so many entries only, so the passes come to rest, and what they
leave is closed under the rules.  So whatever a row of symbols derives, the row is nullable if that
is nothing, and otherwise the terminal in front is among the first terminals of the row.

* `First.TableFrom.applyRule_cases`: a rule changes nothing, or adds an entry and raises the flag.
* `First.TableFrom.exists_fill`, `First.fill_ofGrammar`: the passes come to rest.
* `First.isNullable_lhs`, `First.starts_lhs`: closure under the rules.
* `First.all_nullable_of_derives`, `First.mem_startsOfAll_of_derives`: no derivation is missed.
* `First.mem_startsBefore_of_derives`: nor is one before a lookahead.
-/

namespace Mixfix

open Ascending

/-- The terminals that the rules use, as often as they do. -/
def Grammar.uses (g : Grammar) : List Handle := (g.rules.flatMap (·.rhs)).filter (·.isTerminal)

theorem Grammar.length_uses_le (g : Grammar) :
    g.uses.length ≤ g.size :=
  List.length_filter_le _ _

theorem Grammar.mem_uses {g : Grammar} {t : Handle} :
    t ∈ g.uses ↔ t.isTerminal ∧ ∃ rule ∈ g.rules, t ∈ rule.rhs := by
  rw [uses, List.mem_filter, List.mem_flatMap, and_comm]

theorem Grammar.mem_terminals {g : Grammar} {t : Handle} : t ∈ g.terminals ↔ t ∈ g.uses := by
  have hfold : ∀ (l seen : List Handle),
      t ∈ l.foldl (fun seen t => if seen.contains t then seen else seen ++ [t]) seen ↔
        t ∈ seen ∨ t ∈ l := by
    intro l
    induction l with
    | nil => simp
    | cons u l ih =>
      intro seen
      rw [List.foldl_cons, ih, List.mem_cons]
      split
      · next h =>
        have hu : u ∈ seen := by simpa using h
        constructor
        · exact fun h => h.imp_right .inr
        · rintro (h | rfl | h)
          · exact .inl h
          · exact .inl hu
          · exact .inr h
      · rw [List.mem_append, List.mem_singleton, or_assoc]
  rw [terminals, hfold, ← uses]
  simp

namespace First

/-! ### Rows of symbols -/

section

variable {f : First}

theorem isNullable_iff {s : Handle} : f.isNullable s ↔ s.isNonTerminal ∧ s ∈ f.nullable := by
  simp [isNullable]

theorem mem_starts_terminal {s t : Handle} (h : s.isTerminal) : t ∈ f.starts s ↔ t = s := by
  rw [starts, if_pos h, List.mem_singleton]

theorem mem_starts_nonTerminal (ho : Ordered f.table) {s t : Handle} (h : ¬ s.isTerminal) :
    t ∈ f.starts s ↔ Maps f.table s t := by
  rw [starts, if_neg h, ho.mem_lookup]

theorem mem_startsOfAll_cons {s t : Handle} {rest : List Handle} :
    t ∈ f.startsOfAll (s :: rest) ↔
      t ∈ f.starts s ∨ f.isNullable s ∧ t ∈ f.startsOfAll rest := by
  rw [startsOfAll]
  split
  · next h => simp [mem_union, h]
  · next h => simp [h]

theorem mem_startsOfAll_append {t : Handle} {u v : List Handle} :
    t ∈ f.startsOfAll (u ++ v) ↔
      t ∈ f.startsOfAll u ∨ (∀ s ∈ u, f.isNullable s) ∧ t ∈ f.startsOfAll v := by
  induction u with
  | nil => simp [startsOfAll]
  | cons s u ih =>
    rw [List.cons_append, mem_startsOfAll_cons, ih, mem_startsOfAll_cons, List.forall_mem_cons]
    constructor
    · rintro (h | ⟨hn, h | ⟨hu, h⟩⟩)
      · exact .inl (.inl h)
      · exact .inl (.inr ⟨hn, h⟩)
      · exact .inr ⟨⟨hn, hu⟩, h⟩
    · rintro ((h | ⟨hn, h⟩) | ⟨⟨hn, hu⟩, h⟩)
      · exact .inl h
      · exact .inr ⟨hn, .inl h⟩
      · exact .inr ⟨hn, .inr ⟨hu, h⟩⟩

theorem exists_of_mem_startsOfAll {t : Handle} {symbols : List Handle}
    (h : t ∈ f.startsOfAll symbols) : ∃ s ∈ symbols, t ∈ f.starts s := by
  induction symbols with
  | nil => simp [startsOfAll] at h
  | cons s rest ih =>
    rcases mem_startsOfAll_cons.1 h with h | ⟨-, h⟩
    · exact ⟨s, List.mem_cons_self, h⟩
    · obtain ⟨s', hs', h'⟩ := ih h
      exact ⟨s', List.mem_cons_of_mem s hs', h'⟩

theorem mem_startsBefore {t : Handle} {symbols lookaheads : List Handle} :
    t ∈ f.startsBefore symbols lookaheads ↔ lookaheads ≠ [] ∧
      (t ∈ f.startsOfAll symbols ∨ (∀ s ∈ symbols, f.isNullable s) ∧ t ∈ lookaheads) := by
  rw [startsBefore]
  split
  · next h => simp [List.isEmpty_iff.1 h]
  · next h =>
    have hne : lookaheads ≠ [] := fun h' => h (List.isEmpty_iff.2 h')
    split
    · next h =>
      have h' : ∀ s ∈ symbols, f.isNullable s := List.all_eq_true.1 h
      rw [mem_union, and_iff_right hne, and_iff_right h']
    · next h =>
      have h' : ¬ ∀ s ∈ symbols, f.isNullable s := fun h' => h (List.all_eq_true.2 h')
      rw [and_iff_right hne, or_iff_left fun h => h' h.1]

end

/-! ### What the rules can add -/

variable {g : Grammar} {f f' : First} {rule : Rule} {rules : List Rule}

/-- An ordered table from left-hand sides to terminals in use, and nullable left-hand sides. -/
structure TableFrom (g : Grammar) (f : First) : Prop where
  ordered : Ordered f.table
  keys : ∀ e ∈ f.table, e.1 ∈ g.rules.map (·.lhs)
  uses : ∀ s t, Maps f.table s t → t ∈ g.uses
  sorted : Sorted f.nullable
  nullable : ∀ s ∈ f.nullable, s ∈ g.rules.map (·.lhs)

theorem tableFrom_empty (g : Grammar) : TableFrom g ⟨[], []⟩ :=
  ⟨ordered_nil, fun _ h => (nomatch h), fun _ _ h => absurd h maps_nil, List.Pairwise.nil,
    fun _ h => nomatch h⟩

theorem TableFrom.starts_uses (h : TableFrom g f) (hr : rule ∈ g.rules) {s t : Handle}
    (hs : s ∈ rule.rhs) (ht : t ∈ f.starts s) : t ∈ g.uses := by
  by_cases hst : s.isTerminal
  · rw [mem_starts_terminal hst] at ht
    subst ht
    exact Grammar.mem_uses.2 ⟨hst, rule, hr, hs⟩
  · exact h.uses s t ((mem_starts_nonTerminal h.ordered hst).1 ht)

theorem keys_unionAt {s : Handle} {ts : List Handle} {m : List (Handle × List Handle)}
    (ho : Ordered m) {e : Handle × List Handle} (he : e ∈ unionAt s ts m) :
    e.1 = s ∨ ∃ e' ∈ m, e'.1 = e.1 := by
  induction ts generalizing m with
  | nil => exact .inr ⟨e, he, rfl⟩
  | cons t ts ih =>
    obtain ⟨ho', hkeys⟩ := ordered_insertAt (a := s) (b := t) ho
    rcases ih ho' he with h | ⟨e', he', heq⟩
    · exact .inl h
    · rcases hkeys e' he' with h | ⟨e'', he'', heq'⟩
      · exact .inl (heq.symm.trans h)
      · exact .inr ⟨e'', he'', heq'.trans heq⟩

/-- The number of entries of the table and of nullable nonterminals. -/
def size (f : First) : Nat := weight f.table + f.nullable.length

/-- There is room for fewer entries than a grammar has turns. -/
theorem TableFrom.size_lt (h : TableFrom g f) : f.size < turns g := by
  have htable : weight f.table ≤ g.rules.length * g.size := by
    calc weight f.table ≤ (g.rules.map (·.lhs)).length * g.uses.length :=
          h.ordered.weight_le h.keys h.uses
      _ ≤ g.rules.length * g.size := by
          rw [List.length_map]
          exact Nat.mul_le_mul_left _ g.length_uses_le
  have hnullable : f.nullable.length ≤ g.rules.length := by
    have := h.sorted.length_le h.nullable
    rwa [List.length_map] at this
  rw [size, turns]
  omega

/-! ### One rule -/

/-- The left-hand side is nullable after a rule exactly if it was, or all symbols of the rule are;
nothing else changes. -/
theorem mem_nullable_applyRule (changed : Bool) {s : Handle} :
    s ∈ (applyRule (f, changed) rule).1.nullable ↔
      s ∈ f.nullable ∨ s = rule.lhs ∧ ∀ x ∈ rule.rhs, f.isNullable x := by
  rw [← List.all_eq_true, applyRule]
  split
  · next h =>
    rw [Bool.and_eq_true] at h
    rw [mem_insert, or_comm, and_iff_left h.1]
  · next h =>
    refine ⟨.inl, fun hs => hs.elim id ?_⟩
    rintro ⟨rfl, hall⟩
    simpa [hall] using h

theorem table_applyRule (f : First) (changed : Bool) (rule : Rule) :
    (applyRule (f, changed) rule).1.table =
      unionAt rule.lhs (f.startsOfAll rule.rhs) f.table := by
  rw [applyRule]
  split <;> rfl

theorem TableFrom.applyRule (h : TableFrom g f) (hr : rule ∈ g.rules) (changed : Bool) :
    TableFrom g (applyRule (f, changed) rule).1 := by
  have htable := table_applyRule f changed rule
  refine ⟨?_, fun e he => ?_, fun s t hst => ?_, ?_, fun s hs => ?_⟩
  · rw [htable]
    exact ordered_unionAt h.ordered
  · rw [htable] at he
    rcases keys_unionAt h.ordered he with heq | ⟨e', he', heq⟩
    · rw [heq]
      exact List.mem_map_of_mem hr
    · rw [← heq]
      exact h.keys e' he'
  · rw [htable] at hst
    rcases maps_unionAt.1 hst with ⟨-, ht⟩ | hst
    · obtain ⟨s', hs', ht'⟩ := exists_of_mem_startsOfAll ht
      exact h.starts_uses hr hs' ht'
    · exact h.uses s t hst
  · rw [First.applyRule]
    split
    · exact sorted_insert h.sorted
    · exact h.sorted
  · rcases (mem_nullable_applyRule changed).1 hs with hs | ⟨rfl, -⟩
    · exact h.nullable s hs
    · exact List.mem_map_of_mem hr

/-- A rule changes nothing and leaves the flag as it is, or it adds an entry and raises it. -/
theorem TableFrom.applyRule_cases (h : TableFrom g f) (changed : Bool) (rule : Rule) :
    First.applyRule (f, changed) rule = (f, changed) ∨
      ∃ f', First.applyRule (f, changed) rule = (f', true) ∧ f.size < f'.size := by
  have hgrows := unionAt_grows rule.lhs (f.startsOfAll rule.rhs) f.table
  rw [First.applyRule]
  split
  · next hnew =>
    refine .inr ⟨_, rfl, ?_⟩
    have hmem : rule.lhs ∉ f.nullable := by
      rw [Bool.and_eq_true, Bool.not_eq_true', ← Bool.not_eq_true, List.contains_iff_mem] at hnew
      exact hnew.2
    have hlength := (insert_grows rule.lhs f.nullable).resolve_left fun heq =>
      hmem (heq ▸ mem_insert.2 (.inl rfl))
    have htable : weight f.table ≤
        weight (unionAt rule.lhs (f.startsOfAll rule.rhs) f.table) :=
      hgrows.elim (fun heq => (congrArg weight heq).ge) Nat.le_of_lt
    exact Nat.add_lt_add_of_le_of_lt htable hlength
  · by_cases hlength : (((unionAt rule.lhs (f.startsOfAll rule.rhs) f.table).lookup rule.lhs).getD
        []).length = ((f.table.lookup rule.lhs).getD []).length
    · refine .inl ?_
      rw [h.ordered.unionAt_of_length hlength]
      simp
    · rw [bne_iff_ne.2 hlength, Bool.or_true]
      refine .inr ⟨_, rfl, ?_⟩
      have hlt := hgrows.resolve_left fun heq => hlength (by rw [heq])
      exact Nat.add_lt_add_right hlt _

/-! ### Passes -/

/-- What every rule keeps, a row of rules keeps. -/
theorem foldl_applyRule_keeps {K : First → Prop}
    (hK : ∀ {f rule changed}, rule ∈ rules → K f → K (applyRule (f, changed) rule).1)
    (hf : K f) (changed : Bool) : K (rules.foldl applyRule (f, changed)).1 := by
  induction rules generalizing f changed with
  | nil => exact hf
  | cons rule rules ih =>
    rw [List.foldl_cons]
    exact ih (fun hr => hK (List.mem_cons_of_mem rule hr)) (hK List.mem_cons_self hf) _

/-- A row of rules changes nothing, and no rule of it does, or it adds an entry and raises the
flag. -/
theorem TableFrom.foldl_applyRule_cases (h : TableFrom g f)
    (hrules : ∀ rule ∈ rules, rule ∈ g.rules) (changed : Bool) :
    (rules.foldl First.applyRule (f, changed) = (f, changed) ∧
        ∀ rule ∈ rules, First.applyRule (f, changed) rule = (f, changed)) ∨
      ∃ f', rules.foldl First.applyRule (f, changed) = (f', true) ∧ f.size < f'.size := by
  induction rules generalizing f changed with
  | nil => exact .inl ⟨rfl, fun _ h => nomatch h⟩
  | cons rule rules ih =>
    obtain ⟨hr, hrules⟩ := List.forall_mem_cons.1 hrules
    rw [List.foldl_cons]
    rcases h.applyRule_cases changed rule with heq | ⟨f₁, heq, hlt⟩
    · rw [heq]
      rcases ih h hrules changed with ⟨hfold, hall⟩ | hgrown
      · exact .inl ⟨hfold, List.forall_mem_cons.2 ⟨heq, hall⟩⟩
      · exact .inr hgrown
    · have h₁ : TableFrom g f₁ := by
        have := h.applyRule hr changed
        rwa [heq] at this
      rw [heq]
      rcases ih h₁ hrules true with ⟨hfold, -⟩ | ⟨f', hfold, hlt'⟩
      · exact .inr ⟨f₁, hfold, hlt⟩
      · exact .inr ⟨f', hfold, hlt.trans hlt'⟩

theorem TableFrom.pass (h : TableFrom g f) : TableFrom g (pass g.rules f).1 :=
  foldl_applyRule_keeps (fun hr h => h.applyRule hr _) h false

/-- A pass that leaves the flag down found nothing to add. -/
theorem TableFrom.pass_eq_false (h : TableFrom g f) (hpass : First.pass g.rules f = (f', false)) :
    f' = f ∧ ∀ rule ∈ g.rules, First.applyRule (f, false) rule = (f, false) := by
  rcases h.foldl_applyRule_cases (fun _ hr => hr) false with ⟨hfold, hall⟩ | ⟨f₁, hfold, -⟩
  · cases hpass.symm.trans hfold
    exact ⟨rfl, hall⟩
  · cases hpass.symm.trans hfold

/-- A pass that raises the flag has added an entry. -/
theorem TableFrom.pass_eq_true (h : TableFrom g f) (hpass : First.pass g.rules f = (f', true)) :
    TableFrom g f' ∧ f.size < f'.size := by
  refine ⟨by simpa [hpass] using h.pass, ?_⟩
  rcases h.foldl_applyRule_cases (fun _ hr => hr) false with ⟨hfold, -⟩ | ⟨f₁, hfold, hlt⟩
  · cases hpass.symm.trans hfold
  · cases hpass.symm.trans hfold
    exact hlt

/-! ### The loop -/

/-- **The passes come to rest.** With as many turns as there is room for entries the loop ends, and
more turns change nothing; no rule has anything to add to what it ends with. -/
theorem TableFrom.exists_fill (h : TableFrom g f) {n : Nat} (hn : turns g ≤ f.size + n) :
    ∃ f', (∀ more, fill g.rules (n + more) f = some f') ∧ TableFrom g f' ∧
      ∀ rule ∈ g.rules, First.applyRule (f', false) rule = (f', false) := by
  induction n generalizing f with
  | zero => exact absurd h.size_lt (by omega)
  | succ n ih =>
    cases hpass : First.pass g.rules f with
    | mk f₁ changed =>
      cases changed with
      | false =>
        obtain ⟨rfl, hall⟩ := h.pass_eq_false hpass
        refine ⟨f₁, fun more => ?_, h, hall⟩
        rw [Nat.succ_add, fill, hpass]
      | true =>
        obtain ⟨h₁, hlt⟩ := h.pass_eq_true hpass
        obtain ⟨f', hfill, hrest⟩ := ih h₁ (by omega)
        refine ⟨f', fun more => ?_, hrest⟩
        rw [Nat.succ_add, fill, hpass]
        exact hfill more

theorem exists_ofGrammar (g : Grammar) :
    (∀ more, fill g.rules (turns g + more) ⟨[], []⟩ = some (ofGrammar g)) ∧
      TableFrom g (ofGrammar g) ∧
      ∀ rule ∈ g.rules, applyRule (ofGrammar g, false) rule = (ofGrammar g, false) := by
  obtain ⟨f, hfill, hrest⟩ := (tableFrom_empty g).exists_fill (Nat.le_add_left (turns g) _)
  have heq : ofGrammar g = f := by
    rw [ofGrammar, show fill g.rules (turns g) _ = some f from hfill 0, Option.getD_some]
  rw [heq]
  exact ⟨hfill, hrest⟩

/-- The loop ends, however many more turns it may take. -/
theorem fill_ofGrammar (g : Grammar) (more : Nat) :
    fill g.rules (turns g + more) ⟨[], []⟩ = some (ofGrammar g) := (exists_ofGrammar g).1 more

theorem tableFrom_ofGrammar (g : Grammar) : TableFrom g (ofGrammar g) := (exists_ofGrammar g).2.1

theorem applyRule_ofGrammar {rule : Rule} (hr : rule ∈ g.rules) :
    applyRule (ofGrammar g, false) rule = (ofGrammar g, false) := (exists_ofGrammar g).2.2 rule hr

theorem pass_ofGrammar (g : Grammar) : pass g.rules (ofGrammar g) = (ofGrammar g, false) := by
  refine List.foldlRecOn (motive := fun acc => acc = (ofGrammar g, false)) g.rules _ rfl ?_
  rintro _ rfl rule hr
  exact applyRule_ofGrammar hr

/-- What every rule keeps, the loop keeps. -/
theorem fill_keeps {K : First → Prop}
    (hK : ∀ {f rule changed}, rule ∈ rules → K f → K (applyRule (f, changed) rule).1) {n : Nat}
    (hf : K f) (h : fill rules n f = some f') : K f' := by
  induction n generalizing f with
  | zero => cases h
  | succ n ih =>
    have hpass : K (pass rules f).1 := foldl_applyRule_keeps hK hf false
    rw [fill] at h
    split at h
    · next heq =>
      rw [heq] at hpass
      exact ih hpass h
    · next heq =>
      rw [heq] at hpass
      cases h
      exact hpass

/-- A nonterminal with a rule over nullable symbols is nullable. -/
theorem isNullable_lhs (hg : g.WellFormed) {rule : Rule} (hr : rule ∈ g.rules)
    (h : ∀ s ∈ rule.rhs, (ofGrammar g).isNullable s) : (ofGrammar g).isNullable rule.lhs := by
  refine isNullable_iff.2 ⟨hg.lhs_nonTerminal rule hr, ?_⟩
  have hmem := (mem_nullable_applyRule false).2 (.inr ⟨rfl, h⟩)
  rwa [applyRule_ofGrammar hr] at hmem

/-- What a rule can begin with, its nonterminal can begin with. -/
theorem starts_lhs (hg : g.WellFormed) {rule : Rule} (hr : rule ∈ g.rules) {t : Handle}
    (h : t ∈ (ofGrammar g).startsOfAll rule.rhs) : t ∈ (ofGrammar g).starts rule.lhs := by
  have hnt : ¬ rule.lhs.isTerminal := by
    simpa [Handle.isNonTerminal_eq] using hg.lhs_nonTerminal rule hr
  have htable := table_applyRule (ofGrammar g) false rule
  rw [applyRule_ofGrammar hr] at htable
  rw [mem_starts_nonTerminal (tableFrom_ofGrammar g).ordered hnt, htable]
  exact maps_unionAt.2 (.inl ⟨rfl, h⟩)

/-! ### Derivations -/

theorem all_nullable_of_rewrites (hg : g.WellFormed) {u v : List Handle} (h : g.Rewrites u v)
    (hv : ∀ s ∈ v, (ofGrammar g).isNullable s) : ∀ s ∈ u, (ofGrammar g).isNullable s := by
  obtain ⟨rule, hr, before, after, rfl, rfl⟩ := h
  simp only [List.mem_append, or_imp, forall_and] at hv
  simp only [List.mem_append, List.mem_cons, or_imp, forall_and, forall_eq]
  exact ⟨hv.1.1, isNullable_lhs hg hr hv.1.2, hv.2⟩

/-- A row of symbols that derives nothing is nullable. -/
theorem all_nullable_of_derives (hg : g.WellFormed) {u : List Handle} (h : g.Derives u []) :
    ∀ s ∈ u, (ofGrammar g).isNullable s := by
  induction h using Relation.ReflTransGen.head_induction_on with
  | refl => exact fun _ h => nomatch h
  | head hs _ ih => exact all_nullable_of_rewrites hg hs ih

theorem mem_startsOfAll_of_rewrites (hg : g.WellFormed) {u v : List Handle} (h : g.Rewrites u v)
    {t : Handle} (ht : t ∈ (ofGrammar g).startsOfAll v) : t ∈ (ofGrammar g).startsOfAll u := by
  obtain ⟨rule, hr, before, after, rfl, rfl⟩ := h
  rw [List.append_assoc, mem_startsOfAll_append, mem_startsOfAll_append] at ht
  rw [mem_startsOfAll_append, mem_startsOfAll_cons]
  rcases ht with ht | ⟨hb, ht | ⟨hn, ht⟩⟩
  · exact .inl ht
  · exact .inr ⟨hb, .inl (starts_lhs hg hr ht)⟩
  · exact .inr ⟨hb, .inr ⟨isNullable_lhs hg hr hn, ht⟩⟩

/-- The terminal in front of what a row derives is a first terminal of the row. -/
theorem mem_startsOfAll_of_derives (hg : g.WellFormed) {u w : List Handle} {t : Handle}
    (ht : t.isTerminal) (h : g.Derives u (t :: w)) : t ∈ (ofGrammar g).startsOfAll u := by
  induction h using Relation.ReflTransGen.head_induction_on with
  | refl => exact mem_startsOfAll_cons.2 (.inl ((mem_starts_terminal ht).2 rfl))
  | head hs _ ih => exact mem_startsOfAll_of_rewrites hg hs ih

/-- The terminal in front of what a row derives, or a lookahead if that is nothing. -/
theorem mem_startsBefore_of_derives (hg : g.WellFormed) {u w : List Handle} {t b : Handle}
    {lookaheads : List Handle} (hw : ∀ t ∈ w, t.isTerminal) (h : g.Derives u w)
    (hb : b ∈ lookaheads) (ht : t = w.head?.getD b) :
    t ∈ (ofGrammar g).startsBefore u lookaheads := by
  subst ht
  refine mem_startsBefore.2 ⟨List.ne_nil_of_mem hb, ?_⟩
  cases w with
  | nil => exact .inr ⟨all_nullable_of_derives hg h, hb⟩
  | cons t w => exact .inl (mem_startsOfAll_of_derives hg (hw t List.mem_cons_self) h)

end First

end Mixfix
