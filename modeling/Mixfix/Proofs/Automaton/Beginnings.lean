import Mixfix.Proofs.Automaton.First

/-!
# First terminals are exact

Every rule that is applied adds only what some derivation shows: a nonterminal is called nullable
once a rule of it has nullable symbols only, and it gets a first terminal once the right-hand side
of a rule of it can begin with that terminal.  So what the passes come to rest with is no more than
what derivations allow, and it is known to be no less.

* `First.Sound`: every entry is shown by a derivation.
* `First.Sound.applyRule`, `First.sound_ofGrammar`: no rule adds anything else, so no pass does.
* `First.ofGrammar_exact`: nullable symbols, first terminals and those before a lookahead.
-/

namespace Mixfix

open Ascending

namespace First

variable {g : Grammar} {f : First}

/-! ### Soundness -/

/-- Derivations show what is nullable, and what is a first terminal. -/
structure Sound (g : Grammar) (f : First) : Prop where
  nullable : ∀ s ∈ f.nullable, g.Derives [s] []
  starts : ∀ {s t : Handle}, Maps f.table s t → t.isTerminal ∧ ∃ w, g.Derives [s] (t :: w)

/-- A row of symbols that derive nothing derives nothing. -/
theorem derives_nil_of_forall {symbols : List Handle} (h : ∀ s ∈ symbols, g.Derives [s] []) :
    g.Derives symbols [] := by
  induction symbols with
  | nil => exact .refl
  | cons s rest ih =>
    obtain ⟨hs, hrest⟩ := List.forall_mem_cons.1 h
    exact hs.append (ih hrest)

namespace Sound

theorem derives_nil (h : f.Sound g) {s : Handle} (hs : f.isNullable s) : g.Derives [s] [] :=
  h.nullable s (isNullable_iff.1 hs).2

theorem of_mem_starts (h : f.Sound g) (ho : Ordered f.table) {s t : Handle}
    (ht : t ∈ f.starts s) : t.isTerminal ∧ ∃ w, g.Derives [s] (t :: w) := by
  by_cases hs : s.isTerminal
  · obtain rfl := (mem_starts_terminal hs).1 ht
    exact ⟨hs, [], .refl⟩
  · exact h.starts ((mem_starts_nonTerminal ho hs).1 ht)

/-- What a row of symbols can begin with, it derives something that begins so. -/
theorem of_mem_startsOfAll (h : f.Sound g) (ho : Ordered f.table) {symbols : List Handle}
    {t : Handle} (ht : t ∈ f.startsOfAll symbols) :
    t.isTerminal ∧ ∃ w, g.Derives symbols (t :: w) := by
  induction symbols with
  | nil => cases ht
  | cons s rest ih =>
    rcases mem_startsOfAll_cons.1 ht with ht | ⟨hs, ht⟩
    · obtain ⟨hterminal, w, hw⟩ := h.of_mem_starts ho ht
      exact ⟨hterminal, w ++ rest, hw.append .refl⟩
    · obtain ⟨hterminal, w, hw⟩ := ih ht
      exact ⟨hterminal, w, (h.derives_nil hs).append hw⟩

/-- A rule adds what derivations show, be it to what the rules before it have added. -/
theorem applyRule (h : f.Sound g) (ho : Ordered f.table) {rule : Rule} (hr : rule ∈ g.rules)
    (changed : Bool) : (applyRule (f, changed) rule).1.Sound g := by
  refine ⟨fun s hs => ?_, fun {s t} hst => ?_⟩
  · rcases (mem_nullable_applyRule changed).1 hs with hs | ⟨rfl, hall⟩
    · exact h.nullable s hs
    · exact .of_rule hr (derives_nil_of_forall fun s hs => h.derives_nil (hall s hs))
  · rw [table_applyRule] at hst
    rcases maps_unionAt.1 hst with ⟨rfl, ht⟩ | hst
    · obtain ⟨hterminal, w, hw⟩ := h.of_mem_startsOfAll ho ht
      exact ⟨hterminal, w, .of_rule hr hw⟩
    · exact h.starts hst

end Sound

/-- **The first terminals of a grammar** are shown by derivations. -/
theorem sound_ofGrammar (g : Grammar) : (ofGrammar g).Sound g := by
  have hempty : Sound g ⟨[], []⟩ := ⟨fun _ h => (nomatch h), fun hst => absurd hst maps_nil⟩
  exact (fill_keeps (K := fun f => TableFrom g f ∧ f.Sound g)
    (fun hr hf => ⟨hf.1.applyRule hr _, hf.2.applyRule hf.1.ordered hr _⟩)
    ⟨tableFrom_empty g, hempty⟩ (fill_ofGrammar g 0)).2

/-! ### Exactness -/

section

variable (hg : g.WellFormed)

include hg

theorem isNullable_ofGrammar_iff {s : Handle} :
    (ofGrammar g).isNullable s ↔ g.Derives [s] [] :=
  ⟨(sound_ofGrammar g).derives_nil,
    fun h => all_nullable_of_derives hg h s (List.mem_singleton_self s)⟩

/-- The first terminals of a row of symbols are those that it derives something with in front. -/
theorem mem_startsOfAll_ofGrammar_iff {symbols : List Handle} {t : Handle} :
    t ∈ (ofGrammar g).startsOfAll symbols ↔
      t.isTerminal ∧ ∃ w, g.Derives symbols (t :: w) :=
  ⟨(sound_ofGrammar g).of_mem_startsOfAll (tableFrom_ofGrammar g).ordered,
    fun ⟨ht, _, hw⟩ => mem_startsOfAll_of_derives hg ht hw⟩

theorem mem_starts_ofGrammar_iff {s t : Handle} :
    t ∈ (ofGrammar g).starts s ↔ t.isTerminal ∧ ∃ w, g.Derives [s] (t :: w) := by
  rw [← mem_startsOfAll_ofGrammar_iff hg, mem_startsOfAll_cons]
  exact ⟨.inl, fun h => h.resolve_right fun ⟨_, h⟩ => nomatch h⟩

/-- Before a lookahead a row of symbols can begin with what the row and the lookahead together
can. -/
theorem mem_startsBefore_ofGrammar_iff {symbols : List Handle} {b t : Handle}
    (hb : b.isTerminal) : t ∈ (ofGrammar g).startsBefore symbols [b] ↔
      t.isTerminal ∧ ∃ w, g.Derives (symbols ++ [b]) (t :: w) := by
  rw [← mem_startsOfAll_ofGrammar_iff hg, mem_startsOfAll_append, mem_startsBefore,
    and_iff_right (List.cons_ne_nil b [])]
  refine or_congr_right (and_congr_right fun _ => ?_)
  rw [mem_startsOfAll_cons, mem_starts_terminal hb, List.mem_singleton]
  exact ⟨.inl, fun h => h.resolve_right fun ⟨_, h⟩ => nomatch h⟩

end

/-- **First terminals are exact.** In a grammar that passed its checks the loop over the rules ends,
with a pass that changes nothing, and with more turns it would end in the same way.  A symbol is
nullable exactly if it derives the empty word; its first terminals are those that stand in front of
something it derives; and the terminals before a lookahead, from a dot on, are those in front of
something that the rest of the row derives together with the lookahead. -/
theorem ofGrammar_exact {r : Registry} {start : Handle} {rules : List Rule}
    {kinds : List (Handle × Kind)} (h : Grammar.ofRules r start rules kinds = .ok g) :
    (∀ more, fill g.rules (turns g + more) ⟨[], []⟩ = some (ofGrammar g)) ∧
    pass g.rules (ofGrammar g) = (ofGrammar g, false) ∧
    (∀ s, (ofGrammar g).isNullable s ↔ g.Derives [s] []) ∧
    (∀ s t, t ∈ (ofGrammar g).starts s ↔ t.isTerminal ∧ ∃ w, g.Derives [s] (t :: w)) ∧
    ∀ (rhs : List Handle) (dot : Nat) (lookahead : Handle), lookahead.isTerminal →
      ∀ t, t ∈ (ofGrammar g).startsBefore (rhs.drop dot) [lookahead] ↔
        t.isTerminal ∧ ∃ w, g.Derives (rhs.drop dot ++ [lookahead]) (t :: w) := by
  have hg := Grammar.WellFormed.of_ofRules h
  exact ⟨fill_ofGrammar g, pass_ofGrammar g, fun s => isNullable_ofGrammar_iff hg,
    fun s t => mem_starts_ofGrammar_iff hg,
    fun rhs dot lookahead hb t => mem_startsBefore_ofGrammar_iff hg hb⟩

/-- Words of `x` behind a `y`, with any number of `z` in front: both nonterminals are
left-recursive, and the second may vanish. -/
def recursive : Grammar where
  registry := .ofLists ["S", "Z", "Start'"] [["x"], ["y"], ["z"]] [] []
  rules := [⟨⟨3⟩, [⟨1⟩]⟩, ⟨⟨1⟩, [⟨2⟩, ⟨1⟩, ⟨-1⟩]⟩, ⟨⟨1⟩, [⟨-2⟩]⟩, ⟨⟨2⟩, [⟨2⟩, ⟨-3⟩]⟩, ⟨⟨2⟩, []⟩]
  start := ⟨1⟩
  kinds := [(⟨3⟩, .transparent)]

theorem recursive_ofRules : Grammar.ofRules
    (.ofLists ["S", "Z"] [["x"], ["y"], ["z"]] [] []) ⟨1⟩
    [⟨⟨1⟩, [⟨2⟩, ⟨1⟩, ⟨-1⟩]⟩, ⟨⟨1⟩, [⟨-2⟩]⟩, ⟨⟨2⟩, [⟨2⟩, ⟨-3⟩]⟩, ⟨⟨2⟩, []⟩] [] = .ok recursive :=
  Grammar.eq_ok_of_registry rfl (Registry.eq_of_lists rfl rfl rfl rfl rfl)

/-- Its `Z` derives nothing, its `S` something with `y` in front, and not nothing; and behind a dot
after the `S` of its second rule there can only be `x`. -/
theorem recursive_exact :
    (∃ r rules, Grammar.ofRules r ⟨1⟩ rules [] = .ok recursive) ∧
      recursive.Derives [⟨2⟩] [] ∧ ¬ recursive.Derives [⟨1⟩] [] ∧
      (∃ w, recursive.Derives [⟨1⟩] (⟨-2⟩ :: w)) ∧
      ∀ w, ¬ recursive.Derives ([⟨2⟩, ⟨1⟩, ⟨-1⟩].drop 2 ++ [.endOfInput]) (.endOfInput :: w) := by
  obtain ⟨-, -, hnullable, hstarts, hbefore⟩ := ofGrammar_exact recursive_ofRules
  refine ⟨⟨_, _, recursive_ofRules⟩, (hnullable ⟨2⟩).1 (by decide), fun h => ?_,
    ((hstarts ⟨1⟩ ⟨-2⟩).1 (by decide)).2, fun w h => ?_⟩
  · exact absurd ((hnullable ⟨1⟩).2 h) (by decide)
  · exact absurd ((hbefore [⟨2⟩, ⟨1⟩, ⟨-1⟩] 2 .endOfInput rfl .endOfInput).2 ⟨rfl, w, h⟩)
      (by decide)

end First

end Mixfix
