import Mixfix.Proofs.Grammar.Spelling

/-!
# New nonterminals

Lowering names a new nonterminal after the rule that it works on and the number of nonterminals made
so far, and does not look whether the user wrote that name. If none was written, then the new
nonterminals differ from one another and from all that the user wrote, and each has the rules of its
own sub-expression and no others.

* `ExprGrammar.Unmade`: no written name is one that lowering may make.
* `Lowering.RulesFor`: what is made for the rules of a grammar, and with which rules.
* `ExprGrammar.lower_keepsApart`: lowering keeps new nonterminals apart from all others.
* `ExprGrammar.clashing_shared`: a written name that lowering makes is shared.
-/

namespace Mixfix

/-! ### Names -/

/-- What follows the last occurrence of an element determines what stands before it. -/
theorem append_cons_inj {α : Type} {a : α} {xs xs' ys ys' : List α} (hy : a ∉ ys) (hy' : a ∉ ys')
    (h : xs ++ a :: ys = xs' ++ a :: ys') : xs = xs' ∧ ys = ys' := by
  rcases List.append_eq_append_iff.1 h with ⟨between, rfl, htail⟩ | ⟨between, rfl, htail⟩
  all_goals
    cases between with
    | nil => simpa [eq_comm] using htail
    | cons b between =>
      -- Another occurrence would follow.
      have hmem := (List.cons.inj htail).2
      simp_all

/-- The number of a made nonterminal stands after the last `~` of its name. -/
theorem madeName_inj {base base' : String} {k k' : Nat} (h : madeName base k = madeName base' k') :
    base = base' ∧ k = k' := by
  have hl := congrArg String.toList h
  rw [toList_madeName, toList_madeName] at hl
  obtain ⟨hbase, hdigits⟩ := append_cons_inj (tilde_notMem_toDigits k) (tilde_notMem_toDigits k') hl
  have hk := congrArg (Nat.ofDigitChars 10 · 0) hdigits
  simp only [Nat.ofDigitChars_ten_toDigits] at hk
  exact ⟨String.toList_inj.1 hbase, hk⟩

theorem madeName_ne_augmentedStart (base : String) (k : Nat) :
    madeName base k ≠ augmentedStart := by
  intro h
  have hmem : '~' ∈ augmentedStart.toList := by
    rw [← h, toList_madeName]
    simp
  exact absurd hmem (by decide)

/-- The right-hand sides of the rules of a nonterminal, in order. -/
def bodiesIn (rules : List Rule) (lhs : Handle) : List (List Handle) :=
  (rules.filter (·.lhs = lhs)).map (·.rhs)

section

variable {rules rules' : List Rule} {n lhs : Handle}

theorem bodiesIn_append : bodiesIn (rules ++ rules') n = bodiesIn rules n ++ bodiesIn rules' n := by
  rw [bodiesIn, List.filter_append, List.map_append]
  rfl

theorem bodiesIn_eq_nil (h : ∀ rule ∈ rules, rule.lhs ≠ n) : bodiesIn rules n = [] := by
  rw [bodiesIn, List.map_eq_nil_iff, List.filter_eq_nil_iff]
  simpa using h

theorem bodiesIn_map (bodies : List (List Handle)) :
    bodiesIn (bodies.map (Rule.mk n)) n = bodies := by
  simp [bodiesIn, List.filter_map, Function.comp_def]

theorem bodiesIn_map_of_ne (h : lhs ≠ n) (bodies : List (List Handle)) :
    bodiesIn (bodies.map (Rule.mk lhs)) n = [] := by
  refine bodiesIn_eq_nil fun rule hrule => ?_
  obtain ⟨body, -, rfl⟩ := List.mem_map.1 hrule
  exact h

theorem mem_bodiesIn {rule : Rule} (h : rule ∈ rules) : rule.rhs ∈ bodiesIn rules rule.lhs :=
  List.mem_map_of_mem (List.mem_filter.2 ⟨h, decide_eq_true rfl⟩)

end

namespace Lowering

variable {α β γ : Type} {l l' l'' : Lowering} {R : Registry}

/-! ### What is made for an expression -/

/-- What a construction may give, with the nonterminals that it makes on the way. -/
abbrev Making (α : Type) := α → List Handle → Prop

namespace Making

/-- Something that is given without making any. -/
def pure (a : α) : Making α := fun b ns => b = a ∧ ns = []

def map (f : α → β) (m : Making α) : Making β := fun b ns => ∃ a, m a ns ∧ b = f a

/-- One construction after the other. -/
def both (f : α → β → γ) (m : Making α) (m' : Making β) : Making γ := fun c ns =>
  ∃ a b ns₁ ns₂, m a ns₁ ∧ m' b ns₂ ∧ c = f a b ∧ ns = ns₁ ++ ns₂

/-- A symbol that the user wrote. -/
def written (r : Registry) (group : List String) : Making Handle := fun h ns =>
  r.find? group = some h ∧ ns = []

section

variable (B : Handle → List (List Handle))

/-- A new nonterminal whose rules are made from the bodies in some shape. -/
def new (shape : Handle → List (List Handle) → List (List Handle))
    (m : Making (List (List Handle))) : Making Handle := fun n ns =>
  ∃ bs ns', m bs ns' ∧ B n = shape n bs ∧ ns = n :: ns'

/-- A nonterminal with the bodies. -/
def choice (m : Making (List (List Handle))) : Making Handle := new B (fun _ bs => bs) m

/-- A nonterminal with the bodies and an empty one. -/
def option (m : Making (List (List Handle))) : Making Handle := new B (fun _ bs => bs ++ [[]]) m

/-- A nonterminal with an empty body and each of the bodies before itself. -/
def star (m : Making (List (List Handle))) : Making Handle :=
  new B (fun n bs => [] :: bs.map (· ++ [n])) m

/-- A nonterminal with each of the bodies before one for any number of them. -/
def plus (m : Making (List (List Handle))) : Making Handle :=
  choice B ((star B m).both (fun rest bs => bs.map (· ++ [rest])) m)

end

end Making

section

variable (r : Registry) (B : Handle → List (List Handle))

mutual

/-- The bodies for an expression, where `B` has the right-hand sides of every nonterminal. -/
def BodiesFor : Expr → Making (List (List Handle))
  | .alt es => RowsFor es
  | .seq parts => (RowFor parts).map ([·])
  | .nonTerminal name => (Making.written r [name]).map fun s => [[s]]
  | .terminal group => (Making.written r group).map fun s => [[s]]
  | .opt body => (Making.option B (BodiesFor body)).map fun s => [[s]]
  | .star body => (Making.star B (BodiesFor body)).map fun s => [[s]]
  | .plus body => (Making.plus B (BodiesFor body)).map fun s => [[s]]

/-- One row for each alternative. -/
def RowsFor : List Expr → Making (List (List Handle))
  | [] => Making.pure []
  | .seq parts :: es => Making.both List.cons (RowFor parts) (RowsFor es)
  | e :: es => Making.both (fun s rows => [s] :: rows) (SymbolFor e) (RowsFor es)

/-- One symbol for each part. -/
def RowFor : List Expr → Making (List Handle)
  | [] => Making.pure []
  | e :: es => Making.both List.cons (SymbolFor e) (RowFor es)

/-- The symbol for an expression. -/
def SymbolFor : Expr → Making Handle
  | .alt es => Making.choice B (RowsFor es)
  | .seq parts => Making.choice B ((RowFor parts).map ([·]))
  | .nonTerminal name => Making.written r [name]
  | .terminal group => Making.written r group
  | .opt body => Making.option B (BodiesFor body)
  | .star body => Making.star B (BodiesFor body)
  | .plus body => Making.plus B (BodiesFor body)

end

/-- What is made for the rules of a grammar: for each the nonterminals of its own body, which is
among the bodies of the nonterminal that the rule is for. -/
def RulesFor : List (String × Expr) → List Handle → Prop
  | [], ns => ns = []
  | (name, body) :: sources, ns => ∃ lhs bs ns₁ ns₂, r.find? [name] = some lhs ∧
      BodiesFor r B body.normalize bs ns₁ ∧ bs ⊆ B lhs ∧ RulesFor sources ns₂ ∧ ns = ns₁ ++ ns₂

end

/-! ### What a construction makes -/

/-- The nonterminals are named after some of the bases, with the numbers that follow `k`. -/
def Numbered (r : Registry) (bases : Set String) : Nat → List Handle → Prop
  | _, [] => True
  | k, n :: ns =>
    (∃ base ∈ bases, r.find? [madeName base (k + 1)] = some n ∧ n.isNonTerminal) ∧
      Numbered r bases (k + 1) ns

namespace Numbered

variable {r r' : Registry} {bases bases' : Set String} {k : Nat} {n : Handle} {ns ns' : List Handle}

theorem mono (h : Numbered r bases k ns) (hr : r.Extends r') (hb : bases ⊆ bases') :
    Numbered r' bases' k ns := by
  induction ns generalizing k with
  | nil => trivial
  | cons n ns ih =>
    obtain ⟨⟨base, hbase, hf, hn⟩, h⟩ := h
    exact ⟨⟨base, hb hbase, hr.find? hf, hn⟩, ih h⟩

theorem append (h : Numbered r bases k ns) (h' : Numbered r bases (k + ns.length) ns') :
    Numbered r bases k (ns ++ ns') := by
  induction ns generalizing k with
  | nil => exact h'
  | cons n ns ih =>
    refine ⟨h.1, ih h.2 ?_⟩
    rwa [List.length_cons, Nat.add_comm ns.length, ← Nat.add_assoc] at h'

theorem exists_of_mem (h : Numbered r bases k ns) (hn : n ∈ ns) :
    ∃ base ∈ bases, ∃ k', k < k' ∧ r.find? [madeName base k'] = some n ∧ n.isNonTerminal := by
  induction ns generalizing k with
  | nil => cases hn
  | cons n' ns ih =>
    rcases List.mem_cons.1 hn with rfl | hn
    · obtain ⟨base, hbase, hnew⟩ := h.1
      exact ⟨base, hbase, k + 1, Nat.lt_succ_self k, hnew⟩
    · obtain ⟨base, hbase, k', hk, hnew⟩ := ih h.2 hn
      exact ⟨base, hbase, k', Nat.lt_of_succ_lt hk, hnew⟩

/-- Different numbers make different names. -/
theorem nodup (h : Numbered r bases k ns) : ns.Nodup := by
  induction ns generalizing k with
  | nil => exact List.nodup_nil
  | cons n ns ih =>
    refine List.nodup_cons.2 ⟨fun hn => ?_, ih h.2⟩
    obtain ⟨base, -, hf, -⟩ := h.1
    obtain ⟨base', -, k', hk, hf', -⟩ := exists_of_mem h.2 hn
    have hname := (List.cons.inj (Registry.find?_inj hf hf')).1
    exact Nat.ne_of_lt hk (madeName_inj hname).2

end Numbered

/-- A construction makes nonterminals, which it declares transparent, and rules. The rules are for
those nonterminals and some of the written ones. -/
structure Made (bases : Set String) (written : Set Handle) (l l' : Lowering) (ns : List Handle)
    (added : List Rule) : Prop where
  registry : l.registry.Extends l'.registry
  rules : l'.rules = l.rules ++ added
  kinds : l'.kinds = l.kinds ++ ns.map (·, .transparent)
  made : l'.made = l.made + ns.length
  numbered : Numbered l'.registry bases l.made ns
  own : ∀ rule ∈ added, rule.lhs ∈ ns ∨ rule.lhs ∈ written

namespace Made

variable {bases bases' : Set String} {written written' : Set Handle} {n : Handle}
  {ns ns' : List Handle} {added added' : List Rule}

theorem refl (bases : Set String) (written : Set Handle) (l : Lowering) :
    Made bases written l l [] [] where
  registry := .refl _
  rules := (List.append_nil _).symm
  kinds := (List.append_nil _).symm
  made := rfl
  numbered := trivial
  own := fun _ h => absurd h List.not_mem_nil

theorem trans (h : Made bases written l l' ns added) (h' : Made bases written l' l'' ns' added') :
    Made bases written l l'' (ns ++ ns') (added ++ added') where
  registry := h.registry.trans h'.registry
  rules := by rw [h'.rules, h.rules, List.append_assoc]
  kinds := by rw [h'.kinds, h.kinds, List.map_append, List.append_assoc]
  made := by rw [h'.made, h.made, List.length_append, Nat.add_assoc]
  numbered := (h.numbered.mono h'.registry subset_rfl).append (h.made ▸ h'.numbered)
  own rule hrule := by
    rw [List.mem_append]
    rcases List.mem_append.1 hrule with hrule | hrule
    · exact (h.own rule hrule).imp_left .inl
    · exact (h'.own rule hrule).imp_left .inr

theorem mono (h : Made bases written l l' ns added) (hb : bases ⊆ bases')
    (hw : written ⊆ written') : Made bases' written' l l' ns added :=
  { h with
    numbered := h.numbered.mono (.refl _) hb
    own := fun rule hrule => (h.own rule hrule).imp_right fun hmem => hw hmem }

/-- There are no rules for nonterminals that were neither made nor written. -/
theorem bodiesIn_eq_nil (h : Made bases written l l' ns added) (hn : n ∉ ns) (hw : n ∉ written) :
    bodiesIn added n = [] := by
  refine Mixfix.bodiesIn_eq_nil fun rule hrule heq => ?_
  rcases h.own rule hrule with hmem | hmem
  · exact hn (heq ▸ hmem)
  · exact hw (heq ▸ hmem)

end Made

/-- What a construction makes is what the relation says, in every registry and with all rules that
may come with time, as long as these add none for the nonterminals that it made. -/
def Follows (m : Build α) (spec : Registry → (Handle → List (List Handle)) → Making α) : Prop :=
  ∀ l a l', m l = .ok (a, l') → l'.current = l.current ∧
    ∃ ns rules, Made {l.current} ∅ l l' ns rules ∧
      ∀ {R B}, l'.registry.Extends R → ns.Nodup → (∀ n ∈ ns, B n = bodiesIn rules n) →
        spec R B a ns

theorem written_follows {group : List String} {check : Handle → Bool} {problem : Problem} :
    Follows (do let h ← intern group; if check h then return h else throw problem)
      fun r _ => Making.written r group := by
  intro l h l' hm
  obtain ⟨registry, rfl, hf, he, -⟩ := intern_check_eq_ok hm
  refine ⟨rfl, [], [], { Made.refl {l.current} ∅ l with registry := he }, fun hR _ _ => ?_⟩
  exact ⟨hR.find? hf, rfl⟩

namespace Follows

variable {spec : Registry → (Handle → List (List Handle)) → Making α}
  {spec' : Registry → (Handle → List (List Handle)) → Making β}

theorem pure (a : α) : Follows (Pure.pure a) fun _ _ => Making.pure a := by
  intro l a l' hm
  cases hm
  exact ⟨rfl, [], [], .refl _ _ _, fun _ _ _ => ⟨rfl, rfl⟩⟩

theorem map {m : Build α} (h : Follows m spec) (f : α → β) :
    Follows (do return f (← m)) fun r B => (spec r B).map f := by
  intro l b l' hm
  obtain ⟨a, l₁, hm, hp⟩ := bind_eq_ok.1 hm
  cases hp
  obtain ⟨hcurrent, ns, rules, hmade, hspec⟩ := h _ _ _ hm
  exact ⟨hcurrent, ns, rules, hmade, fun hR hnodup hB => ⟨a, hspec hR hnodup hB, rfl⟩⟩

theorem both {m : Build α} {m' : Build β} (h : Follows m spec) (h' : Follows m' spec')
    (f : α → β → γ) : Follows (do let a ← m; return f a (← m'))
      fun r B => Making.both f (spec r B) (spec' r B) := by
  intro l c l₂ hm
  obtain ⟨a, l₁, hm₁, hm⟩ := bind_eq_ok.1 hm
  obtain ⟨b, l₃, hm', hp⟩ := bind_eq_ok.1 hm
  cases hp
  obtain ⟨hcurrent, ns, rules, hmade, hspec⟩ := h _ _ _ hm₁
  obtain ⟨hcurrent', ns', rules', hmade', hspec'⟩ := h' _ _ _ hm'
  rw [hcurrent] at hmade'
  refine ⟨hcurrent'.trans hcurrent, _, _, hmade.trans hmade', fun {R B} hR hnodup hB => ?_⟩
  obtain ⟨hnodup₁, hnodup₂, hdisjoint⟩ := List.nodup_append'.1 hnodup
  refine ⟨a, b, ns, ns', hspec (hmade'.registry.trans hR) hnodup₁ fun n hn => ?_,
    hspec' hR hnodup₂ fun n hn => ?_, rfl, rfl⟩
  -- Neither construction makes rules for the nonterminals of the other.
  · rw [hB n (List.mem_append_left _ hn), bodiesIn_append,
      hmade'.bodiesIn_eq_nil (hdisjoint hn) (Set.notMem_empty n), List.append_nil]
  · rw [hB n (List.mem_append_right _ hn), bodiesIn_append,
      hmade.bodiesIn_eq_nil (fun hn' => hdisjoint hn' hn) (Set.notMem_empty n), List.nil_append]

/-- A new nonterminal has the rules around the bodies and no others. -/
theorem block {bodies : Build (List (List Handle))}
    {spec : Registry → (Handle → List (List Handle)) → Making (List (List Handle))}
    (h : Follows bodies spec) (pre : Handle → List (List Handle))
    (post : Handle → List (List Handle) → List (List Handle)) :
    Follows (block pre post bodies)
      fun r B => Making.new B (fun n bs => pre n ++ post n bs) (spec r B) := by
  intro l n l' hm
  obtain ⟨l₁, bs, l₂, hfresh, hb, rfl⟩ := block_eq_ok hm
  have hadds := adds_of_fresh hfresh
  have hkinds : l₁.kinds = l.kinds ++ [(n, .transparent)] := hadds.declared
  have hcurrent : l₁.current = l.current := hadds.current
  obtain ⟨registry, kinds, rfl, hf, he, hn⟩ := fresh_eq_ok hfresh
  obtain ⟨hcurrent', ns, rules, hmade, hspec⟩ := h _ _ _ hb
  have hpre : l₂.rules = l.rules ++ (pre n).map (Rule.mk n) ++ rules := hmade.rules
  have hmade' : l₂.made = l.made + 1 + ns.length := hmade.made
  have hdeclared : l₂.kinds = kinds ++ ns.map (·, .transparent) := hmade.kinds
  have hregistry : registry.Extends l₂.registry := hmade.registry
  refine ⟨hcurrent', n :: ns, (pre n).map (Rule.mk n) ++ rules ++ (post n bs).map (Rule.mk n),
    { registry := he.trans hregistry
      rules := ?_
      kinds := ?_
      made := ?_
      numbered := ⟨⟨l.current, rfl, hregistry.find? hf, hn⟩, hmade.numbered⟩
      own := fun rule hrule => .inl ?_ }, fun {R B} hR hnodup hB => ?_⟩
  · show l₂.rules ++ _ = _
    rw [hpre]
    simp only [List.append_assoc]
  · show l₂.kinds = _
    rw [hdeclared, show kinds = _ from hkinds, List.append_assoc]
    rfl
  · show l₂.made = _
    rw [hmade', List.length_cons, Nat.add_assoc, Nat.add_comm 1]
  · simp only [List.mem_append, List.mem_map] at hrule
    rcases hrule with (⟨_, -, rfl⟩ | hrule) | ⟨_, -, rfl⟩
    · exact List.mem_cons_self
    · exact List.mem_cons_of_mem n ((hmade.own rule hrule).resolve_right (Set.notMem_empty _))
    · exact List.mem_cons_self
  · obtain ⟨hn, hnodup⟩ := List.nodup_cons.1 hnodup
    refine ⟨bs, ns, hspec hR hnodup fun n' hn' => ?_, ?_, rfl⟩
    · have hne : n ≠ n' := fun heq => hn (heq ▸ hn')
      rw [hB n' (List.mem_cons_of_mem n hn'), bodiesIn_append, bodiesIn_append,
        bodiesIn_map_of_ne hne, bodiesIn_map_of_ne hne, List.append_nil, List.nil_append]
    · rw [hB n List.mem_cons_self, bodiesIn_append, bodiesIn_append, bodiesIn_map, bodiesIn_map,
        hmade.bodiesIn_eq_nil hn (Set.notMem_empty n), List.append_nil]

variable {bodies : Build (List (List Handle))}
  {spec : Registry → (Handle → List (List Handle)) → Making (List (List Handle))}

theorem choiceOf (h : Follows bodies spec) :
    Follows (choiceOf bodies) fun r B => Making.choice B (spec r B) := by
  rw [choiceOf_eq]
  exact h.block _ _

theorem optOf (h : Follows bodies spec) :
    Follows (optOf bodies) fun r B => Making.option B (spec r B) := by
  rw [optOf_eq]
  exact h.block _ _

theorem starOf (h : Follows bodies spec) :
    Follows (starOf bodies) fun r B => Making.star B (spec r B) := by
  rw [starOf_eq]
  exact h.block _ _

theorem plusOf (h : Follows bodies spec) :
    Follows (plusOf bodies) fun r B => Making.plus B (spec r B) := by
  rw [plusOf_eq]
  exact (h.starOf.both h _).choiceOf

end Follows

mutual

theorem bodiesOf_follows : ∀ e : Expr, Follows (bodiesOf e) fun r B => BodiesFor r B e
  | .alt es => by
    simp only [bodiesOf, BodiesFor]
    exact sequences_follows es
  | .seq parts => by
    simp only [bodiesOf, BodiesFor]
    exact (symbols_follows parts).map _
  | .nonTerminal name => by
    simp only [bodiesOf, BodiesFor]
    exact written_follows.map _
  | .terminal group => by
    simp only [bodiesOf, BodiesFor]
    exact written_follows.map _
  | .opt body => by
    simp only [bodiesOf, BodiesFor]
    exact (bodiesOf_follows body).optOf.map _
  | .star body => by
    simp only [bodiesOf, BodiesFor]
    exact (bodiesOf_follows body).starOf.map _
  | .plus body => by
    simp only [bodiesOf, BodiesFor]
    exact (bodiesOf_follows body).plusOf.map _

theorem sequences_follows : ∀ es : List Expr, Follows (sequences es) fun r B => RowsFor r B es
  | [] => by
    simp only [sequences, RowsFor]
    exact .pure []
  | .seq parts :: es => by
    simp only [sequences, RowsFor]
    exact (symbols_follows parts).both (sequences_follows es) _
  | .nonTerminal _ :: es | .terminal _ :: es | .alt _ :: es | .opt _ :: es | .star _ :: es
  | .plus _ :: es => by
    simp only [sequences, RowsFor]
    exact (symbolOf_follows _).both (sequences_follows es) fun symbol rows => [symbol] :: rows

theorem symbols_follows : ∀ es : List Expr, Follows (symbols es) fun r B => RowFor r B es
  | [] => by
    simp only [symbols, RowFor]
    exact .pure []
  | e :: es => by
    simp only [symbols, RowFor]
    exact (symbolOf_follows e).both (symbols_follows es) _

theorem symbolOf_follows : ∀ e : Expr, Follows (symbolOf e) fun r B => SymbolFor r B e
  | .alt es => by
    simp only [symbolOf, SymbolFor]
    exact (sequences_follows es).choiceOf
  | .seq parts => by
    simp only [symbolOf, SymbolFor]
    exact ((symbols_follows parts).map _).choiceOf
  | .nonTerminal name => by
    simp only [symbolOf, SymbolFor]
    exact written_follows
  | .terminal group => by
    simp only [symbolOf, SymbolFor]
    exact written_follows
  | .opt body => by
    simp only [symbolOf, SymbolFor]
    exact (bodiesOf_follows body).optOf
  | .star body => by
    simp only [symbolOf, SymbolFor]
    exact (bodiesOf_follows body).starOf
  | .plus body => by
    simp only [symbolOf, SymbolFor]
    exact (bodiesOf_follows body).plusOf

end

/-! ### All rules -/

/-- The nonterminals that the rules are for. -/
def writtenFor (r : Registry) (sources : List (String × Expr)) : Set Handle :=
  {h | ∃ source ∈ sources, r.find? [source.1] = some h}

/-- What is made for one rule. -/
theorem lowerRule_made {name : String} {body : Expr} (hm : lowerRule name body l = .ok ((), l')) :
    ∃ lhs bs ns added, l'.registry.find? [name] = some lhs ∧
      Made {name} {lhs} l l' ns (added ++ bs.map (Rule.mk lhs)) ∧
      ∀ {R B}, l'.registry.Extends R → ns.Nodup → lhs ∉ ns →
        (∀ n ∈ ns, B n = bodiesIn (added ++ bs.map (Rule.mk lhs)) n) →
          BodiesFor R B body.normalize bs ns := by
  obtain ⟨lhs, registry, bs, l₁, hf, -, he, hb, rfl⟩ := lowerRule_eq_ok hm
  obtain ⟨-, ns, added, hmade, hspec⟩ := bodiesOf_follows _ _ _ _ hb
  have hrules : l₁.rules = l.rules ++ added := hmade.rules
  refine ⟨lhs, bs, ns, added, hmade.registry.find? hf,
    { registry := he.trans hmade.registry
      rules := ?_
      kinds := hmade.kinds
      made := hmade.made
      numbered := hmade.numbered
      own := fun rule hrule => ?_ }, fun hR hnodup hlhs hB => hspec hR hnodup fun n hn => ?_⟩
  · show l₁.rules ++ _ = _
    rw [hrules, List.append_assoc]
  · rcases List.mem_append.1 hrule with hrule | hrule
    · exact (hmade.own rule hrule).imp_right fun h => absurd h (Set.notMem_empty _)
    · obtain ⟨body', -, rfl⟩ := List.mem_map.1 hrule
      exact .inr rfl
  · have hne : lhs ≠ n := fun heq => hlhs (heq ▸ hn)
    rw [hB n hn, bodiesIn_append, bodiesIn_map_of_ne hne, List.append_nil]

/-- What is made for all rules. -/
theorem lowerAll_made {sources : List (String × Expr)} (hm : lowerAll sources l = .ok ((), l')) :
    ∃ ns added,
      Made {name | name ∈ sources.map (·.1)} (writtenFor l'.registry sources) l l' ns added ∧
      ∀ {R B}, l'.registry.Extends R → ns.Nodup → (∀ n ∈ ns, n ∉ writtenFor l'.registry sources) →
        (∀ n ∈ ns, B n = bodiesIn added n) → (∀ rule ∈ added, rule.rhs ∈ B rule.lhs) →
          RulesFor R B sources ns := by
  induction sources generalizing l with
  | nil =>
    cases hm
    exact ⟨[], [], .refl _ _ _, fun _ _ _ _ _ => rfl⟩
  | cons source sources ih =>
    obtain ⟨l₁, hrule, hrules⟩ := lowerAll_cons_eq_ok hm
    obtain ⟨lhs, bs, ns, added, hf, hmade, hspec⟩ := lowerRule_made hrule
    obtain ⟨ns', added', hmade', hspec'⟩ := ih hrules
    have hf' := hmade'.registry.find? hf
    have hlhs : lhs ∈ writtenFor l'.registry (source :: sources) :=
      ⟨source, List.mem_cons_self, hf'⟩
    have hsub : writtenFor l'.registry sources ⊆ writtenFor l'.registry (source :: sources) :=
      fun _ ⟨other, hmem, hfind⟩ => ⟨other, List.mem_cons_of_mem _ hmem, hfind⟩
    refine ⟨ns ++ ns', _, (hmade.mono ?_ ?_).trans (hmade'.mono ?_ hsub),
      fun {R B} hR hnodup hwritten hB hall => ?_⟩
    · exact Set.singleton_subset_iff.2 List.mem_cons_self
    · exact Set.singleton_subset_iff.2 hlhs
    · exact fun _ hname => List.mem_cons_of_mem _ hname
    obtain ⟨hnodup₁, hnodup₂, hdisjoint⟩ := List.nodup_append'.1 hnodup
    -- A nonterminal that is made for one rule is not one that a rule is for.
    have hnew : ∀ n ∈ ns ++ ns', n ∉ writtenFor l'.registry sources := fun n hn hmem =>
      hwritten n hn (hsub hmem)
    have hnew' : ∀ n ∈ ns ++ ns', n ∉ ({lhs} : Set Handle) := fun n hn hmem =>
      hwritten n hn (Set.mem_singleton_iff.1 hmem ▸ hlhs)
    refine ⟨lhs, bs, ns, ns', hR.find? hf', ?_, fun body hbody => ?_, ?_, rfl⟩
    · refine hspec (hmade'.registry.trans hR) hnodup₁ (fun hmem => ?_) fun n hn => ?_
      · exact hnew' lhs (List.mem_append_left _ hmem) rfl
      · rw [hB n (List.mem_append_left _ hn), bodiesIn_append, hmade'.bodiesIn_eq_nil (hdisjoint hn)
          (hnew n (List.mem_append_left _ hn)), List.append_nil]
    · refine hall ⟨lhs, body⟩ (List.mem_append_left _ (List.mem_append_right _ ?_))
      exact List.mem_map_of_mem hbody
    · refine hspec' hR hnodup₂ (fun n hn => hnew n (List.mem_append_right _ hn)) (fun n hn => ?_)
        fun rule hrule => hall rule (List.mem_append_right _ hrule)
      rw [hB n (List.mem_append_right _ hn), bodiesIn_append,
        hmade.bodiesIn_eq_nil (fun hn' => hdisjoint hn' hn)
          (hnew' n (List.mem_append_right _ hn)), List.nil_append]

end Lowering

/-- A nonterminal has the kind that comes first, or is tagged with its name. -/
theorem Grammar.kind_of_find? {G : Grammar} {name : String} {X : Handle}
    (hf : G.registry.find? [name] = some X) (hn : X.isNonTerminal) :
    G.kind X = .ok ((G.kinds.lookup X).getD (.tagged name)) := by
  cases h : G.kinds.lookup X with
  | some kind => rw [Grammar.kind, h, Option.getD_some]
  | none =>
    refine Grammar.kind_of_notMem hf hn fun hX => ?_
    obtain ⟨entry, hentry, rfl⟩ := List.mem_map.1 hX
    have hne := List.lookup_eq_none_iff.1 h entry hentry
    simp at hne

namespace ExprGrammar

variable {g : ExprGrammar} {G : Grammar}

/-- No name that the user wrote is one that lowering makes: that of a rule with a number after
`~`. -/
def Unmade (g : ExprGrammar) : Prop :=
  ∀ name ∈ g.nonTerminals, ∀ rule ∈ g.rules, ∀ k, name ≠ madeName rule.1 k

/-- The made nonterminals are kept apart. -/
structure KeepsApart (g : ExprGrammar) (G : Grammar) (made : List Handle) : Prop where
  /-- Every one is different from every other. -/
  nodup : made.Nodup
  /-- None is one that the user wrote. -/
  unwritten : ∀ name ∈ g.nonTerminals, ∃ X, G.registry.find? [name] = some X ∧ X ∉ made
  /-- Each has the rules of its own sub-expression. -/
  rules : Lowering.RulesFor G.registry (bodiesIn G.rules) g.rules made
  transparent : ∀ n ∈ made, G.kind n = .ok .transparent
  /-- A written nonterminal appears as the user said last, or under its name. -/
  declared : ∀ name ∈ g.nonTerminals, name ≠ augmentedStart → ∀ X,
    G.registry.find? [name] = some X →
      G.kind X = .ok ((g.kinds.reverse.lookup name).getD (.tagged name))

/-- A handle has the kinds of its name. -/
theorem lookup_of_forall₂ {r : Registry} {kinds : List (String × Kind)}
    {handles : List (Handle × Kind)} (h : List.Forall₂ (fun given made =>
      r.find? [given.1] = some made.1 ∧ made.2 = given.2) kinds handles) {name : String}
    {X : Handle} (hX : r.find? [name] = some X) : handles.lookup X = kinds.lookup name := by
  induction h with
  | nil => rfl
  | @cons given made _ _ hmade _ ih =>
    obtain ⟨hf, hkind⟩ := hmade
    rw [List.lookup_cons, List.lookup_cons, ih, hkind]
    by_cases heq : name = given.1
    · subst heq
      cases hf.symm.trans hX
      rw [beq_self_eq_true, beq_self_eq_true]
    · have hne : X ≠ made.1 := by
        rintro rfl
        exact heq (List.cons.inj (Registry.find?_inj hX hf)).1
      rw [beq_false_of_ne heq, beq_false_of_ne hne]

/-- After the augmented one, the given kinds come first and then those of the new nonterminals. -/
theorem lookup_kinds {augmented X : Handle} (hX : X ≠ augmented) (ns : List Handle)
    (kinds : List (Handle × Kind)) :
    ((augmented, .transparent) :: (ns.map (·, Kind.transparent) ++ kinds).reverse).lookup X =
      (kinds.reverse.lookup X).or (if X ∈ ns then some .transparent else none) := by
  have hmade : ∀ ns : List Handle,
      (ns.map (·, Kind.transparent)).lookup X = if X ∈ ns then some .transparent else none := by
    intro ns
    induction ns with
    | nil => rfl
    | cons n ns ih =>
      rw [List.map_cons, List.lookup_cons, ih]
      by_cases h : X = n
      · simp [h]
      · simp [beq_false_of_ne h, h]
  rw [List.lookup_cons, beq_false_of_ne hX, List.reverse_append, List.lookup_append,
    ← List.map_reverse, hmade]
  simp

section

variable {r : Registry} {ns : List Handle} {n : Handle} {name : String}

/-- A made nonterminal is not the augmented one. -/
theorem find?_augmentedStart_ne {bases : Set String} {k : Nat}
    (hnumbered : Lowering.Numbered r bases k ns) (hn : n ∈ ns) :
    r.find? [augmentedStart] ≠ some n := by
  intro hfind
  obtain ⟨base, -, k, -, hf, -⟩ := hnumbered.exists_of_mem hn
  exact madeName_ne_augmentedStart base k (List.cons.inj (Registry.find?_inj hf hfind)).1

/-- A made nonterminal is no written one. -/
theorem Unmade.find?_ne (hnames : g.Unmade)
    (hnumbered : Lowering.Numbered r {name | name ∈ g.rules.map (·.1)} 0 ns) (hn : n ∈ ns)
    (hname : name ∈ g.nonTerminals) : r.find? [name] ≠ some n := by
  intro hfind
  obtain ⟨base, hbase, k, -, hf, -⟩ := hnumbered.exists_of_mem hn
  obtain ⟨rule, hrule, rfl⟩ := List.mem_map.1 hbase
  exact hnames name hname rule hrule k (List.cons.inj (Registry.find?_inj hfind hf)).1

/-- The user gave no kind to a made nonterminal. -/
theorem Unmade.lookup_kinds_eq_none (hnames : g.Unmade)
    (hnumbered : Lowering.Numbered r {name | name ∈ g.rules.map (·.1)} 0 ns) (hn : n ∈ ns)
    (hnon : n.isNonTerminal) (hfind : r.find? [name] = some n) :
    g.kinds.reverse.lookup name = none := by
  rw [List.lookup_eq_none_iff]
  intro entry hentry
  rw [bne_iff_ne]
  rintro rfl
  refine hnames.find?_ne hnumbered hn (List.mem_append_right _ (List.mem_filter.2 ⟨?_, ?_⟩)) hfind
  · exact List.mem_map_of_mem (List.mem_reverse.1 hentry)
  · exact (Registry.isNonTerminal_of_find? hfind).symm.trans hnon

end

/-- **Lowering keeps new nonterminals apart**, unless the user wrote a name that it makes. -/
theorem lower_keepsApart (h : g.lower.result = .ok G) (hnames : g.Unmade) :
    ∃ start l, (Lowering.lowerRules g).run {} = .ok (start, l) ∧ l.kinds.length = l.made ∧
      g.KeepsApart G (l.kinds.map (·.1)) := by
  have hknows := knows_of_lower h
  obtain ⟨start, l, r, kinds, r', hrules, hdeclare, hintern, hof⟩ := lower_eq_ok h
  obtain ⟨augmented, registry, haug, rfl, -⟩ := Grammar.ofRules_eq_ok hof
  obtain ⟨registry₀, -, -, hall⟩ := Lowering.lowerRules_eq_ok hrules
  obtain ⟨hfind, hext⟩ := Registry.intern_spec haug
  obtain ⟨hissues, hdeclared⟩ := internKinds_issues hintern
  have hR : l.registry.Extends registry :=
    ((declareAll_extends hdeclare).trans hissues.toExtends).trans hext
  obtain ⟨ns, added, hmade, hspec⟩ := Lowering.lowerAll_made hall
  have hadded : l.rules = added := hmade.rules
  have hcount : l.made = 0 + ns.length := hmade.made
  have hkinds : l.kinds = ns.map (·, .transparent) := hmade.kinds
  have hns : l.kinds.map (·.1) = ns := by
    rw [hkinds, List.map_map]
    exact List.map_id ns
  have hnumbered := hmade.numbered.mono hR subset_rfl
  have haugmented : ∀ n ∈ ns, n ≠ augmented := fun n hn heq =>
    find?_augmentedStart_ne hnumbered hn (heq ▸ hfind)
  -- A nonterminal has the kind that the user gave to its name, or that it got when it was made.
  have hkind : ∀ {name X}, registry.find? [name] = some X → X.isNonTerminal → X ≠ augmented →
      Grammar.kind ⟨registry, ⟨augmented, [start]⟩ :: l.rules, start,
        (augmented, .transparent) :: (l.kinds ++ kinds).reverse⟩ X =
        .ok (((g.kinds.reverse.lookup name).or
          (if X ∈ ns then some .transparent else none)).getD (.tagged name)) := by
    intro name X hX hnon hne
    have hgiven : kinds.reverse.lookup X = g.kinds.reverse.lookup name :=
      lookup_of_forall₂ (List.forall₂_reverse_iff.2
        (hdeclared.imp fun _ _ hmade => ⟨hext.find? hmade.1, hmade.2⟩)) hX
    rw [Grammar.kind_of_find? hX hnon, hkinds, lookup_kinds hne, hgiven]
  refine ⟨start, l, hrules, by rw [hkinds, List.length_map, hcount, Nat.zero_add], ?_⟩
  rw [hns]
  refine
    { nodup := hnumbered.nodup
      unwritten := fun name hmem => ?_
      rules := ?_
      transparent := fun n hn => ?_
      declared := fun name hmem hne X hX => ?_ }
  · obtain ⟨X, hX, -⟩ := hknows name hmem
    exact ⟨X, hX, fun hn => hnames.find?_ne hnumbered hn hmem hX⟩
  · refine hspec hR hnumbered.nodup (fun n hn ⟨source, hsource, hf⟩ => ?_) (fun n hn => ?_)
      fun rule hrule => mem_bodiesIn (List.mem_cons_of_mem _ (hadded ▸ hrule))
    · refine hnames.find?_ne hnumbered hn (List.mem_append_left _ (List.mem_cons_of_mem _ ?_))
        (hR.find? hf)
      exact List.mem_flatMap.2 ⟨source, hsource, List.mem_cons_self⟩
    · rw [← List.singleton_append, bodiesIn_append,
        bodiesIn_eq_nil (List.forall_mem_singleton.2 (haugmented n hn).symm), List.nil_append,
        hadded]
  · obtain ⟨base, -, k, -, hf, hnon⟩ := hnumbered.exists_of_mem hn
    rw [hkind hf hnon (haugmented n hn), hnames.lookup_kinds_eq_none hnumbered hn hnon hf,
      if_pos hn]
    rfl
  · obtain ⟨X', hX', hnon⟩ := hknows name hmem
    cases hX.symm.trans hX'
    have hX' : X ≠ augmented := by
      rintro rfl
      exact hne (List.cons.inj (Registry.find?_inj hX hfind)).1
    rw [hkind hX hnon hX', if_neg fun hn => hnames.find?_ne hnumbered hn hmem hX, Option.or_none]

/-- Any number of `A~1`, each a letter or some letters with such a row behind each: the name of a
rule may end like that of a made nonterminal of another one. -/
def tilded : ExprGrammar where
  start := "S"
  rules :=
    [("S", .star (.nonTerminal "A~1")),
      ("A~1", .alt [.terminal ["x"], .plus (.seq [.terminal ["y"], .nonTerminal "S"])])]
  kinds := [("A~1", .discard)]

theorem unmade_tilded : tilded.Unmade := by
  intro name hname rule hrule k
  have hname : name = "S" ∨ name = "A~1" := by
    have hall : ∀ name ∈ tilded.nonTerminals, name = "S" ∨ name = "A~1" := by decide
    exact hall name hname
  rcases hname with rfl | rfl
  · intro heq
    have hmem : '~' ∈ "S".toList := by
      rw [heq, toList_madeName]
      simp
    exact absurd hmem (by decide)
  · intro heq
    have hname : madeName "A" 1 = "A~1" := by decide
    have hbase : "A" = rule.1 := (madeName_inj (hname.trans heq)).1
    have hrules : ∀ rule ∈ tilded.rules, "A" ≠ rule.1 := by simp [tilded]
    exact hrules rule hrule hbase

theorem tilded_keepsApart : ∃ G, tilded.lower.result = .ok G ∧
    ∃ start l, (Lowering.lowerRules tilded).run {} = .ok (start, l) ∧ l.kinds.length = l.made ∧
      tilded.KeepsApart G (l.kinds.map (·.1)) := by
  have hok : tilded.lower.result.isOk = true := by decide +kernel
  match h : tilded.lower.result, hok with
  | .ok G, _ => exact ⟨G, rfl, lower_keepsApart h unmade_tilded⟩

/-- A letter and `S~1`, which is another letter. -/
def clashing : ExprGrammar where
  start := "S"
  rules :=
    [("S", .seq [.alt [.terminal ["x"], .terminal ["z"]], .nonTerminal "S~1"]),
      ("S~1", .terminal ["y"])]
  distinct := [[["x"], ["y"], ["z"]]]

/-- **A written name may be made as well.** The nonterminal of the choice is the written one, which
is made transparent and has the rules of both: so the grammar derives `x x`. -/
theorem clashing_shared : ∃ G start l n, clashing.lower.result = .ok G ∧
    (Lowering.lowerRules clashing).run {} = .ok (start, l) ∧
    l.kinds = [(n, .transparent)] ∧ "S~1" ∈ clashing.nonTerminals ∧
    G.registry.find? ["S~1"] = some n ∧ G.kinds.lookup n = some .transparent ∧
    bodiesIn G.rules start = [[n, n]] ∧
    bodiesIn G.rules n = [[⟨-1⟩], [⟨-2⟩], [⟨-3⟩]] ∧ ¬ clashing.KeepsApart G [n] := by
  have hmem : "S~1" ∈ clashing.nonTerminals := by decide
  have hlowered : clashing.lower.result.toOption.any (fun G =>
      G.registry.find? ["S~1"] = some ⟨2⟩ ∧ G.kinds.lookup ⟨2⟩ = some .transparent ∧
        bodiesIn G.rules ⟨1⟩ = [[⟨2⟩, ⟨2⟩]] ∧
        bodiesIn G.rules ⟨2⟩ = [[⟨-1⟩], [⟨-2⟩], [⟨-3⟩]]) = true := by decide +kernel
  have hmade : ((Lowering.lowerRules clashing).run {}).toOption.any (fun made =>
      made.1 = ⟨1⟩ ∧ made.2.kinds = [(⟨2⟩, .transparent)]) = true := by decide +kernel
  match hG : clashing.lower.result, hl : (Lowering.lowerRules clashing).run {}, hlowered, hmade with
  | .ok G, .ok (start, l), hlowered, hmade =>
    obtain ⟨hfind, hkind, hstart, hbodies⟩ := of_decide_eq_true hlowered
    obtain ⟨rfl, hkinds⟩ := of_decide_eq_true hmade
    refine ⟨G, _, l, ⟨2⟩, rfl, rfl, hkinds, hmem, hfind, hkind, hstart, hbodies, fun h => ?_⟩
    obtain ⟨X, hX, hne⟩ := h.unwritten "S~1" hmem
    cases hfind.symm.trans hX
    exact hne (List.mem_singleton_self _)

end ExprGrammar

end Mixfix
