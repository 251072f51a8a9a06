import Mixfix.Proofs.Grammar.Flat
import Mixfix.Proofs.Registry.Reached

/-!
# What a rule spells

Read as a regular expression over symbols, where every nonterminal stands for itself, a rule body
matches the rows of symbols that may stand directly below its nonterminal.  Lowering takes a body
apart and gives rules to new nonterminals.  With the right rows for these, every rule that is made
spells rows that its source matches.

Lowering only looks at what it makes itself, so each source may be read as if no rule had been made
before it.  What was made for the sources before it does not mention what is made for it.

* `Expr.spelling`: the rows of symbols that match an expression.
* `Lowering.Appends`: a construction adds the same rules wherever it begins.
* `ExprGrammar.lower_spelled`: every rule of a lowered grammar spells what its source matches.
-/

namespace Mixfix

/-- The nonterminals as symbols of their own. -/
def symbolic : String → Words := fun name => {[[name]]}

/-- The rows of symbols that match an expression, where every nonterminal stands for itself. -/
def Expr.spelling (e : Expr) : Words := e.denote symbolic

namespace Lowering

variable {α β : Type} {l l' : Lowering} {a : α} {R : Registry}

/-! ### What a construction adds -/

/-- The end of input is in none of some rows. -/
def Endless (bodies : List (List Handle)) : Prop := ∀ body ∈ bodies, .endOfInput ∉ body

/-- A construction leads from one lowering to another and adds these rules and kinds.  The rules are
those of new nonterminals, which are transparent, and they would be the same after any others.  What
is constructed is of some sort. -/
structure Adds (P : α → Prop) (m : Build α) (l : Lowering) (a : α) (l' : Lowering)
    (rules : List Rule) (kinds : List (Handle × Kind)) : Prop where
  sort : P a
  declared : l'.kinds = l.kinds ++ kinds
  current : l'.current = l.current
  issues : l.registry.Issues l'.registry
  transparent : ∀ kind ∈ kinds, kind.2 = .transparent ∧
    ∃ n, l'.registry.find? [madeName l.current n] = some kind.1
  own : ∀ rule ∈ rules, rule.lhs ∈ kinds.map (·.1)
  endless : ∀ rule ∈ rules, .endOfInput ∉ rule.rhs
  anywhere : ∀ before, m { l with rules := before } =
    .ok (a, { l' with rules := before ++ rules })

/-- Wherever a construction succeeds, it adds rules and kinds. -/
def Appends (P : α → Prop) (m : Build α) : Prop :=
  ∀ l a l', m l = .ok (a, l') → ∃ rules kinds, Adds P m l a l' rules kinds

theorem Adds.rules {P : α → Prop} {m : Build α} {rules : List Rule} {kinds : List (Handle × Kind)}
    (h : Adds P m l a l' rules kinds) (hm : m l = .ok (a, l')) : l'.rules = l.rules ++ rules := by
  have heq := hm.symm.trans (h.anywhere l.rules)
  rw [Except.ok.injEq, Prod.mk.injEq] at heq
  exact congrArg Lowering.rules heq.2

/-- Issuing a handle adds no rule. -/
theorem adds_of_intern_check {group : List String} {check : Handle → Bool} {problem : Problem}
    {h : Handle}
    (hm : (do let h ← intern group; if check h then return h else throw problem : Build Handle) l =
      .ok (h, l')) :
    Adds (· ≠ .endOfInput)
      (do let h ← intern group; if check h then return h else throw problem) l h l' [] [] := by
  obtain ⟨registry, rfl, hissue, hf, hcheck⟩ := issues_of_intern_check hm
  refine
    { sort := fun hend => Registry.find?_ne_end (hend ▸ hf)
      declared := (List.append_nil _).symm
      current := rfl
      issues := hissue
      transparent := fun _ h => absurd h List.not_mem_nil
      own := fun _ h => absurd h List.not_mem_nil
      endless := fun _ h => absurd h List.not_mem_nil
      anywhere := fun before => ?_ }
  -- The rules are neither read nor changed.
  obtain ⟨h', l₁, hi, hm⟩ := bind_eq_ok.1 hm
  obtain ⟨⟨_, registry'⟩, hr, he⟩ := except_bind_eq_ok.1 hi
  cases he
  rw [List.append_nil]
  refine bind_eq_ok.2 ⟨h', _, except_bind_eq_ok.2 ⟨_, hr, rfl⟩, ?_⟩
  split at hm
  · next hcheck' =>
    rw [if_pos hcheck']
    cases hm
    rfl
  · cases hm

/-- A new nonterminal is transparent and has a made name. -/
theorem adds_of_fresh {n : Handle} (hm : fresh l = .ok (n, l')) :
    Adds (· ≠ .endOfInput) fresh l n l' [] [(n, .transparent)] := by
  obtain ⟨⟨⟩, l₁, hcount, hm⟩ := bind_eq_ok.1 hm
  cases hcount
  obtain ⟨l₂, l₃, hget, hm⟩ := bind_eq_ok.1 hm
  cases hget
  obtain ⟨h, l₄, hn, hm⟩ := bind_eq_ok.1 hm
  have hadds : Adds _ (nonTerminal _) _ h l₄ [] [] := adds_of_intern_check hn
  obtain ⟨registry, rfl, hf, -, -⟩ := nonTerminal_eq_ok hn
  cases hm
  refine
    { sort := hadds.sort
      declared := rfl
      current := rfl
      issues := hadds.issues
      transparent := fun kind hkind => ?_
      own := fun _ h => absurd h List.not_mem_nil
      endless := fun _ h => absurd h List.not_mem_nil
      anywhere := fun before => ?_ }
  · rw [List.mem_singleton.1 hkind]
    exact ⟨rfl, l.made + 1, hf⟩
  · exact bind_eq_ok.2 ⟨(), _, rfl, bind_eq_ok.2 ⟨_, _, rfl,
      bind_eq_ok.2 ⟨_, _, hadds.anywhere before, rfl⟩⟩⟩

namespace Appends

variable {P : α → Prop} {Q : β → Prop}

theorem pure (ha : P a) : Appends P (Pure.pure a) := by
  intro l a' l' h
  cases h
  exact ⟨[], [],
    { sort := ha
      declared := (List.append_nil _).symm
      current := rfl
      issues := .refl _
      transparent := fun _ h => absurd h List.not_mem_nil
      own := fun _ h => absurd h List.not_mem_nil
      endless := fun _ h => absurd h List.not_mem_nil
      anywhere := fun before => by
        rw [List.append_nil]
        rfl }⟩

theorem bind {m : Build α} {f : α → Build β} (hm : Appends P m)
    (hf : ∀ a, P a → Appends Q (f a)) : Appends Q (m >>= f) := by
  intro l b l₂ h
  obtain ⟨a, l₁, hm₁, hf₁⟩ := bind_eq_ok.1 h
  obtain ⟨rules, kinds, hadds⟩ := hm l a l₁ hm₁
  obtain ⟨rules', kinds', hadds'⟩ := hf a hadds.sort l₁ b l₂ hf₁
  refine ⟨rules ++ rules', kinds ++ kinds',
    { sort := hadds'.sort
      declared := by rw [hadds'.declared, hadds.declared, List.append_assoc]
      current := hadds'.current.trans hadds.current
      issues := hadds.issues.trans hadds'.issues
      transparent := fun kind hkind => ?_
      own := fun rule hrule => ?_
      endless := fun rule hrule =>
        (List.mem_append.1 hrule).elim (hadds.endless rule) (hadds'.endless rule)
      anywhere := fun before => ?_ }⟩
  · rcases List.mem_append.1 hkind with hkind | hkind
    · obtain ⟨htransparent, n, hn⟩ := hadds.transparent kind hkind
      exact ⟨htransparent, n, hadds'.issues.find? hn⟩
    · rw [← hadds.current]
      exact hadds'.transparent kind hkind
  · rw [List.map_append, List.mem_append]
    exact (List.mem_append.1 hrule).imp (hadds.own rule) (hadds'.own rule)
  · refine bind_eq_ok.2 ⟨a, _, hadds.anywhere before, ?_⟩
    rw [← List.append_assoc]
    exact hadds'.anywhere _

theorem nonTerminal (name : String) : Appends (· ≠ .endOfInput) (nonTerminal name) :=
  fun _ _ _ hm => ⟨[], [], adds_of_intern_check hm⟩

theorem terminal (group : List String) : Appends (· ≠ .endOfInput) (terminal group) :=
  fun _ _ _ hm => ⟨[], [], adds_of_intern_check hm⟩

/-- The rules around the bodies are those of the new nonterminal. -/
theorem block {bodies : Build (List (List Handle))} (h : Appends Endless bodies)
    {pre : Handle → List (List Handle)} {post : Handle → List (List Handle) → List (List Handle)}
    (hpre : ∀ n, Endless (pre n))
    (hpost : ∀ n bs, n ≠ .endOfInput → Endless bs → Endless (post n bs)) :
    Appends (· ≠ .endOfInput) (block pre post bodies) := by
  intro l n l' hm
  obtain ⟨l₁, bs, l₂, hfresh, hb, rfl⟩ := block_eq_ok hm
  have hnew := adds_of_fresh hfresh
  obtain ⟨rules, kinds, hadds⟩ := h _ bs l₂ hb
  refine ⟨(pre n).map (Rule.mk n) ++ (rules ++ (post n bs).map (Rule.mk n)),
    (n, .transparent) :: kinds,
    { sort := hnew.sort
      declared := ?_
      current := hadds.current.trans hnew.current
      issues := hnew.issues.trans hadds.issues
      transparent := fun kind hkind => ?_
      own := fun rule hrule => ?_
      endless := fun rule hrule => ?_
      anywhere := fun before => ?_ }⟩
  · have hkinds : l₂.kinds = l₁.kinds ++ kinds := hadds.declared
    show l₂.kinds = l.kinds ++ ([(n, .transparent)] ++ kinds)
    rw [hkinds, hnew.declared, List.append_assoc]
  · rcases List.mem_cons.1 hkind with rfl | hkind
    · obtain ⟨htransparent, k, hk⟩ := hnew.transparent _ (List.mem_singleton_self _)
      exact ⟨htransparent, k, hadds.issues.find? hk⟩
    · rw [← hnew.current]
      exact hadds.transparent kind hkind
  · rw [List.map_cons, List.mem_cons]
    simp only [List.mem_append, List.mem_map] at hrule
    rcases hrule with ⟨_, -, rfl⟩ | hrule | ⟨_, -, rfl⟩
    · exact .inl rfl
    · exact .inr (hadds.own rule hrule)
    · exact .inl rfl
  · simp only [List.mem_append, List.mem_map] at hrule
    rcases hrule with ⟨body, hbody, rfl⟩ | hrule | ⟨body, hbody, rfl⟩
    · exact hpre n body hbody
    · exact hadds.endless rule hrule
    · exact hpost n bs hnew.sort hadds.sort body hbody
  · refine bind_eq_ok.2 ⟨n, _, hnew.anywhere before, ?_⟩
    refine bind_eq_ok.2 ⟨(), _, addRules_run _ _ _, ?_⟩
    refine bind_eq_ok.2 ⟨bs, _, hadds.anywhere _, ?_⟩
    refine bind_eq_ok.2 ⟨(), _, addRules_run _ _ _, ?_⟩
    simp [adding]
    rfl

end Appends

theorem Endless.single {body : List Handle} (h : .endOfInput ∉ body) : Endless [body] :=
  List.forall_mem_singleton.2 h

theorem Endless.symbol {s : Handle} (h : s ≠ .endOfInput) : Endless [[s]] :=
  .single fun hend => h (List.mem_singleton.1 hend).symm

theorem Endless.map_append {bodies : List (List Handle)} (h : Endless bodies) {s : Handle}
    (hs : s ≠ .endOfInput) : Endless (bodies.map (· ++ [s])) := by
  intro body hbody hend
  obtain ⟨front, hfront, rfl⟩ := List.mem_map.1 hbody
  rcases List.mem_append.1 hend with hend | hend
  · exact h front hfront hend
  · exact hs (List.mem_singleton.1 hend).symm

section

variable {bodies : Build (List (List Handle))}

theorem choiceOf_appends (h : Appends Endless bodies) :
    Appends (· ≠ .endOfInput) (choiceOf bodies) := by
  rw [choiceOf_eq]
  exact h.block (fun _ _ h => absurd h List.not_mem_nil) fun _ _ _ hbs => hbs

theorem optOf_appends (h : Appends Endless bodies) :
    Appends (· ≠ .endOfInput) (optOf bodies) := by
  rw [optOf_eq]
  refine h.block (fun _ _ h => absurd h List.not_mem_nil) fun _ bs _ hbs => ?_
  exact List.forall_mem_append.2 ⟨hbs, Endless.single List.not_mem_nil⟩

theorem starOf_appends (h : Appends Endless bodies) :
    Appends (· ≠ .endOfInput) (starOf bodies) := by
  rw [starOf_eq]
  exact h.block (fun _ => .single List.not_mem_nil) fun _ _ hn hbs => hbs.map_append hn

theorem plusOf_appends (h : Appends Endless bodies) :
    Appends (· ≠ .endOfInput) (plusOf bodies) := by
  rw [plusOf_eq]
  exact choiceOf_appends ((starOf_appends h).bind fun _ hrest =>
    h.bind fun _ hbs => .pure (hbs.map_append hrest))

end

mutual

/-- What the bodies of an expression add is the same wherever they are made. -/
theorem bodiesOf_appends : ∀ e : Expr, Appends Endless (bodiesOf e)
  | .alt es => by
    rw [bodiesOf]
    exact sequences_appends es
  | .seq parts => by
    rw [bodiesOf]
    exact (symbols_appends parts).bind fun _ h => .pure (.single h)
  | .nonTerminal name => by
    rw [bodiesOf]
    exact (Appends.nonTerminal name).bind fun _ h => .pure (.symbol h)
  | .terminal group => by
    rw [bodiesOf]
    exact (Appends.terminal group).bind fun _ h => .pure (.symbol h)
  | .opt body => by
    rw [bodiesOf]
    exact (optOf_appends (bodiesOf_appends body)).bind fun _ h => .pure (.symbol h)
  | .star body => by
    rw [bodiesOf]
    exact (starOf_appends (bodiesOf_appends body)).bind fun _ h => .pure (.symbol h)
  | .plus body => by
    rw [bodiesOf]
    exact (plusOf_appends (bodiesOf_appends body)).bind fun _ h => .pure (.symbol h)

theorem sequences_appends : ∀ es : List Expr, Appends Endless (sequences es)
  | [] => by
    rw [sequences]
    exact .pure fun _ h => absurd h List.not_mem_nil
  | .seq parts :: es => by
    rw [sequences]
    exact (symbols_appends parts).bind fun _ h =>
      (sequences_appends es).bind fun _ hs => .pure (List.forall_mem_cons.2 ⟨h, hs⟩)
  | .nonTerminal _ :: es | .terminal _ :: es | .alt _ :: es | .opt _ :: es | .star _ :: es
  | .plus _ :: es => by
    simp only [sequences]
    exact (symbolOf_appends _).bind fun _ h => (sequences_appends es).bind fun _ hs =>
      .pure (List.forall_mem_cons.2 ⟨Endless.symbol h _ (List.mem_singleton_self _), hs⟩)

theorem symbols_appends : ∀ es : List Expr, Appends (.endOfInput ∉ ·) (symbols es)
  | [] => by
    rw [symbols]
    exact .pure List.not_mem_nil
  | e :: es => by
    rw [symbols]
    exact (symbolOf_appends e).bind fun _ h => (symbols_appends es).bind fun _ hs =>
      .pure fun hend => (List.mem_cons.1 hend).elim (fun heq => h heq.symm) hs

theorem symbolOf_appends : ∀ e : Expr, Appends (· ≠ .endOfInput) (symbolOf e)
  | .alt es => by
    rw [symbolOf]
    exact choiceOf_appends (sequences_appends es)
  | .seq parts => by
    rw [symbolOf]
    exact choiceOf_appends ((symbols_appends parts).bind fun _ h => .pure (.single h))
  | .nonTerminal name => by
    rw [symbolOf]
    exact .nonTerminal name
  | .terminal group => by
    rw [symbolOf]
    exact .terminal group
  | .opt body => by
    rw [symbolOf]
    exact optOf_appends (bodiesOf_appends body)
  | .star body => by
    rw [symbolOf]
    exact starOf_appends (bodiesOf_appends body)
  | .plus body => by
    rw [symbolOf]
    exact plusOf_appends (bodiesOf_appends body)

end

theorem lowerRule_issues {name : String} {body : Expr}
    (hm : lowerRule name body l = .ok ((), l')) : l.registry.Issues l'.registry := by
  obtain ⟨lhs, l₁, hlhs, hm⟩ := bind_eq_ok.1 hm
  obtain ⟨registry, rfl, hissue, -, -⟩ := issues_of_intern_check hlhs
  obtain ⟨⟨⟩, l₂, hcurrent, hm⟩ := bind_eq_ok.1 hm
  cases hcurrent
  obtain ⟨bs, l₃, hb, hm⟩ := bind_eq_ok.1 hm
  rw [addRules_run] at hm
  cases hm
  obtain ⟨rules, kinds, hadds⟩ := bodiesOf_appends _ _ _ _ hb
  exact hissue.trans hadds.issues

theorem lowerAll_issues {rules : List (String × Expr)} (hm : lowerAll rules l = .ok ((), l')) :
    l.registry.Issues l'.registry := by
  induction rules generalizing l with
  | nil =>
    cases hm
    exact .refl _
  | cons rule rules ih =>
    obtain ⟨l₁, hrule, hrules⟩ := lowerAll_cons_eq_ok hm
    exact (lowerRule_issues hrule).trans (ih hrules)

/-! ### What the rules spell -/

/-- What a rule spells, given the rows of the new nonterminals: one of a new nonterminal spells rows
of that, any other spells rows that match the expression it was made for. -/
def Spells (R : Registry) (sources : List (String × Expr)) (kinds : List (Handle × Kind))
    (ρ : String → Words) (rule : Rule) : Prop :=
  (rule.lhs ∈ kinds.map (·.1) ∧ R.rowWords ρ rule.rhs ≤ R.words ρ rule.lhs) ∨
    ∃ source ∈ sources, R.find? [source.1] = some rule.lhs ∧ rule.lhs.isNonTerminal ∧
      R.rowWords ρ rule.rhs ≤ source.2.spelling

/-- New nonterminals are transparent and have made names, no rule takes the end of input, and with
some rows for the nonterminals made so far every rule spells what it should. -/
structure Spelled (R : Registry) (sources : List (String × Expr)) (l : Lowering) : Prop where
  endless : ∀ rule ∈ l.rules, .endOfInput ∉ rule.rhs
  kinds : ∀ kind ∈ l.kinds, kind.2 = .transparent ∧
    ∃ base ∈ plainNames, ∃ n, R.find? [madeName base n] = some kind.1
  rows : ∃ ρ, Set.EqOn ρ symbolic plainNames ∧ ∀ ρ', Set.EqOn ρ' ρ (namesWithin l.made) →
    ∀ rule ∈ l.rules, Spells R sources l.kinds ρ' rule

theorem Spells.mono {sources : List (String × Expr)} {kinds more : List (Handle × Kind)}
    {ρ : String → Words} {rule : Rule} (h : Spells R sources kinds ρ rule) :
    Spells R sources (kinds ++ more) ρ rule := by
  refine h.imp_left fun ⟨hmem, hle⟩ => ⟨?_, hle⟩
  rw [List.map_append]
  exact List.mem_append_left _ hmem

theorem rowWords_le_bodiesWords {ρ : String → Words} {body : List Handle}
    {bodies : List (List Handle)} (h : body ∈ bodies) :
    R.rowWords ρ body ≤ R.bodiesWords ρ bodies := by
  induction bodies with
  | nil => cases h
  | cons other bodies ih =>
    rw [Registry.bodiesWords_cons]
    rcases List.mem_cons.1 h with rfl | h
    · exact le_self_add
    · exact (ih h).trans le_add_self

/-- The rules made for a source spell what it matches, and the ones before go on to. -/
theorem Spelled.lowerRule {sources : List (String × Expr)} (h : Spelled R sources l)
    {name : String} {body : Expr} (hm : lowerRule name body l = .ok ((), l'))
    (hsource : (name, body) ∈ sources) (hR : l'.registry.Extends R)
    (hplain : ∀ n ∈ name :: body.names, n ∈ plainNames) : Spelled R sources l' := by
  obtain ⟨lhs, registry, bs, l₁, hf, hn, -, hb, rfl⟩ := lowerRule_eq_ok hm
  have hname : name ∈ plainNames := hplain name List.mem_cons_self
  obtain ⟨rules, kinds, hadds⟩ := bodiesOf_appends _ _ _ _ hb
  have hkinds : l₁.kinds = l.kinds ++ kinds := hadds.declared
  have hrules : l₁.rules = l.rules ++ rules := hadds.rules hb
  -- Without the rules before it, there is nothing yet that the rows would have to agree with.
  have htidy : Tidy R { l with registry, current := name, rules := [] } :=
    ⟨hname, fun _ _ _ => by simp [Registry.Satisfied], List.forall_mem_nil _⟩
  have r := (bodiesOf_realizes _).realized (hadds.anywhere []) hR
    (fun n hmem => hplain n (List.mem_cons_of_mem _ (Expr.names_normalize body ▸ hmem))) htidy
  obtain ⟨ρ, hsymbolic, hold⟩ := h.rows
  obtain ⟨ρ₁, heq₁, hs₁, hv₁⟩ := r.solvable symbolic ρ hsymbolic (List.forall_mem_nil _)
  have hmade : l.made ≤ l₁.made := ((bodiesOf_realizes _).grows hb).made
  refine ⟨fun rule hrule => ?_, fun kind hkind => ?_, ρ₁,
    (heq₁.mono (plainNames_subset _)).trans hsymbolic, fun ρ' heq rule hrule => ?_⟩
  · have hrule : rule ∈ l₁.rules ++ bs.map (Rule.mk lhs) := hrule
    rw [hrules, List.append_assoc] at hrule
    rcases List.mem_append.1 hrule with hrule | hrule
    · exact h.endless rule hrule
    · rcases List.mem_append.1 hrule with hrule | hrule
      · exact hadds.endless rule hrule
      · obtain ⟨body', hbody', rfl⟩ := List.mem_map.1 hrule
        exact hadds.sort body' hbody'
  · have hkind : kind ∈ l₁.kinds := hkind
    rw [hkinds] at hkind
    rcases List.mem_append.1 hkind with hkind | hkind
    · exact h.kinds kind hkind
    · obtain ⟨htransparent, n, hfind⟩ := hadds.transparent kind hkind
      exact ⟨htransparent, name, hname, n, hR.find? hfind⟩
  · show Spells R sources l₁.kinds ρ' rule
    have hrule : rule ∈ l₁.rules ++ bs.map (Rule.mk lhs) := hrule
    rw [hrules, List.append_assoc] at hrule
    rw [hkinds]
    rcases List.mem_append.1 hrule with hrule | hrule
    · exact (hold ρ' ((heq.mono (namesWithin_mono hmade)).trans heq₁) rule hrule).mono
    · rcases List.mem_append.1 hrule with hrule | hrule
      · have hs : R.Satisfied ρ' rules := (r.tidy.dependsOn heq).mpr hs₁
        refine .inl ⟨?_, hs rule hrule⟩
        rw [List.map_append]
        exact List.mem_append_right _ (hadds.own rule hrule)
      · obtain ⟨body', hbody', rfl⟩ := List.mem_map.1 hrule
        refine .inr ⟨_, hsource, ((hadds.issues.toExtends.trans hR).find? hf), hn, ?_⟩
        calc R.rowWords ρ' body'
          _ ≤ R.bodiesWords ρ' bs := rowWords_le_bodiesWords hbody'
          _ = R.bodiesWords ρ₁ bs := r.dependsOn heq
          _ = body.normalize.denote symbolic := hv₁
          _ = body.spelling := Expr.denote_normalize symbolic body

theorem Spelled.lowerAll {sources rest : List (String × Expr)} (h : Spelled R sources l)
    (hm : lowerAll rest l = .ok ((), l')) (hsub : rest ⊆ sources) (hR : l'.registry.Extends R)
    (hplain : ∀ rule ∈ rest, ∀ n ∈ rule.1 :: rule.2.names, n ∈ plainNames) :
    Spelled R sources l' := by
  induction rest generalizing l with
  | nil =>
    cases hm
    exact h
  | cons rule rest ih =>
    obtain ⟨l₁, hrule, hrest⟩ := lowerAll_cons_eq_ok hm
    obtain ⟨hp, hps⟩ := List.forall_mem_cons.1 hplain
    obtain ⟨hmem, hsub⟩ := List.cons_subset.1 hsub
    have h₁ := h.lowerRule hrule hmem ((lowerAll_grows hrest).registry.trans hR) hp
    exact ih h₁ hrest hsub hps

end Lowering

/-! ### Kinds -/

namespace Grammar

variable {g : Grammar} {X : Handle}

theorem kind_of_mem (hall : ∀ kind ∈ g.kinds, kind.2 = .transparent)
    (hX : X ∈ g.kinds.map (·.1)) : g.kind X = .ok .transparent := by
  obtain ⟨entry, hentry, rfl⟩ := List.mem_map.1 hX
  obtain ⟨kind, hkind⟩ := exists_lookup_of_mem hentry
  obtain rfl : kind = .transparent := hall _ (mem_of_lookup_eq_some hkind)
  rw [Grammar.kind, hkind]

/-- A nonterminal without a kind is tagged with its name. -/
theorem kind_of_notMem {name : String} (hf : g.registry.find? [name] = some X)
    (hn : X.isNonTerminal) (hX : X ∉ g.kinds.map (·.1)) : g.kind X = .ok (.tagged name) := by
  have hnone : g.kinds.lookup X = none := by
    rw [List.lookup_eq_none_iff]
    intro entry hentry
    rw [bne_iff_ne]
    rintro rfl
    exact hX (List.mem_map_of_mem hentry)
  have hend : X.isEnd = false := by
    rw [Handle.isEnd, decide_eq_false_iff_not]
    intro h
    simp [Handle.isNonTerminal, h] at hn
  rw [Grammar.kind, hnone, Registry.name, hend, Registry.symbolsOf, Registry.lookup?_of_find? hf,
    hn]
  rfl

end Grammar

namespace ExprGrammar

/-- The rules of a grammar spell what the expressions of another match: a rule is one of a
transparent nonterminal, which has some rows of symbols, or it is made for a source, and then its
nonterminal is tagged with the name of the source and stands for itself.  No rule takes the end of
input. -/
structure SpelledBy (g : ExprGrammar) (G : Grammar) (ρ : String → Words) : Prop where
  start : G.start.isNonTerminal ∧ G.kind G.start = .ok (.tagged g.start)
  endless : ∀ rule ∈ G.rules, .endOfInput ∉ rule.rhs
  spells : ∀ rule ∈ G.rules,
    (G.kind rule.lhs = .ok .transparent ∧
      G.registry.rowWords ρ rule.rhs ≤ G.registry.words ρ rule.lhs) ∨
    ∃ source ∈ g.rules, G.kind rule.lhs = .ok (.tagged source.1) ∧
      G.registry.words ρ rule.lhs = symbolic source.1 ∧
      G.registry.rowWords ρ rule.rhs ≤ source.2.spelling

theorem madeName_notMem_plainNames (base : String) (n : Nat) : madeName base n ∉ plainNames := by
  intro h
  apply h.2
  rw [toList_madeName]
  simp

/-- **Lowering keeps what is spelled.** A lowered grammar without declared kinds spells what its
source matches. -/
theorem lower_spelled {g : ExprGrammar} {G : Grammar} (h : g.lower.result = .ok G)
    (hkinds : g.kinds = []) (plain : ∀ name ∈ g.nonTerminals, name ∈ plainNames) :
    ∃ ρ, g.SpelledBy G ρ := by
  obtain ⟨start, l, r, kinds, r', hrules, hdeclare, hintern, hof⟩ := lower_eq_ok h
  rw [hkinds] at hintern
  cases hintern
  obtain ⟨augmented, registry, haug, hG, hchecks⟩ := Grammar.ofRules_eq_ok hof
  obtain ⟨registry₀, hstart, hn, hall⟩ := Lowering.lowerRules_eq_ok hrules
  obtain ⟨hfind, hext⟩ := Registry.intern_spec haug
  have hR : l.registry.Extends registry := (declareAll_extends hdeclare).trans hext
  have hplain : ∀ rule ∈ g.rules, ∀ n ∈ rule.1 :: rule.2.names, n ∈ plainNames := by
    intro rule hrule n hmem
    refine plain n (List.mem_append_left _ (List.mem_cons_of_mem _ ?_))
    exact List.mem_flatMap.2 ⟨rule, hrule, hmem⟩
  have hnothing : Lowering.Spelled registry g.rules { registry := registry₀ } :=
    ⟨fun _ h => absurd h List.not_mem_nil, fun _ h => absurd h List.not_mem_nil, symbolic,
      fun _ _ => rfl, fun _ _ _ h => absurd h List.not_mem_nil⟩
  have hspelled := hnothing.lowerAll hall (List.Subset.refl _) hR hplain
  obtain ⟨ρ, hsymbolic, hspells⟩ := hspelled.rows
  have hne : ∀ k, Set.EqOn (Function.update ρ augmentedStart {[[g.start]]}) ρ (namesWithin k) := by
    intro k name hname
    refine Function.update_of_ne ?_ _ _
    rintro rfl
    exact augmentedStart_notMem k hname
  have hsymbolic' := ((hne 0).mono (plainNames_subset 0)).trans hsymbolic
  -- The kinds are those of the new nonterminals and of the augmented one, all of them transparent.
  have hkind : ∀ kind ∈ (augmented, Kind.transparent) :: (l.kinds ++ []).reverse,
      kind.2 = .transparent ∧ ∀ name ∈ plainNames, registry.find? [name] ≠ some kind.1 := by
    intro kind hkind
    rcases List.mem_cons.1 hkind with rfl | hkind
    · refine ⟨rfl, fun name hname hf => hname.1 ?_⟩
      cases Registry.find?_inj hf hfind
      rfl
    · rw [List.append_nil, List.mem_reverse] at hkind
      obtain ⟨htransparent, base, -, n, hn⟩ := hspelled.kinds kind hkind
      refine ⟨htransparent, fun name hname hf => madeName_notMem_plainNames base n ?_⟩
      cases Registry.find?_inj hf hn
      exact hname
  have hstart' := ((Lowering.lowerAll_grows hall).registry.trans hR).find? hstart
  -- So a nonterminal that the user may write has no kind.
  have htagged : ∀ {name X}, name ∈ plainNames → registry.find? [name] = some X →
      X.isNonTerminal → G.kind X = .ok (.tagged name) := by
    intro name X hname hf hX
    subst hG
    refine Grammar.kind_of_notMem hf hX fun hmem => ?_
    obtain ⟨kind, hmem', rfl⟩ := List.mem_map.1 hmem
    exact (hkind kind hmem').2 name hname hf
  have hstart_plain : g.start ∈ plainNames := plain _ List.mem_cons_self
  subst hG
  have haugmented : augmented.isNonTerminal :=
    (Grammar.checkRule_eq_ok.1 (hchecks _ List.mem_cons_self)).1
  refine ⟨Function.update ρ augmentedStart {[[g.start]]},
    { start := ⟨hn, htagged hstart_plain hstart' hn⟩
      endless := List.forall_mem_cons.2 ⟨fun hend => ?_, hspelled.endless⟩
      spells := List.forall_mem_cons.2 ⟨.inl ⟨?_, ?_⟩, fun rule hrule => ?_⟩ }⟩
  · rw [← List.mem_singleton.1 hend] at hstart'
    exact Registry.find?_ne_end hstart'
  · exact Grammar.kind_of_mem (fun kind hmem => (hkind kind hmem).1) List.mem_cons_self
  · rw [Registry.rowWords_cons, Registry.rowWords_nil, mul_one,
      Registry.words_nonTerminal hstart' hn, Registry.words_nonTerminal hfind haugmented,
      Function.update_self, hsymbolic' hstart_plain]
    exact le_rfl
  · refine (hspells _ (hne _) rule hrule).imp ?_ ?_
    · rintro ⟨hmem, hle⟩
      refine ⟨Grammar.kind_of_mem (fun kind hmem => (hkind kind hmem).1) ?_, hle⟩
      rw [List.append_nil, List.map_cons, List.map_reverse]
      exact List.mem_cons_of_mem _ (List.mem_reverse.2 hmem)
    · rintro ⟨source, hsource, hf, hlhs, hle⟩
      have hname := hplain source hsource _ List.mem_cons_self
      refine ⟨source, hsource, htagged hname hf hlhs, ?_, hle⟩
      rw [Registry.words_nonTerminal hf hlhs, hsymbolic' hname]

/-! ### Empty pairs -/

theorem foldlM_emptyPairs {α : Type} {f : Registry → α → Except Failure Registry}
    (hf : ∀ {r a r'}, f r a = .ok r' → r'.emptyPairs = r.emptyPairs) {as : List α}
    {r r' : Registry} (h : as.foldlM f r = .ok r') : r'.emptyPairs = r.emptyPairs := by
  induction as generalizing r with
  | nil =>
    cases h
    rfl
  | cons a as ih =>
    rw [List.foldlM_cons] at h
    obtain ⟨r₁, ha, h⟩ := except_bind_eq_ok.1 h
    exact (ih h).trans (hf ha)

theorem markFinal_emptyPairs {group : List String} {r r' : Registry}
    (h : markFinal r group = .ok r') : r'.emptyPairs = r.emptyPairs := by
  obtain ⟨⟨t, r₁⟩, hi, h⟩ := except_bind_eq_ok.1 h
  obtain ⟨-, rfl⟩ := Registry.markFinal_eq_ok.1 h
  exact (Registry.issues_of_intern (except_lift_problem_eq_ok.1 hi)).emptyPairs

/-- Without declared pairs no terminal is possibly empty. -/
theorem lower_emptyPairs {g : ExprGrammar} {G : Grammar} (h : g.lower.result = .ok G)
    (hpairs : g.emptyPairs = []) : G.registry.emptyPairs = [] := by
  obtain ⟨start, l, r, kinds, r', hrules, hdeclare, hintern, hof⟩ := lower_eq_ok h
  obtain ⟨augmented, registry, haug, rfl, -⟩ := Grammar.ofRules_eq_ok hof
  obtain ⟨start', l₁, hstart, hm⟩ := Lowering.bind_eq_ok.1 hrules
  obtain ⟨r₀, rfl, hissue, -, -⟩ := Lowering.issues_of_intern_check hstart
  obtain ⟨⟨⟩, l₂, hall, hm⟩ := Lowering.bind_eq_ok.1 hm
  cases hm
  rw [declareAll, hpairs] at hdeclare
  obtain ⟨r₁, hdistinct, hdeclare⟩ := except_bind_eq_ok.1 hdeclare
  obtain ⟨_, hnone, hfinals⟩ := except_bind_eq_ok.1 hdeclare
  cases hnone
  have hgroups : r₁.emptyPairs = l.registry.emptyPairs := by
    refine foldlM_emptyPairs (fun {r a r'} h => ?_) hdistinct
    obtain ⟨-, -, hkeeps, -⟩ := declareDistinct_groups h
    exact hkeeps
  calc registry.emptyPairs
    _ = r'.emptyPairs := (Registry.issues_of_intern haug).emptyPairs
    _ = r.emptyPairs := (internKinds_issues hintern).1.emptyPairs
    _ = r₁.emptyPairs := foldlM_emptyPairs markFinal_emptyPairs hfinals
    _ = l.registry.emptyPairs := hgroups
    _ = [] := (hissue.trans (Lowering.lowerAll_issues hall)).emptyPairs

end ExprGrammar

end Mixfix
