import Mixfix.Proofs.Grammar.NormalForm
import Mixfix.Proofs.Grammar.Preservation

/-!
# Lowering flat grammars

A flat body is a row of symbols or a choice between single symbols.  Lowering it makes no
nonterminal: every row becomes a rule with the handles of its symbols.  The registry that comes out
has the declared groups and pairs and no others.

* `Expr.rows`: the rows of a flat body.
* `Lowering.lowerAll_flat`: every rule comes from a row, and every row has a rule.
* `ExprGrammar.lower_flat_rules`: the rules and kinds of flat bodies.
* `ExprGrammar.lower_flat`: the grammar of flat bodies, one group and one pair.
-/

namespace Mixfix

/-- A member on the right has a partner on the left. -/
theorem exists_of_forall₂ {α β : Type} {R : α → β → Prop} {as : List α} {bs : List β}
    (h : List.Forall₂ R as bs) {b : β} (hb : b ∈ bs) : ∃ a ∈ as, R a b := by
  induction h with
  | nil => cases hb
  | @cons a b' as bs hab _ ih =>
    rcases List.mem_cons.1 hb with rfl | hb
    · exact ⟨a, List.mem_cons_self, hab⟩
    · obtain ⟨a', ha', h'⟩ := ih hb
      exact ⟨a', List.mem_cons_of_mem a ha', h'⟩

/-! ### Symbols -/

namespace Registry

/-- The handle stands for a symbol of an expression. -/
def Stands (r : Registry) : Expr → Handle → Prop
  | .nonTerminal name, h => r.find? [name] = some h ∧ h.isNonTerminal
  | .terminal group, h => r.find? group = some h ∧ h.isTerminal
  | _, _ => False

theorem Stands.unique {r : Registry} {e : Expr} {h h' : Handle} (hs : r.Stands e h)
    (hs' : r.Stands e h') : h = h' := by
  cases e with
  | nonTerminal name => exact Option.some.inj (hs.1.symm.trans hs'.1)
  | terminal group => exact Option.some.inj (hs.1.symm.trans hs'.1)
  | _ => exact absurd hs id

theorem Extends.stands {r r' : Registry} (he : r.Extends r') {e : Expr} {h : Handle}
    (hs : r.Stands e h) : r'.Stands e h := by
  cases e with
  | nonTerminal name => exact ⟨he.find? hs.1, hs.2⟩
  | terminal group => exact ⟨he.find? hs.1, hs.2⟩
  | seq parts => exact hs
  | alt alternatives => exact hs
  | opt body => exact hs
  | star body => exact hs
  | plus body => exact hs

end Registry

namespace Expr

/-- A single symbol. -/
def IsSymbol : Expr → Prop
  | .nonTerminal _ | .terminal _ => True
  | .seq _ | .alt _ | .opt _ | .star _ | .plus _ => False

/-- The rows of symbols of a flat body. -/
def rows : Expr → List (List Expr)
  | .alt es => es.map ([·])
  | .seq parts => [parts]
  | e => [[e]]

/-- All parts are single symbols. -/
def IsFlat (e : Expr) : Prop := ∀ row ∈ e.rows, ∀ part ∈ row, part.IsSymbol

theorem IsSymbol.rows_eq {e : Expr} (h : e.IsSymbol) : e.rows = [[e]] := by
  cases e with
  | nonTerminal _ | terminal _ => rfl
  | seq _ | alt _ | opt _ | star _ | plus _ => exact h.elim

theorem IsSymbol.isNormal {e : Expr} (h : e.IsSymbol) : e.IsNormal ∧ ¬ e.IsSeq ∧ ¬ e.IsAlt := by
  cases e with
  | nonTerminal name => exact ⟨isNormal_nonTerminal name, id, id⟩
  | terminal group => exact ⟨isNormal_terminal group, id, id⟩
  | seq _ | alt _ | opt _ | star _ | plus _ => exact h.elim

theorem normalizeParts_of_symbols {es : List Expr} (h : ∀ e ∈ es, e.IsSymbol) :
    normalizeParts es = es :=
  normalizeParts_of_normalParts fun e he => ⟨(h e he).isNormal.2.1, (h e he).isNormal.1⟩

theorem normalizeAlternatives_of_symbols {es : List Expr} (h : ∀ e ∈ es, e.IsSymbol) :
    normalizeAlternatives es = es :=
  normalizeAlternatives_of_normalAlternatives fun e he =>
    ⟨(h e he).isNormal.2.2, (h e he).isNormal.1⟩

/-- A flat body has the same rows in normal form. -/
theorem IsFlat.rows_normalize {e : Expr} (h : e.IsFlat) : e.normalize.rows = e.rows := by
  cases e with
  | nonTerminal name => rw [normalize]
  | terminal group => rw [normalize]
  | seq parts =>
    have hparts : ∀ e ∈ parts, e.IsSymbol := h parts (List.mem_singleton_self parts)
    rw [normalize, normalizeParts_of_symbols hparts]
    match parts, hparts with
    | [], _ => rfl
    | [e], hparts => exact (hparts e (List.mem_singleton_self e)).rows_eq
    | _ :: _ :: _, _ => rfl
  | alt es =>
    have hes : ∀ e ∈ es, e.IsSymbol := fun e he =>
      h [e] (List.mem_map_of_mem he) e (List.mem_singleton_self e)
    rw [normalize, normalizeAlternatives_of_symbols hes]
    match es, hes with
    | [], _ => rfl
    | [e], hes => exact (hes e (List.mem_singleton_self e)).rows_eq
    | _ :: _ :: _, _ => rfl
  | opt body => exact (h _ (List.mem_singleton_self _) _ (List.mem_singleton_self _)).elim
  | star body => exact (h _ (List.mem_singleton_self _) _ (List.mem_singleton_self _)).elim
  | plus body => exact (h _ (List.mem_singleton_self _) _ (List.mem_singleton_self _)).elim

end Expr

namespace Lowering

variable {l l' : Lowering}

/-! ### Constructions -/

/-- A handle is issued for a group, and passes a check. -/
theorem issues_of_intern_check {group : List String} {check : Handle → Bool} {problem : Problem}
    {h : Handle}
    (hm : (do let h ← intern group; if check h then return h else throw problem : Build Handle) l =
      .ok (h, l')) :
    ∃ registry, l' = { l with registry } ∧ l.registry.Issues registry ∧
      registry.find? group = some h ∧ check h := by
  obtain ⟨h', l₁, hi, hm⟩ := bind_eq_ok.1 hm
  obtain ⟨⟨h'', registry⟩, hr, he⟩ := except_bind_eq_ok.1 hi
  cases he
  split at hm
  · next hcheck =>
    cases hm
    exact ⟨registry, rfl, Registry.issues_of_intern hr, (Registry.intern_spec hr).1, hcheck⟩
  · cases hm

theorem symbolOf_flat {e : Expr} (he : e.IsSymbol) {h : Handle}
    (hm : symbolOf e l = .ok (h, l')) :
    ∃ registry, l' = { l with registry } ∧ l.registry.Issues registry ∧ registry.Stands e h := by
  cases e with
  | nonTerminal name =>
    rw [symbolOf] at hm
    exact issues_of_intern_check hm
  | terminal group =>
    rw [symbolOf] at hm
    exact issues_of_intern_check hm
  | seq _ | alt _ | opt _ | star _ | plus _ => exact he.elim

theorem symbols_flat {es : List Expr} (hes : ∀ e ∈ es, e.IsSymbol) {hs : List Handle}
    (hm : symbols es l = .ok (hs, l')) :
    ∃ registry, l' = { l with registry } ∧ l.registry.Issues registry ∧
      List.Forall₂ registry.Stands es hs := by
  induction es generalizing l l' hs with
  | nil =>
    rw [symbols] at hm
    cases hm
    exact ⟨_, rfl, .refl _, .nil⟩
  | cons e es ih =>
    obtain ⟨he, hes⟩ := List.forall_mem_cons.1 hes
    rw [symbols] at hm
    obtain ⟨h, l₁, hh, hm⟩ := bind_eq_ok.1 hm
    obtain ⟨r₁, rfl, hissue₁, hstands⟩ := symbolOf_flat he hh
    obtain ⟨hs', l₂, hhs, hm⟩ := bind_eq_ok.1 hm
    obtain ⟨r₂, rfl, hissue₂, hall⟩ := ih hes hhs
    cases hm
    exact ⟨r₂, rfl, hissue₁.trans hissue₂, .cons (hissue₂.toExtends.stands hstands) hall⟩

theorem sequences_flat {es : List Expr} (hes : ∀ e ∈ es, e.IsSymbol) {bodies : List (List Handle)}
    (hm : sequences es l = .ok (bodies, l')) :
    ∃ registry, l' = { l with registry } ∧ l.registry.Issues registry ∧
      List.Forall₂ (List.Forall₂ registry.Stands) (es.map ([·])) bodies := by
  induction es generalizing l l' bodies with
  | nil =>
    rw [sequences] at hm
    cases hm
    exact ⟨_, rfl, .refl _, .nil⟩
  | cons e es ih =>
    obtain ⟨he, hes⟩ := List.forall_mem_cons.1 hes
    have hseq : ∀ parts, e ≠ .seq parts := by
      rintro parts rfl
      exact he
    rw [sequences.eq_3 e es hseq] at hm
    obtain ⟨h, l₁, hh, hm⟩ := bind_eq_ok.1 hm
    obtain ⟨r₁, rfl, hissue₁, hstands⟩ := symbolOf_flat he hh
    obtain ⟨bodies', l₂, hbodies, hm⟩ := bind_eq_ok.1 hm
    obtain ⟨r₂, rfl, hissue₂, hall⟩ := ih hes hbodies
    cases hm
    refine ⟨r₂, rfl, hissue₁.trans hissue₂, .cons ?_ hall⟩
    exact .cons (hissue₂.toExtends.stands hstands) .nil

/-- The bodies of a flat expression are its rows. -/
theorem bodiesOf_flat {e : Expr} (he : e.IsFlat) {bodies : List (List Handle)}
    (hm : bodiesOf e l = .ok (bodies, l')) :
    ∃ registry, l' = { l with registry } ∧ l.registry.Issues registry ∧
      List.Forall₂ (List.Forall₂ registry.Stands) e.rows bodies := by
  have hsymbol : ∀ {e : Expr} {h : Handle} {l l' : Lowering}, e.IsSymbol →
      symbolOf e l = .ok (h, l') →
      ∃ registry, l' = { l with registry } ∧ l.registry.Issues registry ∧
        List.Forall₂ (List.Forall₂ registry.Stands) [[e]] [[h]] := by
    intro e h l l' he hm
    obtain ⟨registry, hl, hissue, hstands⟩ := symbolOf_flat he hm
    exact ⟨registry, hl, hissue, .cons (.cons hstands .nil) .nil⟩
  cases e with
  | alt es =>
    rw [bodiesOf] at hm
    refine sequences_flat (fun e hmem => ?_) hm
    exact he [e] (List.mem_map_of_mem hmem) e (List.mem_singleton_self e)
  | seq parts =>
    rw [bodiesOf] at hm
    obtain ⟨hs, l₁, hhs, hm⟩ := bind_eq_ok.1 hm
    cases hm
    obtain ⟨registry, hl, hissue, hall⟩ :=
      symbols_flat (he parts (List.mem_singleton_self parts)) hhs
    exact ⟨registry, hl, hissue, .cons hall .nil⟩
  | nonTerminal name =>
    rw [bodiesOf] at hm
    obtain ⟨h, l₁, hh, hm⟩ := bind_eq_ok.1 hm
    cases hm
    exact hsymbol (e := .nonTerminal name) trivial (by rw [symbolOf]; exact hh)
  | terminal group =>
    rw [bodiesOf] at hm
    obtain ⟨h, l₁, hh, hm⟩ := bind_eq_ok.1 hm
    cases hm
    exact hsymbol (e := .terminal group) trivial (by rw [symbolOf]; exact hh)
  | opt body => exact (he _ (List.mem_singleton_self _) _ (List.mem_singleton_self _)).elim
  | star body => exact (he _ (List.mem_singleton_self _) _ (List.mem_singleton_self _)).elim
  | plus body => exact (he _ (List.mem_singleton_self _) _ (List.mem_singleton_self _)).elim

/-- The rule has the handles of a row of one of the bodies, under the handle of its name. -/
def FromRow (r : Registry) (rules : List (String × Expr)) (rule : Rule) : Prop :=
  ∃ source ∈ rules, ∃ row ∈ source.2.rows, r.Stands (.nonTerminal source.1) rule.lhs ∧
    List.Forall₂ r.Stands row rule.rhs

theorem FromRow.extends {r r' : Registry} (he : r.Extends r') {rules rules' : List (String × Expr)}
    (hsub : rules ⊆ rules') {rule : Rule} (h : FromRow r rules rule) : FromRow r' rules' rule := by
  obtain ⟨source, hsource, row, hrow, hlhs, hrhs⟩ := h
  exact ⟨source, hsub hsource, row, hrow, he.stands hlhs, hrhs.imp fun _ _ => he.stands⟩

/-- The rule has the handles of a row, under the handle of a name. -/
def Writes (r : Registry) (name : String) (row : List Expr) (rule : Rule) : Prop :=
  r.Stands (.nonTerminal name) rule.lhs ∧ List.Forall₂ r.Stands row rule.rhs

theorem Writes.extends {r r' : Registry} (he : r.Extends r') {name : String} {row : List Expr}
    {rule : Rule} (h : Writes r name row rule) : Writes r' name row rule :=
  ⟨he.stands h.1, h.2.imp fun _ _ => he.stands⟩

/-- Lowering flat bodies one after the other adds a rule for each of their rows and nothing else. -/
theorem lowerAll_flat {rules : List (String × Expr)} (hflat : ∀ rule ∈ rules, rule.2.IsFlat)
    (hm : lowerAll rules l = .ok ((), l')) :
    l.registry.Issues l'.registry ∧ l'.kinds = l.kinds ∧
      ∃ new, l'.rules = l.rules ++ new ∧ (∀ rule ∈ new, FromRow l'.registry rules rule) ∧
        ∀ source ∈ rules, ∀ row ∈ source.2.rows,
          ∃ rule ∈ new, Writes l'.registry source.1 row rule := by
  induction rules generalizing l with
  | nil =>
    cases hm
    exact ⟨.refl _, rfl, [], (List.append_nil _).symm, fun _ h => (nomatch h), fun _ h => nomatch h⟩
  | cons source rules ih =>
    obtain ⟨hsource, hflat⟩ := List.forall_mem_cons.1 hflat
    obtain ⟨l₁, hrule, hrules⟩ := lowerAll_cons_eq_ok hm
    obtain ⟨lhs, l₂, hlhs, hrule⟩ := bind_eq_ok.1 hrule
    obtain ⟨r₁, rfl, hissue₁, hstands⟩ := issues_of_intern_check hlhs
    obtain ⟨⟨⟩, l₃, hcurrent, hrule⟩ := bind_eq_ok.1 hrule
    cases hcurrent
    obtain ⟨bodies, l₄, hbodies, hrule⟩ := bind_eq_ok.1 hrule
    have hnormal : source.2.normalize.IsFlat := by
      rw [Expr.IsFlat, hsource.rows_normalize]
      exact hsource
    obtain ⟨r₂, rfl, hissue₂, hrows⟩ := bodiesOf_flat hnormal hbodies
    rw [hsource.rows_normalize] at hrows
    rw [addRules_run] at hrule
    cases hrule
    obtain ⟨hissue₃, hkinds, new, hnew, hall, hmade⟩ := ih hflat hrules
    have hwrites : ∀ {row body}, List.Forall₂ r₂.Stands row body →
        Writes l'.registry source.1 row ⟨lhs, body⟩ := fun hrow =>
      ⟨(hissue₂.trans hissue₃).toExtends.stands (e := .nonTerminal source.1) hstands,
        hrow.imp fun _ _ => hissue₃.toExtends.stands⟩
    refine ⟨(hissue₁.trans hissue₂).trans hissue₃, hkinds, bodies.map (Rule.mk lhs) ++ new, ?_, ?_,
      ?_⟩
    · rw [hnew, adding, List.append_assoc]
    · intro rule hmem
      rcases List.mem_append.1 hmem with hmem | hmem
      · obtain ⟨body, hbody, rfl⟩ := List.mem_map.1 hmem
        obtain ⟨row, hrow, hstandsRow⟩ := exists_of_forall₂ hrows hbody
        exact ⟨source, List.mem_cons_self, row, hrow, hwrites hstandsRow⟩
      · exact (hall rule hmem).extends (.refl _) (List.subset_cons_self _ _)
    · intro other hother row hrow
      rcases List.mem_cons.1 hother with rfl | hother
      · obtain ⟨body, hbody, hstandsRow⟩ := exists_of_forall₂ hrows.flip hrow
        exact ⟨⟨lhs, body⟩, List.mem_append_left _ (List.mem_map_of_mem hbody), hwrites hstandsRow⟩
      · obtain ⟨rule, hmem, hwrite⟩ := hmade other hother row hrow
        exact ⟨rule, List.mem_append_right _ hmem, hwrite⟩

end Lowering

namespace ExprGrammar

variable {g : ExprGrammar} {G : Grammar} {r r' : Registry}

/-! ### Declarations -/

theorem internAll_issues {groups : List (List String)} {handles : List Handle}
    (h : internAll r groups = .ok (handles, r')) :
    r.Issues r' ∧
      List.Forall₂ (fun group handle => r'.find? group = some handle) groups handles := by
  induction groups generalizing r handles with
  | nil =>
    cases h
    exact ⟨.refl _, .nil⟩
  | cons group groups ih =>
    obtain ⟨⟨handle, r₁⟩, hi, h⟩ := except_bind_eq_ok.1 h
    obtain ⟨⟨handles', r₂⟩, hall, h⟩ := except_bind_eq_ok.1 h
    cases h
    obtain ⟨hissue, hfind⟩ := ih hall
    refine ⟨(Registry.issues_of_intern hi).trans hissue, .cons ?_ hfind⟩
    exact hissue.toExtends.find? (Registry.intern_spec hi).1

/-- The kinds of the names, by handle. -/
theorem internKinds_issues {kinds : List (String × Kind)} {handles : List (Handle × Kind)}
    (h : internKinds r kinds = .ok (handles, r')) :
    r.Issues r' ∧ List.Forall₂ (fun given made => r'.find? [given.1] = some made.1 ∧
      made.2 = given.2) kinds handles := by
  induction kinds generalizing r handles with
  | nil =>
    cases h
    exact ⟨.refl _, .nil⟩
  | cons kind kinds ih =>
    obtain ⟨⟨handle, r₁⟩, hi, h⟩ := except_bind_eq_ok.1 h
    obtain ⟨⟨handles', r₂⟩, hall, h⟩ := except_bind_eq_ok.1 h
    cases h
    obtain ⟨hissue, hmade⟩ := ih hall
    refine ⟨(Registry.issues_of_intern hi).trans hissue, .cons ⟨?_, rfl⟩ hmade⟩
    exact hissue.toExtends.find? (Registry.intern_spec hi).1

/-- The handles of a declared group. -/
theorem declareDistinct_groups {group : List (List String)}
    (h : declareDistinct r group = .ok r') :
    ∃ handles, r'.groups = r.groups ++ [handles] ∧ r'.emptyPairs = r.emptyPairs ∧
      List.Forall₂ (fun group handle => r'.find? group = some handle) group handles := by
  obtain ⟨⟨handles, r₁⟩, hi, h⟩ := except_bind_eq_ok.1 h
  obtain ⟨-, rfl⟩ := Registry.declareDistinct_eq_ok.1 h
  obtain ⟨hissue, hfind⟩ := internAll_issues (except_lift_problem_eq_ok.1 hi)
  refine ⟨handles, ?_, hissue.emptyPairs, hfind.imp fun group handle hf => ?_⟩
  · rw [← hissue.groups, Registry.pushGroup]
  · exact (r₁.extends_pushGroup handles).find? hf

/-- The handles of the first declared pair. -/
theorem declareEmptyPair_pairs {pair : List String × List String}
    (h : declareEmptyPair r pair = .ok r') (hr : r.emptyPairs = []) :
    ∃ empty nonEmpty, r'.emptyPairs = [(empty, nonEmpty)] ∧ r'.groups = r.groups ∧
      r'.find? pair.1 = some empty ∧ r'.find? pair.2 = some nonEmpty := by
  obtain ⟨⟨empty, r₁⟩, hempty, h⟩ := except_bind_eq_ok.1 h
  obtain ⟨⟨nonEmpty, r₂⟩, hnonEmpty, h⟩ := except_bind_eq_ok.1 h
  have hempty := except_lift_problem_eq_ok.1 hempty
  have hnonEmpty := except_lift_problem_eq_ok.1 hnonEmpty
  have hissue := Registry.issues_of_intern hnonEmpty
  have hissue' := (Registry.issues_of_intern hempty).trans hissue
  have hpairs : r₂.emptyPairs = [] := hissue'.emptyPairs.trans hr
  obtain ⟨-, -, -, rfl⟩ := Registry.declareEmptyPair_eq_ok.1 h
  have hnew : r₂.pushPair empty nonEmpty = { r₂ with emptyPairs := [(empty, nonEmpty)] } := by
    simp [Registry.pushPair, Registry.nonEmptyOf, hpairs]
  refine ⟨empty, nonEmpty, by rw [hnew], by rw [hnew, hissue'.groups], ?_, ?_⟩
  · exact (hissue.toExtends.trans (r₂.extends_pushPair empty nonEmpty)).find?
      (Registry.intern_spec hempty).1
  · exact (r₂.extends_pushPair empty nonEmpty).find? (Registry.intern_spec hnonEmpty).1

/-- **The rules of a flat grammar.** Every rule but the augmented one has the handles of a row of
symbols, and every row has such a rule.  The kinds are those of the names.  The registry extends the
one after the declarations, which began with the symbols of the rules. -/
theorem lower_flat_rules (h : g.lower.result = .ok G) (hflat : ∀ rule ∈ g.rules, rule.2.IsFlat) :
    ∃ augmented rules handles r r',
      G.rules = ⟨augmented, [G.start]⟩ :: rules ∧
      G.registry.find? [augmentedStart] = some augmented ∧
      G.registry.Stands (.nonTerminal g.start) G.start ∧
      (∀ rule ∈ rules, Lowering.FromRow G.registry g.rules rule) ∧
      (∀ source ∈ g.rules, ∀ row ∈ source.2.rows,
        ∃ rule ∈ rules, Lowering.Writes G.registry source.1 row rule) ∧
      G.kinds = (augmented, .transparent) :: handles.reverse ∧
      List.Forall₂ (fun given made => G.registry.find? [given.1] = some made.1 ∧
        made.2 = given.2) g.kinds handles ∧
      r.groups = [] ∧ r.emptyPairs = [] ∧ g.declareAll r = .ok r' ∧ r'.Issues G.registry := by
  obtain ⟨start, l, r, kinds, r', hrules, hdeclare, hkinds, hof⟩ := lower_eq_ok h
  obtain ⟨augmented, registry, haug, rfl, hchecks⟩ := Grammar.ofRules_eq_ok hof
  obtain ⟨start', l₁, hstart, hm⟩ := Lowering.bind_eq_ok.1 hrules
  obtain ⟨r₀, rfl, hissue₀, hfind, hn⟩ := Lowering.issues_of_intern_check hstart
  obtain ⟨⟨⟩, l₂, hall, hm⟩ := Lowering.bind_eq_ok.1 hm
  cases hm
  obtain ⟨hissue₁, hnone, new, hnew, hrows, hmade⟩ := Lowering.lowerAll_flat hflat hall
  obtain ⟨hissue₂, hhandles⟩ := internKinds_issues hkinds
  have hissue₃ := Registry.issues_of_intern haug
  -- The registry of the finished grammar extends that of the lowering.
  have hext : l.registry.Extends registry :=
    (declareAll_extends hdeclare).trans (hissue₂.trans hissue₃).toExtends
  refine ⟨augmented, l.rules, kinds, l.registry, r, rfl, (Registry.intern_spec haug).1, ?_, ?_, ?_,
    ?_, ?_, ?_, ?_, hdeclare, hissue₂.trans hissue₃⟩
  · exact (hissue₁.toExtends.trans hext).stands (e := .nonTerminal g.start) ⟨hfind, hn⟩
  · intro rule hrule
    rw [hnew] at hrule
    exact (hrows rule hrule).extends hext (List.Subset.refl _)
  · intro source hsource row hrow
    obtain ⟨rule, hrule, hwrites⟩ := hmade source hsource row hrow
    exact ⟨rule, by rw [hnew]; exact hrule, hwrites.extends hext⟩
  · rw [hnone]
    rfl
  · exact hhandles.imp fun _ _ hmade => ⟨hissue₃.toExtends.find? hmade.1, hmade.2⟩
  · exact (hissue₀.trans hissue₁).groups
  · exact (hissue₀.trans hissue₁).emptyPairs

/-- **Lowering a flat grammar.** With one group of distinct terminals and one pair, every rule but
the augmented one has the handles of a row of symbols, and the registry has the group and the pair
with the handles of their symbols. -/
theorem lower_flat {group : List (List String)} {pair : List String × List String}
    (h : g.lower.result = .ok G) (hflat : ∀ rule ∈ g.rules, rule.2.IsFlat)
    (hgroup : g.distinct = [group]) (hpair : g.emptyPairs = [pair]) (hfinals : g.finals = []) :
    (∃ augmented rules, G.rules = ⟨augmented, [G.start]⟩ :: rules ∧
      G.registry.find? [augmentedStart] = some augmented ∧
      G.registry.Stands (.nonTerminal g.start) G.start ∧
      ∀ rule ∈ rules, Lowering.FromRow G.registry g.rules rule) ∧
    (∃ handles, G.registry.groups = [handles] ∧
      List.Forall₂ (fun group handle => G.registry.find? group = some handle) group handles) ∧
    ∃ empty nonEmpty, G.registry.emptyPairs = [(empty, nonEmpty)] ∧
      G.registry.find? pair.1 = some empty ∧ G.registry.find? pair.2 = some nonEmpty := by
  obtain ⟨augmented, rules, -, r, r', hrules, haugmented, hstart, hrows, -, -, -, hnoGroups,
    hnoPairs, hdeclare, hlater⟩ := lower_flat_rules h hflat
  refine ⟨⟨augmented, rules, hrules, haugmented, hstart, hrows⟩, ?_⟩
  rw [declareAll, hgroup, hpair, hfinals] at hdeclare
  obtain ⟨r₁, hdistinct, hdeclare⟩ := except_bind_eq_ok.1 hdeclare
  obtain ⟨r₂, hempty, hdeclare⟩ := except_bind_eq_ok.1 hdeclare
  cases hdeclare
  obtain ⟨r₁', hdistinct, hnil⟩ := except_bind_eq_ok.1 hdistinct
  cases hnil
  obtain ⟨r₂', hempty, hnil⟩ := except_bind_eq_ok.1 hempty
  cases hnil
  obtain ⟨handles, hgroups, hpairs, hhandles⟩ := declareDistinct_groups hdistinct
  obtain ⟨empty, nonEmpty, hpairs', hgroups', hfind₁, hfind₂⟩ :=
    declareEmptyPair_pairs hempty (hpairs.trans hnoPairs)
  have hext := (declareEmptyPair_extends hempty).trans hlater.toExtends
  refine ⟨⟨handles, ?_, hhandles.imp fun _ _ hf => hext.find? hf⟩, empty, nonEmpty, ?_,
    hlater.toExtends.find? hfind₁, hlater.toExtends.find? hfind₂⟩
  · rw [hlater.groups, hgroups', hgroups, hnoGroups]
    rfl
  · exact hlater.emptyPairs.trans hpairs'

end ExprGrammar

end Mixfix
