import Mixfix.Proofs.Assembly.Accepted
import Mixfix.Proofs.Assembly.Language
import Mixfix.Proofs.Assembly.Trees

/-!
# Priorities

The derivation behind a result of an assembled parser respects the priorities.  What stands in a
slot above a category is a variable, a term in parentheses, or a form of a category above it; and
whatever priorities allow in the slots of a form can stand there.

* `Derivation.Through`: a tree leads to another through transparent nodes only.
* `Catalogue.Takes`: what may stand in a slot.
* `Catalogue.Assembles.exists_taken`: what stands in a slot is taken by it.
* `Catalogue.Assembles.exists_through`: what a slot takes can stand in it.
* `Catalogue.priorities_enforced`: the derivation behind a result respects the priorities.
-/

namespace Mixfix

namespace Derivation

variable {σ : Type} {g : Grammar}

/-- The tree leads to another through transparent nodes only, each with the next for its only
child. -/
inductive Through (g : Grammar) : Derivation σ → Derivation σ → Prop where
  | refl (d : Derivation σ) : Through g d d
  | step {id : Nat} {rule : Rule} {d d' : Derivation σ} : g.rules[id]? = some rule →
      g.kind rule.lhs = .ok .transparent → Through g d d' → Through g (branch id [d]) d'

/-- The tree is a part of another. -/
inductive Within : Derivation σ → Derivation σ → Prop where
  | refl (d : Derivation σ) : Within d d
  | child {d d' : Derivation σ} {id : Nat} {ds : List (Derivation σ)} : d' ∈ ds → Within d d' →
      Within d (branch id ds)

theorem Through.comparable {d x y : Derivation σ} (hx : d.Through g x) (hy : d.Through g y) :
    x.Through g y ∨ y.Through g x := by
  induction hx with
  | refl => exact .inl hy
  | step hrule hkind hd ih =>
    cases hy with
    | refl _ => exact .inr (.step hrule hkind hd)
    | step _ _ hy => exact ih hy

/-- The parts of a tree that applies the rules of a grammar do so. -/
theorem Within.fits {d d' : Derivation σ} (h : d'.Within d) {s : Handle} (hd : d.Fits g s) :
    ∃ s', d'.Fits g s' := by
  induction h generalizing s with
  | refl => exact ⟨s, hd⟩
  | child hmem _ ih =>
    rw [Fits] at hd
    obtain ⟨rule, -, -, hds⟩ := hd
    obtain ⟨s', -, hfits⟩ := exists_of_forall₂ (fitsAll_iff.1 hds).flip hmem
    exact ih hfits

end Derivation

open Mixfix.Derivation

variable {σ : Type}

namespace Catalogue

variable {c : Catalogue} {entry : Entry} {a : Assembled} {known : List String}
  {ds : List (Nat × Declaration)} {start : String}

/-- The tree is a form of the category. -/
def IsForm (c : Catalogue) (a : Assembled) (category : String) (d : Derivation σ) : Prop :=
  ∃ i decl, c.Usable i decl ∧ decl.category = category ∧ a.IsNamed (formName i) d

/-- What a slot takes: a variable, a term in parentheses, or a form, of a category above the one
that the slot names. -/
inductive Takes (c : Catalogue) (a : Assembled) (above : Option String) : Derivation σ → Prop where
  | identifier {d : Derivation σ} : a.IsToken .identifier d → Takes c a above d
  | parens {d : Derivation σ} : a.IsNamed parensName d → Takes c a above d
  | form {d : Derivation σ} {category : String} : (∀ lower ∈ above, c.Above lower category) →
      c.IsForm a category d → Takes c a above d

/-- The tree is what a fragment asks for. -/
def Suits (c : Catalogue) (a : Assembled) : Fragment → Derivation σ → Prop
  | .text text, d => a.IsToken (.literal text) d
  | .space optional, d => a.IsToken (if optional then .optionalBlank else .blank) d
  | .bound _, d => a.IsToken .identifier d
  | .free above, d => c.Takes a above d

/-- A fragment of a usable declaration is a slot or a terminal. -/
theorem suits_cases {decl : Nat × Declaration} (hdecl : decl ∈ ds) {f : Fragment}
    (hf : f ∈ decl.2.fragments) :
    (∃ above, f = .free above ∧ fragmentExpr f = .nonTerminal (slotName above) ∧
      ∀ lower ∈ above, lower ∈ tighter ds) ∨
    ∃ t ∈ Terminal.every (literalsOf ds), t ≠ .endOfInput ∧ fragmentExpr f = termExpr t ∧
      ∀ d : Derivation σ, c.Suits a f d ↔ a.IsToken t d := by
  cases f with
  | text text =>
    exact .inr ⟨_, literal_mem_every hdecl hf, by rintro ⟨⟩, rfl, fun _ => Iff.rfl⟩
  | space optional =>
    cases optional with
    | false => exact .inr ⟨.blank, by simp, by decide, rfl, fun _ => Iff.rfl⟩
    | true => exact .inr ⟨.optionalBlank, by simp, by decide, rfl, fun _ => Iff.rfl⟩
  | bound name => exact .inr ⟨.identifier, by simp, by decide, rfl, fun _ => Iff.rfl⟩
  | free above =>
    refine .inl ⟨above, rfl, by cases above <;> rfl, ?_⟩
    rintro lower rfl
    exact mem_tighter hdecl hf

theorem IsForm.unique {category category' : String} {d : Derivation σ}
    (h : c.IsForm a category d) (h' : c.IsForm a category' d) : category = category' := by
  obtain ⟨i, decl, husable, rfl, hnamed⟩ := h
  obtain ⟨i', decl', husable', rfl, hnamed'⟩ := h'
  cases formName_injective (hnamed.unique hnamed')
  rw [husable.unique husable']

/-- Rows related elementwise through what each element leads to. -/
theorem exists_forall₂ {α β γ : Type} {R : α → β → Prop} {S : β → γ → Prop} {T : α → γ → Prop}
    {xs : List α} {ys : List β} (h : List.Forall₂ R xs ys)
    (hstep : ∀ x ∈ xs, ∀ y, R x y → ∃ z, S y z ∧ T x z) :
    ∃ zs, List.Forall₂ S ys zs ∧ List.Forall₂ T xs zs := by
  induction h with
  | nil => exact ⟨[], .nil, .nil⟩
  | cons hxy _ ih =>
    obtain ⟨z, hS, hT⟩ := hstep _ List.mem_cons_self _ hxy
    obtain ⟨zs, hSs, hTs⟩ := ih fun x hx => hstep x (List.mem_cons_of_mem _ hx)
    exact ⟨z :: zs, .cons hS hSs, .cons hT hTs⟩

namespace Assembles

/-! ### What stands in a slot -/

/-- A nonterminal of terms with a single child leads through it. -/
theorem through_child (h : c.Assembles entry a known ds start) {name : String} {row : List Expr}
    (hrow : Alternative entry a.priorities ds name row) (hlayer : 2 ≤ layerOf name) {id : Nat}
    {rule : Rule} (hrule : a.table.grammar.rules[id]? = some rule)
    (hlhs : a.table.grammar.registry.find? [name] = some rule.lhs) {d d₀ : Derivation σ}
    (hd : d.Through a.table.grammar d₀) : (branch id [d]).Through a.table.grammar d₀ :=
  .step hrule (h.kind_transparent hrow hlayer hlhs) hd

/-- The way through transparent nodes ends at a term in parentheses, and at a form. -/
theorem through_eq (h : c.Assembles entry a known ds start) {name : String} (hname : IsName name)
    (hlayer : layerOf name = 1) {d d' : Derivation σ} (hd : a.IsNamed name d)
    (hthrough : d.Through a.table.grammar d') : d' = d := by
  obtain ⟨row, id, rule, children, hrow, rfl, hrule, hlhs, -⟩ := h.exists_branch hname hd
  cases hthrough with
  | refl => rfl
  | step hrule' hkind _ =>
    cases hrule.symm.trans hrule'
    exact absurd hkind (h.kind_ne_transparent hrow hlayer hlhs)

theorem eq_of_isForm (h : c.Assembles entry a known ds start) {category : String}
    {d d' : Derivation σ} (hd : c.IsForm a category d)
    (hthrough : d.Through a.table.grammar d') : d' = d := by
  obtain ⟨i, decl, -, -, hnamed⟩ := hd
  exact h.through_eq (.inr (.inr (.inr (.inr ⟨i, rfl⟩)))) (by simp) hnamed hthrough

theorem eq_of_takes (h : c.Assembles entry a known ds start) {above : Option String}
    {d d' : Derivation σ} (hd : c.Takes a above d)
    (hthrough : d.Through a.table.grammar d') : d' = d := by
  cases hd with
  | identifier htoken =>
    obtain ⟨token, rfl, -⟩ := htoken
    cases hthrough
    rfl
  | parens hparens => exact h.through_eq (.inr (.inl rfl)) (by simp) hparens hthrough
  | form _ hform => exact h.eq_of_isForm hform hthrough

/-- **A form in a slot** is of a category above the one that the slot names. -/
theorem above_of_takes (h : c.Assembles entry a known ds start) {lower category : String}
    {d x y : Derivation σ} (hx : d.Through a.table.grammar x) (htakes : c.Takes a (some lower) x)
    (hy : d.Through a.table.grammar y) (hform : c.IsForm a category y) :
    c.Above lower category := by
  obtain rfl : x = y := by
    rcases hx.comparable hy with hxy | hyx
    · exact (h.eq_of_takes htakes hxy).symm
    · exact h.eq_of_isForm hform hyx
  obtain ⟨i, decl, husable, rfl, hnamed⟩ := hform
  cases htakes with
  | identifier htoken =>
    obtain ⟨row, id, rule, children, -, hbranch, -⟩ :=
      h.exists_branch (.inr (.inr (.inr (.inr ⟨i, rfl⟩)))) hnamed
    obtain ⟨token, hleaf, -⟩ := htoken
    cases hleaf.symm.trans hbranch
  | parens hparens => exact absurd (hnamed.unique hparens) (formName_ne_parens i)
  | form habove hform' =>
    rw [IsForm.unique ⟨i, decl, husable, rfl, hnamed⟩ hform']
    exact habove lower rfl

section

variable (h : c.Assembles entry a known ds start) (hds : ∀ d, d ∈ ds ↔ c.Usable d.1 d.2)

include h hds

/-- What stands where a form of a category is asked for is one. -/
theorem exists_form {category : String} (hcategory : category ∈ populated ds) {d : Derivation σ}
    (hd : a.IsNamed (atomicName category) d) :
    ∃ d₀, d.Through a.table.grammar d₀ ∧ c.IsForm a category d₀ := by
  obtain ⟨row, id, rule, children, hrow, rfl, hrule, hlhs, hparts⟩ :=
    h.exists_branch (.inr (.inr (.inl ⟨_, rfl⟩))) hd
  obtain ⟨⟨i, decl⟩, hdecl, hcategory', rfl⟩ := hrow.of_atomic hcategory
  obtain ⟨child, _, hchild, hnil, rfl⟩ := List.forall₂_cons_left_iff.1 hparts
  cases hnil
  refine ⟨child, h.through_child hrow (by simp) hrule hlhs (.refl child), i, decl,
    (hds _).1 hdecl, hcategory', ?_⟩
  exact (isPart_name (.inr (.inr (.inr (.inr ⟨i, rfl⟩))))).1 hchild

/-- A form can stand where one of its category is asked for. -/
theorem exists_through_form {category : String} {d₀ : Derivation σ}
    (hd : c.IsForm a category d₀) :
    ∃ d, a.IsNamed (atomicName category) d ∧ d.Through a.table.grammar d₀ := by
  obtain ⟨i, decl, husable, rfl, hnamed⟩ := hd
  have hrow : Alternative entry a.priorities ds (atomicName decl.category)
    [.nonTerminal (formName i)] := .own ((hds (i, decl)).2 husable)
  have hpart := (isPart_name (.inr (.inr (.inr (.inr ⟨i, rfl⟩))))).2 hnamed
  obtain ⟨id, rule, hrule, hlhs, hd⟩ := h.exists_named hrow (.cons hpart .nil)
  exact ⟨_, hd, h.through_child hrow (by simp) hrule hlhs (.refl d₀)⟩

variable (hdraws : Draws a.priorities c.accepted)

include hdraws

/-- **What stands in a slot** is taken by it. -/
theorem exists_taken {above : Option String} {d : Derivation σ}
    (hd : a.IsNamed (slotName above) d) :
    ∃ d₀, d.Through a.table.grammar d₀ ∧ c.Takes a above d₀ := by
  obtain ⟨row, id, rule, children, hrow, rfl, hrule, hlhs, hparts⟩ :=
    h.exists_branch (isName_slotName above) hd
  have hthrough : ∀ {child d₀ : Derivation σ}, child.Through a.table.grammar d₀ →
      (branch id [child]).Through a.table.grammar d₀ :=
    h.through_child hrow (by simp) hrule hlhs
  rcases hrow.of_slot with ⟨e, he, rfl⟩ | ⟨category, hcategory, habove, rfl⟩
  · obtain ⟨child, _, hchild, hnil, rfl⟩ := List.forall₂_cons_left_iff.1 hparts
    cases hnil
    refine ⟨child, hthrough (.refl child), ?_⟩
    rw [termAlternatives, List.mem_cons, List.mem_singleton] at he
    rcases he with rfl | rfl
    · exact .identifier ((h.isPart_term (by simp) (by decide)).1 hchild)
    · exact .parens ((isPart_name (.inr (.inl rfl))).1 hchild)
  · obtain ⟨child, _, hchild, hnil, rfl⟩ := List.forall₂_cons_left_iff.1 hparts
    cases hnil
    obtain ⟨d₀, hd₀, hform⟩ := h.exists_form hds hcategory
      ((isPart_name (.inr (.inr (.inl ⟨category, rfl⟩)))).1 hchild)
    exact ⟨d₀, hthrough hd₀,
      .form (fun lower hlower => hdraws.mem_successors.1 (habove lower hlower)) hform⟩

/-- **What a slot takes** can stand in it. -/
theorem exists_through {above : Option String} (habove : ∀ lower ∈ above, lower ∈ tighter ds)
    {d₀ : Derivation σ} (hd : c.Takes a above d₀) :
    ∃ d, a.IsNamed (slotName above) d ∧ d.Through a.table.grammar d₀ := by
  have hunder : ∀ {row : List Expr} {child : Derivation σ},
      Alternative entry a.priorities ds (slotName above) row →
      List.Forall₂ a.IsPart row [child] → child.Through a.table.grammar d₀ →
      ∃ d, a.IsNamed (slotName above) d ∧ d.Through a.table.grammar d₀ := by
    intro row child hrow hchild hthrough
    obtain ⟨id, rule, hrule, hlhs, hd⟩ := h.exists_named hrow hchild
    exact ⟨_, hd, h.through_child hrow (by simp) hrule hlhs hthrough⟩
  have hplain : ∀ {e}, e ∈ termAlternatives →
      Alternative entry a.priorities ds (slotName above) [e] := by
    intro e he
    cases above with
    | none => exact .plain .any he
    | some lower => exact .plain (.above (habove lower rfl)) he
  cases hd with
  | identifier htoken =>
    exact hunder (hplain (by simp [termAlternatives]))
      (.cons ((h.isPart_term (by simp) (by decide)).2 htoken) .nil) (.refl d₀)
  | parens hparens =>
    exact hunder (hplain (by simp [termAlternatives]))
      (.cons ((isPart_name (.inr (.inl rfl))).2 hparens) .nil) (.refl d₀)
  | form hcategory hform =>
    obtain ⟨i, decl, husable, rfl, hnamed⟩ := hform
    have hpopulated : decl.category ∈ populated ds :=
      Ascending.mem_ofList.2 (List.mem_map.2 ⟨(i, decl), (hds _).2 husable, rfl⟩)
    have hrow : Alternative entry a.priorities ds (slotName above)
        [.nonTerminal (atomicName decl.category)] := by
      cases above with
      | none => exact .any hpopulated
      | some lower =>
        exact .above (habove lower rfl) (hdraws.mem_successors.2 (hcategory lower rfl)) hpopulated
    obtain ⟨child, hchild, hthrough⟩ :=
      h.exists_through_form hds ⟨i, decl, husable, rfl, hnamed⟩
    exact hunder hrow (.cons ((isPart_name (.inr (.inr (.inl ⟨_, rfl⟩)))).2 hchild) .nil) hthrough

/-! ### Forms -/

/-- What stands at a fragment of a usable declaration suits it. -/
theorem exists_filler {decl : Nat × Declaration} (hdecl : decl ∈ ds) {f : Fragment}
    (hf : f ∈ decl.2.fragments) {d : Derivation σ} (hd : a.IsPart (fragmentExpr f) d) :
    ∃ d₀, d.Through a.table.grammar d₀ ∧ c.Suits a f d₀ := by
  rcases suits_cases (c := c) (a := a) (σ := σ) hdecl hf with
    ⟨above, rfl, hexpr, -⟩ | ⟨t, ht, hne, hexpr, hsuits⟩
  · rw [hexpr, isPart_name (isName_slotName above)] at hd
    exact h.exists_taken hds hdraws hd
  · rw [hexpr, h.isPart_term ht hne] at hd
    exact ⟨d, .refl d, (hsuits d).2 hd⟩

/-- What suits a fragment of a usable declaration can stand there. -/
theorem exists_filled {decl : Nat × Declaration} (hdecl : decl ∈ ds) {f : Fragment}
    (hf : f ∈ decl.2.fragments) {d₀ : Derivation σ} (hd : c.Suits a f d₀) :
    ∃ d, d.Through a.table.grammar d₀ ∧ a.IsPart (fragmentExpr f) d := by
  rcases suits_cases (c := c) (a := a) (σ := σ) hdecl hf with
    ⟨above, rfl, hexpr, habove⟩ | ⟨t, ht, hne, hexpr, hsuits⟩
  · obtain ⟨d, hnamed, hthrough⟩ := h.exists_through hds hdraws habove hd
    rw [hexpr]
    exact ⟨d, hthrough, (isPart_name (isName_slotName above)).2 hnamed⟩
  · rw [hexpr]
    exact ⟨d₀, .refl d₀, (h.isPart_term ht hne).2 ((hsuits d₀).1 hd)⟩

/-- The children of a form lead to trees that suit its fragments. -/
theorem exists_suits {i : Nat} {id : Nat} {children : List (Derivation σ)}
    (hd : a.IsNamed (formName i) (branch id children)) :
    ∃ decl fillers, c.Usable i decl ∧
      List.Forall₂ (Through a.table.grammar) children fillers ∧
      List.Forall₂ (c.Suits a) decl.fragments fillers := by
  obtain ⟨row, id', rule, children', hrow, hbranch, -, -, hparts⟩ :=
    h.exists_branch (.inr (.inr (.inr (.inr ⟨i, rfl⟩)))) hd
  cases hbranch
  obtain ⟨⟨i', decl⟩, hdecl, rfl, rfl⟩ := hrow.of_form
  obtain ⟨fillers, hthrough, hsuits⟩ := exists_forall₂ (List.forall₂_map_left_iff.1 hparts)
    fun f hf d hd => h.exists_filler hds hdraws hdecl hf hd
  exact ⟨decl, fillers, (hds _).1 hdecl, hthrough, hsuits⟩

/-- Trees that suit the fragments of a form can stand in it. -/
theorem exists_form_of_suits {i : Nat} {decl : Declaration} (husable : c.Usable i decl)
    {fillers : List (Derivation σ)} (hsuits : List.Forall₂ (c.Suits a) decl.fragments fillers) :
    ∃ id children, List.Forall₂ (Through a.table.grammar) children fillers ∧
      a.IsNamed (formName i) (branch id children) := by
  have hdecl := (hds (i, decl)).2 husable
  obtain ⟨children, hthrough, hparts⟩ := exists_forall₂ hsuits
    fun f hf d₀ hd => h.exists_filled hds hdraws hdecl hf hd
  obtain ⟨id, rule, -, -, hnamed⟩ :=
    h.exists_named (.form hdecl) (List.forall₂_map_left_iff.2 hparts)
  exact ⟨id, children, hthrough.flip, hnamed⟩

/-- Variables suit all slots, so that every form has trees. -/
theorem exists_isForm (s : σ) {i : Nat} {decl : Declaration} (husable : c.Usable i decl) :
    ∃ d : Derivation σ, c.IsForm a decl.category d := by
  have hdecl := (hds (i, decl)).2 husable
  have hsuits : ∀ f ∈ decl.fragments, ∃ d : Derivation σ, c.Suits a f d := by
    intro f hf
    rcases suits_cases (c := c) (a := a) (σ := σ) hdecl hf with
      ⟨above, rfl, -⟩ | ⟨t, ht, -, -, hiff⟩
    · obtain ⟨d, hd⟩ := h.exists_token (t := .identifier) s (by simp)
      exact ⟨d, .identifier hd⟩
    · obtain ⟨d, hd⟩ := h.exists_token s ht
      exact ⟨d, (hiff d).2 hd⟩
  obtain ⟨fillers, hfillers⟩ := exists_forall₂_of_forall hsuits
  obtain ⟨id, children, -, hnamed⟩ := h.exists_form_of_suits hds hdraws husable hfillers
  exact ⟨_, i, decl, husable, rfl, hnamed⟩

end

end Assembles

/-! ### Derivations -/

/-- The derivation respects the priorities.  Its root leads to a form of the entry's category, if
that has any, and to no other; and the children of every form in it lead to trees that suit the
fragments. -/
structure Respects (c : Catalogue) (entry : Entry) (a : Assembled) (d : Derivation σ) : Prop where
  root : ∀ category i decl, entry = .category category → c.Usable i decl →
    decl.category = category → (∃ d₀, d.Through a.table.grammar d₀ ∧ c.IsForm a category d₀) ∧
      ∀ d₀ other, d.Through a.table.grammar d₀ → c.IsForm a other d₀ → other = category
  forms : ∀ id children rule i, (branch id children).Within d →
    a.table.grammar.rules[id]? = some rule →
    a.table.grammar.registry.find? [formName i] = some rule.lhs →
    ∃ decl fillers, c.Usable i decl ∧ List.Forall₂ (Through a.table.grammar) children fillers ∧
      List.Forall₂ (c.Suits a) decl.fragments fillers

/-- The derivations of an assembled grammar respect the priorities. -/
theorem Assembles.respects (h : c.Assembles entry a known ds start)
    (hds : ∀ d, d ∈ ds ↔ c.Usable d.1 d.2) (hdraws : Draws a.priorities c.accepted)
    {d : Derivation σ} (hd : d.Fits a.table.grammar a.table.grammar.start) :
    c.Respects entry a d where
  root := by
    rintro category i decl rfl husable rfl
    have hpopulated : decl.category ∈ populated ds :=
      Ascending.mem_ofList.2 (List.mem_map.2 ⟨(i, decl), (hds _).2 husable, rfl⟩)
    obtain ⟨d₀, hd₀, hform⟩ := h.exists_form hds hpopulated ⟨_, h.find?_entryName, hd⟩
    refine ⟨⟨d₀, hd₀, hform⟩, fun d₁ other hd₁ hother => ?_⟩
    obtain rfl : d₁ = d₀ := by
      rcases hd₀.comparable hd₁ with hthrough | hthrough
      · exact h.eq_of_isForm hform hthrough
      · exact (h.eq_of_isForm hother hthrough).symm
    exact hother.unique hform
  forms := by
    intro id children rule i hwithin hrule hlhs
    obtain ⟨X, hfits⟩ := hwithin.fits hd
    refine h.exists_suits hds hdraws ⟨X, ?_, hfits⟩
    rw [Fits] at hfits
    obtain ⟨rule', hrule', rfl, -⟩ := hfits
    cases hrule.symm.trans hrule'
    exact hlhs

/-- **Priorities are enforced.** Take an assembled parser that does not go on where it cannot.  The
derivation behind every result respects the priorities: through transparent nodes only, a slot above
a category is filled by a variable, by a term in parentheses or by a form of a category above it,
and no form of that category itself or of an unrelated one stands there; a slot for all terms is
filled by any of these; and the root is a form of the entry's category, if it has forms.  Conversely
every usable declaration has trees, and whatever trees the priorities allow in its slots can stand
there. -/
theorem priorities_enforced {config : ExecutorConfig} {sink sink' : Sink}
    (h : (c.assemble entry config sink).result = .ok (sink', .ok a))
    (hinvalid : config.invalid = none) :
    (∀ {s : σ} {w : Window} {p : Position} {parsed : Parsed σ},
      a.executor.Returns s w p (some parsed) → ∃ (d : Derivation σ) (last : Cursor σ)
        (ending : Parsed σ), d.Fits a.table.grammar a.table.grammar.start ∧
        a.executor.Chain w ⟨s, p⟩ d.tokens last ∧ a.executor.Reads w last .endOfInput ending ∧
        d.node a.table.grammar w p = .ok parsed.node ∧ c.Respects entry a d) ∧
    (∀ {lower category : String} {d x y : Derivation σ}, d.Through a.table.grammar x →
      c.Takes a (some lower) x → d.Through a.table.grammar y → c.IsForm a category y →
      c.Above lower category ∧ lower ≠ category) ∧
    ∀ {i : Nat} {decl : Declaration}, c.Usable i decl →
      (Nonempty σ → ∃ d : Derivation σ, c.IsForm a decl.category d) ∧
      ∀ fillers : List (Derivation σ), List.Forall₂ (c.Suits a) decl.fragments fillers →
        ∃ id children, List.Forall₂ (Through a.table.grammar) children fillers ∧
          a.IsNamed (formName i) (branch id children) := by
  obtain ⟨hconfig, hdraws, known, ds, start, hparts, hds⟩ := accepted_of_assemble h
  rw [← hconfig] at hinvalid
  refine ⟨fun hreturns => ?_, fun hx htakes hy hform => ?_, fun husable => ⟨fun ⟨s⟩ => ?_, ?_⟩⟩
  · obtain ⟨limit, hresult⟩ := Executor.returns_iff.1 hreturns
    obtain ⟨d, last, ending, hfits, hchain, hreads, hnode, -⟩ :=
      (Executor.consistent_start _ _).run hparts.wellFormed hparts.table hinvalid hresult
    exact ⟨d, last, ending, hfits, hchain, hreads, hnode, hparts.respects hds hdraws hfits⟩
  · have habove := hparts.above_of_takes hx htakes hy hform
    exact ⟨habove, hdraws.ne_of_transGen habove⟩
  · exact hparts.exists_isForm hds hdraws s husable
  · exact fun fillers => hparts.exists_form_of_suits hds hdraws husable

/-- Two signs, the second of which binds tighter; the first takes no other of its kind. -/
def signs : Catalogue where
  categories := [("low", none), ("high", none)]
  priorities := [⟨"low", "high", none⟩]
  declarations := [⟨"low", "not", [.text "!", .free (some "low")], none⟩,
    ⟨"high", "neg", [.text "-", .free none], none⟩]

theorem signs_above : signs.Above "low" "high" := by
  refine .single (.inr ⟨⟨by decide, by decide, by decide, fun hleads => ?_⟩, rfl⟩)
  obtain heq | ⟨_, hedge, -⟩ := Relation.ReflTransGen.cases_head hleads
  · exact absurd heq (by decide)
  · exact hedge

/-- A form of the second sign can stand after the first, and one of the first never does; and the
derivation of a sign before a variable respects the priorities of its catalogue. -/
theorem signs_enforced :
    (∃ sink a, (signs.assemble (.category "low") {} {}).result = .ok (sink, .ok a) ∧
      (∃ (sign d x : Derivation Unit) (id : Nat), a.IsNamed (formName 0) (branch id [sign, d]) ∧
        d.Through a.table.grammar x ∧ signs.IsForm a "high" x) ∧
      ∀ d x y : Derivation Unit, d.Through a.table.grammar x → signs.Takes a (some "low") x →
        d.Through a.table.grammar y → ¬ signs.IsForm a "low" y) ∧
    ∃ sink a parsed, (negations.assemble .any {} {}).result = .ok (sink, .ok a) ∧
      a.executor.Returns () (.ofSource (.ofText "- x")) .zero (some parsed) ∧
      ∃ d : Derivation Unit, d.node a.table.grammar (.ofSource (.ofText "- x")) .zero =
        .ok parsed.node ∧ negations.Respects .any a d := by
  constructor
  · obtain ⟨sink, a, h⟩ : ∃ sink a, (signs.assemble (.category "low") {} {}).result =
        .ok (sink, .ok a) := signs.exists_assembled (by rintro _ ⟨⟩; decide) _ _
    have hnot : signs.Usable 0 ⟨"low", "not", [.text "!", .free (some "low")], none⟩ :=
      ⟨rfl, by decide⟩
    have hneg : signs.Usable 1 ⟨"high", "neg", [.text "-", .free none], none⟩ := ⟨rfl, by decide⟩
    obtain ⟨-, hnever, hforms⟩ := priorities_enforced (σ := Unit) h rfl
    refine ⟨sink, a, h, ?_, fun d x y hx htakes hy hform => (hnever hx htakes hy hform).2 rfl⟩
    obtain ⟨-, -, known, ds, start, hparts, hds⟩ := accepted_of_assemble h
    obtain ⟨sign, hsign⟩ : ∃ sign : Derivation Unit, a.IsToken (.literal "!") sign :=
      hparts.exists_token () (literal_mem_every ((hds (0, _)).2 hnot) (by decide))
    obtain ⟨x, hform⟩ := (hforms hneg).1 ⟨()⟩
    have htakes : signs.Takes a (some "low") x :=
      .form (by rintro lower ⟨⟩; exact signs_above) hform
    obtain ⟨id, children, hchildren, hnamed⟩ :=
      (hforms hnot).2 [sign, x] (.cons hsign (.cons htakes .nil))
    obtain ⟨_, _, -, hrest, rfl⟩ := List.forall₂_cons_right_iff.1 hchildren
    obtain ⟨d, _, hd, hnil, rfl⟩ := List.forall₂_cons_right_iff.1 hrest
    cases hnil
    exact ⟨_, d, x, id, hnamed, hd, hform⟩
  · obtain ⟨sink, a, h, -, ⟨parsed, hparsed⟩, -⟩ := exists_negations
    have hreturns := Executor.returns_iff.2 ⟨_, hparsed⟩
    obtain ⟨d, -, -, -, -, -, hnode, hrespects⟩ := (priorities_enforced h rfl).1 hreturns
    exact ⟨sink, a, parsed, h, hreturns, d, hnode, hrespects⟩

end Catalogue

end Mixfix
