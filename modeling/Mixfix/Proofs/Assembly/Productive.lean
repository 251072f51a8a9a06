import Mixfix.Proofs.Assembly.Complete
import Mixfix.Proofs.Assembly.Trees
import Mixfix.Proofs.Automaton.Productive

/-!
# Assembled grammars are productive

Every nonterminal of declared syntax has a tree.  A variable is a term, in every slot; so a term in
parentheses has a tree, and so has every form, since its fragments are slots and terminals.  A
category that the rules name has forms, and the entry's category accepts variables if it has none.

* `Catalogue.Assembles.exists_tree`: a nonterminal has a tree, if all parts of an alternative have.
* `Catalogue.Assembles.productive`: every symbol that the rules use has one.
-/

namespace Mixfix

open Mixfix.Derivation

namespace Catalogue

variable {c : Catalogue} {entry : Entry} {a : Assembled} {known : List String}
  {ds : List (Nat × Declaration)} {start : String}

namespace Assembles

/-- A nonterminal has a tree, if all parts of one of its alternatives have. -/
theorem exists_tree (h : c.Assembles entry a known ds start) {name : String} {row : List Expr}
    (hrow : Alternative entry a.priorities ds name row)
    (hparts : ∀ e ∈ row, ∃ d : Derivation Unit, a.IsPart e d) :
    ∃ d : Derivation Unit, a.IsNamed name d := by
  obtain ⟨children, hchildren⟩ := exists_forall₂_of_forall hparts
  obtain ⟨_, _, -, -, hnamed⟩ := h.exists_named hrow hchildren
  exact ⟨_, hnamed⟩

theorem exists_leaf (h : c.Assembles entry a known ds start) {t : Terminal}
    (ht : t ∈ Terminal.every (literalsOf ds)) (hne : t ≠ .endOfInput) :
    ∃ d : Derivation Unit, a.IsPart (termExpr t) d :=
  (h.exists_token () ht).imp fun _ hd => (h.isPart_term ht hne).2 hd

/-- A variable is a plain term. -/
theorem exists_plain (h : c.Assembles entry a known ds start) {name : String}
    (hname : Admits entry ds name) : ∃ d : Derivation Unit, a.IsNamed name d :=
  h.exists_tree (.plain hname (by simp [termAlternatives]))
    (List.forall_mem_singleton.2 (h.exists_leaf (t := .identifier) (by simp) (by decide)))

theorem exists_slot (h : c.Assembles entry a known ds start) (above : Option String)
    (habove : ∀ lower ∈ above, lower ∈ tighter ds) :
    ∃ d : Derivation Unit, a.IsPart (.nonTerminal (slotName above)) d := by
  simp only [isPart_name (isName_slotName above)]
  cases above with
  | none => exact h.exists_plain .any
  | some lower => exact h.exists_plain (.above (habove lower rfl))

/-- Between parentheses stands a term, and maybe blanks. -/
theorem exists_of_parens (h : c.Assembles entry a known ds start) :
    ∀ e ∈ [termExpr (.literal "("), termExpr .optionalBlank, .nonTerminal anyName,
      termExpr .optionalBlank, termExpr (.literal ")")], ∃ d : Derivation Unit, a.IsPart e d := by
  have hparen : ∀ text ∈ ["(", ")"], ∃ d : Derivation Unit,
      a.IsPart (termExpr (.literal text)) d := fun text htext =>
    h.exists_leaf (Terminal.mem_every_iff.2 fun _ heq => Ascending.mem_ofList.2
      (List.mem_append_right _ (Terminal.literal.inj heq ▸ htext))) (by rintro ⟨⟩)
  have hblank : ∃ d : Derivation Unit, a.IsPart (termExpr .optionalBlank) d :=
    h.exists_leaf (by simp) (by decide)
  have hany : ∃ d : Derivation Unit, a.IsPart (.nonTerminal anyName) d :=
    h.exists_slot none fun _ h => nomatch h
  simp only [List.forall_mem_cons]
  exact ⟨hparen _ (by simp), hblank, hany, hblank, hparen _ (by simp), fun _ h => nomatch h⟩

theorem exists_parens (h : c.Assembles entry a known ds start) :
    ∃ d : Derivation Unit, a.IsPart (.nonTerminal parensName) d := by
  simp only [isPart_name (.inr (.inl rfl))]
  exact h.exists_tree .parens h.exists_of_parens

/-- A fragment is a terminal or a slot. -/
theorem exists_fragment (h : c.Assembles entry a known ds start) {d : Nat × Declaration}
    (hd : d ∈ ds) {f : Fragment} (hf : f ∈ d.2.fragments) :
    ∃ tree : Derivation Unit, a.IsPart (fragmentExpr f) tree := by
  cases f with
  | text text => exact h.exists_leaf (literal_mem_every hd hf) (by rintro ⟨⟩)
  | space optional => cases optional <;> exact h.exists_leaf (by simp) (by decide)
  | bound name => exact h.exists_leaf (t := .identifier) (by simp) (by decide)
  | free above =>
    cases above with
    | none => exact h.exists_slot none fun _ h => nomatch h
    | some lower =>
      refine h.exists_slot (some lower) ?_
      rintro _ ⟨⟩
      exact mem_tighter hd hf

theorem exists_formed (h : c.Assembles entry a known ds start) {d : Nat × Declaration}
    (hd : d ∈ ds) : ∃ tree : Derivation Unit, a.IsPart (.nonTerminal (formName d.1)) tree := by
  simp only [isPart_name (.inr (.inr (.inr (.inr ⟨d.1, rfl⟩))))]
  exact h.exists_tree (.form hd) (List.forall_mem_map.2 fun f hf => h.exists_fragment hd hf)

theorem exists_populated (h : c.Assembles entry a known ds start) {category : String}
    (hcategory : category ∈ populated ds) :
    ∃ d : Derivation Unit, a.IsPart (.nonTerminal (atomicName category)) d := by
  obtain ⟨d, hd, rfl⟩ := List.mem_map.1 (Ascending.mem_ofList.1 hcategory)
  simp only [isPart_name (.inr (.inr (.inl ⟨d.2.category, rfl⟩)))]
  exact h.exists_tree (.own hd) (List.forall_mem_singleton.2 (h.exists_formed hd))

/-- Every part of an alternative has a tree. -/
theorem exists_part (h : c.Assembles entry a known ds start) {name : String} {row : List Expr}
    (hrow : Alternative entry a.priorities ds name row) {e : Expr} (he : e ∈ row) :
    ∃ d : Derivation Unit, a.IsPart e d := by
  cases hrow with
  | plain _ hplain =>
    obtain rfl := List.mem_singleton.1 he
    rw [termAlternatives, List.mem_cons, List.mem_singleton] at hplain
    rcases hplain with rfl | rfl
    · exact h.exists_leaf (by simp) (by decide)
    · exact h.exists_parens
  | parens => exact h.exists_of_parens e he
  | form hd =>
    obtain ⟨f, hf, rfl⟩ := List.mem_map.1 he
    exact h.exists_fragment hd hf
  | own hd =>
    obtain rfl := List.mem_singleton.1 he
    exact h.exists_formed hd
  | any hcategory | above _ _ hcategory =>
    obtain rfl := List.mem_singleton.1 he
    exact h.exists_populated hcategory

theorem exists_entered (h : c.Assembles entry a known ds start) :
    ∃ d : Derivation Unit, a.IsPart (.nonTerminal start) d := by
  rw [entryName_of_startOf h.entered]
  cases entry with
  | any => exact h.exists_slot none fun _ h => nomatch h
  | category name =>
    by_cases hname : name ∈ populated ds
    · exact h.exists_populated hname
    · exact (h.exists_plain (.entry rfl hname)).imp fun _ hd =>
        (isPart_name (.inr (.inr (.inl ⟨name, rfl⟩)))).2 hd

/-- **Every symbol** that the rules of an assembled grammar use has a tree. -/
theorem productive (h : c.Assembles entry a known ds start) : a.table.grammar.Productive := by
  obtain ⟨augmented, rules, hrules, -, hstart, -⟩ := h.rules
  intro rule hrule s hs
  rw [hrules] at hrule
  rcases List.mem_cons.1 hrule with rfl | htail
  · obtain rfl := List.mem_singleton.1 hs
    obtain ⟨d, hd⟩ := h.exists_entered
    exact ⟨d, (Assembled.isPart_iff hstart).1 hd⟩
  · obtain ⟨name, row, hrow, -, hrhs⟩ := h.alternatives (by rw [hrules]; exact htail)
    obtain ⟨e, he, hstands⟩ := exists_of_forall₂ hrhs hs
    obtain ⟨d, hd⟩ := h.exists_part hrow he
    exact ⟨d, (Assembled.isPart_iff hstands).1 hd⟩

end Assembles

end Catalogue

end Mixfix
