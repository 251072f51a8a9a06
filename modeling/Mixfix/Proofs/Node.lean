import Mixfix.Node

/-!
# Results in text order

Nodes are in order between two places when each begins no earlier than the one before it ends.  What
is asked of each node beside that is a layout: of its span alone, or of its inner nodes as well.
Building a tree over nodes in order keeps a layout.  For the inner nodes that is so because a
transparent child is replaced by nodes that are in order within its span, and dropping a child only
leaves a gap.

* `Node.Ordered`: nodes in order, each with a property.
* `Node.Layout`: the properties that trees over nodes in order have again.
* `Node.Layout.spans`, `Node.Layout.nested`: no more than a span, and inner nodes in order.
* `Node.Ordered.contributions`: what nodes leave in the tree built over them is in order.
* `Node.Nested.tokens_ascending`: the tokens of a nested node are in text order.
-/

namespace Mixfix

namespace Node

/-- Nodes in order and without overlap between two places, each of them with a property. -/
def Ordered (fits : Node → Prop) : Position → List Node → Position → Prop
  | start, [], stop => start ≤ stop
  | start, n :: nodes, stop =>
    start ≤ n.span.start ∧ fits n ∧ Ordered fits n.span.stop nodes stop

section

variable {fits : Node → Prop} {a a' b b' : Position} {n : Node} {nodes : List Node}

@[simp] theorem ordered_nil : Ordered fits a [] b ↔ a ≤ b := by
  rw [Ordered]

@[simp] theorem ordered_cons : Ordered fits a (n :: nodes) b ↔
    a ≤ n.span.start ∧ fits n ∧ Ordered fits n.span.stop nodes b := by
  rw [Ordered]

theorem ordered_singleton (h : fits n) : Ordered fits n.span.start [n] n.span.stop :=
  ordered_cons.2 ⟨Position.le_refl _, h, ordered_nil.2 (Position.le_refl _)⟩

theorem Ordered.le (hfits : ∀ n, fits n → n.span.start ≤ n.span.stop)
    (h : Ordered fits a nodes b) : a ≤ b := by
  induction nodes generalizing a with
  | nil => exact ordered_nil.1 h
  | cons n nodes ih =>
    obtain ⟨hstart, hn, hrest⟩ := ordered_cons.1 h
    exact Position.le_trans hstart (Position.le_trans (hfits n hn) (ih hrest))

theorem ordered_append {ns ms : List Node} :
    Ordered fits a (ns ++ ms) b ↔ ∃ c, Ordered fits a ns c ∧ Ordered fits c ms b := by
  induction ns generalizing a with
  | nil =>
    refine ⟨fun h => ⟨a, ordered_nil.2 (Position.le_refl a), h⟩, ?_⟩
    rintro ⟨c, hle, h⟩
    cases ms with
    | nil => exact ordered_nil.2 (Position.le_trans (ordered_nil.1 hle) (ordered_nil.1 h))
    | cons m ms =>
      obtain ⟨hstart, hrest⟩ := ordered_cons.1 h
      exact ordered_cons.2 ⟨Position.le_trans (ordered_nil.1 hle) hstart, hrest⟩
  | cons n ns ih =>
    simp only [List.cons_append, ordered_cons, ih]
    constructor
    · rintro ⟨hstart, hn, c, hns, hms⟩
      exact ⟨c, ⟨hstart, hn, hns⟩, hms⟩
    · rintro ⟨c, ⟨hstart, hn, hns⟩, hms⟩
      exact ⟨hstart, hn, c, hns, hms⟩

/-- Nodes in order between two places are so between places further apart. -/
theorem Ordered.widen (h : Ordered fits a nodes b) (ha : a' ≤ a) (hb : b ≤ b') :
    Ordered fits a' nodes b' := by
  have hfront : Ordered fits a' ([] ++ nodes) b := ordered_append.2 ⟨a, ordered_nil.2 ha, h⟩
  have hback : Ordered fits a' (nodes ++ []) b' :=
    ordered_append.2 ⟨b, hfront, ordered_nil.2 hb⟩
  rwa [List.append_nil] at hback

/-- Nodes in order are so between the beginning of the first and the end of the last. -/
theorem Ordered.narrow {last : Node} (h : Ordered fits a (n :: nodes) b)
    (hlast : (n :: nodes).getLast? = some last) :
    Ordered fits n.span.start (n :: nodes) last.span.stop ∧ a ≤ n.span.start ∧
      last.span.stop ≤ b := by
  obtain ⟨front, hfront⟩ := List.getLast?_eq_some_iff.1 hlast
  have hstart := (ordered_cons.1 h).1
  rw [hfront] at h ⊢
  obtain ⟨c, hinit, hend⟩ := ordered_append.1 h
  obtain ⟨hc, hn, hstop⟩ := ordered_cons.1 hend
  refine ⟨?_, hstart, ordered_nil.1 hstop⟩
  have hall : Ordered fits a (n :: nodes) last.span.stop := by
    rw [hfront]
    exact ordered_append.2
      ⟨c, hinit, ordered_cons.2 ⟨hc, hn, ordered_nil.2 (Position.le_refl _)⟩⟩
  rw [← hfront]
  exact ordered_cons.2 ⟨Position.le_refl _, (ordered_cons.1 hall).2⟩

end

/-- A property of nodes in order: such a node ends no earlier than it begins, tokens that do have
the property, and so do the trees built over nodes in order. -/
structure Layout where
  Fits : Node → Prop
  le {n : Node} : Fits n → n.span.start ≤ n.span.stop
  token {t : Token} : t.span.start ≤ t.span.stop → Fits (.token t)
  make (kind : Kind) (span : Span) {nodes : List Node} :
    Ordered Fits span.start nodes span.stop → Fits (.make kind span nodes)

/-- The node ends no earlier than it begins, whatever is inside it. -/
def Layout.spans : Layout where
  Fits n := n.span.start ≤ n.span.stop
  le h := h
  token h := h
  make _ _ _ h := h.le fun _ => id

/-! ### Inner nodes -/

mutual

/-- The children lie within the span of their parent, in order and without overlap, and so on
down. -/
def Nested : Node → Prop
  | .token t => t.span.start ≤ t.span.stop
  | .tree _ span children => NestedRow span.start children span.stop

/-- Nodes in order, each of them nested. -/
def NestedRow : Position → List Node → Position → Prop
  | start, [], stop => start ≤ stop
  | start, n :: nodes, stop =>
    start ≤ n.span.start ∧ n.Nested ∧ NestedRow n.span.stop nodes stop

end

theorem nestedRow_iff {a b : Position} {nodes : List Node} :
    NestedRow a nodes b ↔ Ordered Nested a nodes b := by
  induction nodes generalizing a with
  | nil => rw [NestedRow, ordered_nil]
  | cons n nodes ih => rw [NestedRow, ordered_cons, ih]

@[simp] theorem nested_token {t : Token} : (token t).Nested ↔ t.span.start ≤ t.span.stop := by
  rw [Nested]

@[simp] theorem nested_tree {kind : Kind} {span : Span} {children : List Node} :
    (tree kind span children).Nested ↔ Ordered Nested span.start children span.stop := by
  rw [Nested, nestedRow_iff]

mutual

theorem Nested.le : ∀ {n : Node}, n.Nested → n.span.start ≤ n.span.stop
  | .token _, h => nested_token.1 h
  | .tree _ _ _, h => NestedRow.le (nestedRow_iff.2 (nested_tree.1 h))

theorem NestedRow.le : ∀ {nodes : List Node} {a b : Position}, NestedRow a nodes b → a ≤ b
  | [], _, _, h => ordered_nil.1 (nestedRow_iff.1 h)
  | _ :: _, _, _, h => by
    obtain ⟨hstart, hnested, hrest⟩ := ordered_cons.1 (nestedRow_iff.1 h)
    have hle := NestedRow.le (nestedRow_iff.2 hrest)
    exact Position.le_trans hstart (Position.le_trans hnested.le hle)

end

/-! ### Building trees -/

theorem Nested.contribution {n : Node} (h : n.Nested) :
    Ordered Nested n.span.start n.contribution n.span.stop := by
  match n with
  | .token _ | .tree (.tagged _) _ _ => exact ordered_singleton h
  | .tree .transparent _ _ => exact nested_tree.1 h
  | .tree .discard _ _ => exact ordered_nil.2 h.le

/-- What nodes leave in the tree built over them is in order. -/
theorem Ordered.contributions {a b : Position} {nodes : List Node}
    (h : Ordered Nested a nodes b) :
    Ordered Nested a (nodes.flatMap Node.contribution) b := by
  induction nodes generalizing a with
  | nil => exact h
  | cons n nodes ih =>
    obtain ⟨hstart, hnested, hrest⟩ := ordered_cons.1 h
    rw [List.flatMap_cons]
    exact ordered_append.2 ⟨n.span.stop, hnested.contribution.widen hstart (Position.le_refl _),
      ih hrest⟩

/-- The inner nodes are in order, all the way down. -/
def Layout.nested : Layout where
  Fits := Nested
  le h := h.le
  token h := nested_token.2 h
  make _ _ _ h := nested_tree.2 h.contributions

/-! ### Tokens -/

/-- Opening trees keeps their tokens in order. -/
theorem Ordered.drain {a b : Position} {nodes : List Node} (h : Ordered Nested a nodes b) :
    Ordered Nested a ((Node.drain nodes).map .token) b := by
  fun_induction Node.drain nodes generalizing a with
  | case1 => exact h
  | case2 t pending ih =>
    obtain ⟨hstart, hnested, hrest⟩ := ordered_cons.1 h
    exact ordered_cons.2 ⟨hstart, hnested, ih hrest⟩
  | case3 kind span children pending ih =>
    obtain ⟨hstart, hnested, hrest⟩ := ordered_cons.1 h
    exact ih (ordered_append.2
      ⟨span.stop, (nested_tree.1 hnested).widen hstart (Position.le_refl _), hrest⟩)

theorem Ordered.pairwise {a b : Position} {tokens : List Token}
    (h : Ordered Nested a (tokens.map .token) b) :
    (∀ t ∈ tokens, a ≤ t.span.start) ∧
      tokens.Pairwise fun t u => t.span.stop ≤ u.span.start := by
  induction tokens generalizing a with
  | nil => exact ⟨by simp, .nil⟩
  | cons t tokens ih =>
    obtain ⟨hstart, hnested, hrest⟩ := ordered_cons.1 h
    obtain ⟨hlater, hpairs⟩ := ih hrest
    refine ⟨fun u hu => ?_, .cons hlater hpairs⟩
    rcases List.mem_cons.1 hu with rfl | hu
    · exact hstart
    · exact Position.le_trans hstart (Position.le_trans hnested.le (hlater u hu))

/-- The tokens of a nested node are in text order. -/
theorem Nested.tokens_ascending {n : Node} (h : n.Nested) :
    n.allTokens.Pairwise fun t u => t.span.stop ≤ u.span.start :=
  (ordered_singleton h).drain.pairwise.2

end Node

end Mixfix
