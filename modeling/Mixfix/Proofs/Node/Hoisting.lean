import Mathlib.Logic.Relation
import Mixfix.Node

/-!
# Building results from tokens

Building a tree opens its transparent children and drops its discarded ones, one level deep.  That
is enough: whatever a node leaves in its parent is visible, by induction on how the node was built,
because the children that are opened were left there by nodes built before.

The tokens of a result are read off a stack of pending nodes.  This gives them from left to right,
as the recursion over the tree does; so a tree has the tokens of the nodes it is built over, but for
those that are dropped.

* `Node.Made`: the nodes built from tokens.
* `Node.Made.contribution`: what a node leaves in its parent is visible.
* `Node.drain_eq_leavesAll`: the stack gives the leaves in order.
* `Node.made_hoists`: the children and the tokens of built trees.
-/

namespace Mixfix.Node

/-- A token or a tagged tree, which stays as it is in a tree built over it. -/
def IsVisible : Node → Prop
  | .token _ | .tree (.tagged _) _ _ => True
  | .tree .transparent _ _ | .tree .discard _ _ => False

/-- A discarded tree. -/
def isDiscarded : Node → Bool
  | .tree .discard _ _ => true
  | _ => false

/-- Built from tokens, by making trees over nodes that are so built. -/
inductive Made : Node → Prop where
  | token (t : Token) : Made (.token t)
  | make (kind : Kind) (span : Span) {cs : List Node} : (∀ c ∈ cs, Made c) →
      Made (make kind span cs)

/-- A node is among the children of another, or among their children, and so on. -/
def Inside : Node → Node → Prop := Relation.TransGen fun m n => m ∈ n.children

/-! ### Children -/

/-- What a node leaves in its parent is visible, and built from tokens as well. -/
theorem Made.contribution {c : Node} (h : c.Made) :
    ∀ n ∈ c.contribution, n.IsVisible ∧ n.Made := by
  induction h with
  | token t =>
    intro n hn
    rw [List.mem_singleton.1 hn]
    exact ⟨trivial, .token t⟩
  | make kind span hcs ih =>
    intro n hn
    cases kind with
    | tagged tag =>
      rw [List.mem_singleton.1 hn]
      exact ⟨trivial, .make _ span hcs⟩
    | transparent =>
      -- Its children were left there by the nodes it was built over.
      obtain ⟨c, hc, hn⟩ := List.mem_flatMap.1 hn
      exact ih c hc n hn
    | discard => cases hn

theorem Made.child {m n : Node} (h : n.Made) (hm : m ∈ n.children) : m.IsVisible ∧ m.Made := by
  cases h with
  | token t => cases hm
  | make kind span hcs =>
    obtain ⟨c, hc, hm⟩ := mem_children_make.1 hm
    exact (hcs c hc).contribution m hm

theorem Made.inside {m n : Node} (h : n.Made) (hm : Inside m n) : m.IsVisible ∧ m.Made := by
  induction hm using Relation.TransGen.head_induction_on with
  | single hm => exact h.child hm
  | head hm _ ih => exact ih.2.child hm

theorem contribution_eq (c : Node) : c.contribution =
    if c.isTransparent then c.children else if c.isDiscarded then [] else [c] := by
  match c with
  | .token _ | .tree (.tagged _) _ _ | .tree .transparent _ _ | .tree .discard _ _ => rfl

/-! ### Tokens -/

mutual

/-- The tokens of a result from left to right. -/
def leaves : Node → List Token
  | .token t => [t]
  | .tree _ _ children => leavesAll children

/-- The tokens of some results from left to right. -/
def leavesAll : List Node → List Token
  | [] => []
  | n :: nodes => n.leaves ++ leavesAll nodes

end

@[simp] theorem leaves_token (t : Token) : (token t).leaves = [t] := by
  rw [leaves]

@[simp] theorem leaves_tree (kind : Kind) (span : Span) (children : List Node) :
    (tree kind span children).leaves = leavesAll children := by
  rw [leaves]

theorem leavesAll_eq (nodes : List Node) : leavesAll nodes = nodes.flatMap leaves := by
  induction nodes with
  | nil => rw [leavesAll, List.flatMap_nil]
  | cons n nodes ih => rw [leavesAll, ih, List.flatMap_cons]

/-- A stack of pending nodes gives the tokens of all of them in order. -/
theorem drain_eq_leavesAll (pending : List Node) : drain pending = leavesAll pending := by
  fun_induction drain pending with
  | case1 => rw [leavesAll]
  | case2 t pending ih => rw [leavesAll, leaves_token, ih, List.singleton_append]
  | case3 kind span children pending ih =>
    rw [ih, leavesAll, leaves_tree, leavesAll_eq, leavesAll_eq, leavesAll_eq, List.flatMap_append]

theorem allTokens_eq_leaves (n : Node) : n.allTokens = n.leaves := by
  rw [allTokens, drain_eq_leavesAll, leavesAll, leavesAll, List.append_nil]

theorem leavesAll_contribution (c : Node) :
    leavesAll c.contribution = if c.isDiscarded then [] else c.leaves := by
  match c with
  | .token _ | .tree (.tagged _) _ _ => exact List.append_nil _
  | .tree .transparent span children => exact (leaves_tree .transparent span children).symm
  | .tree .discard _ _ => rfl

/-- A built tree has the tokens of the nodes that are not dropped. -/
theorem leaves_make (kind : Kind) (span : Span) (cs : List Node) :
    (make kind span cs).leaves = (cs.filter (!·.isDiscarded)).flatMap leaves := by
  rw [make, leaves_tree]
  induction cs with
  | nil => rfl
  | cons c cs ih =>
    rw [List.flatMap_cons, leavesAll_eq, List.flatMap_append, ← leavesAll_eq, ← leavesAll_eq, ih,
      leavesAll_contribution]
    by_cases hc : c.isDiscarded
    · rw [if_pos hc, List.filter_cons_of_neg (by simp [hc]), List.nil_append]
    · rw [if_neg hc, List.filter_cons_of_pos (by simp [hc]), List.flatMap_cons]

/-! ### Built results -/

/-- **Building trees hoists and drops exactly.**  In a result built from tokens nothing but the root
can be transparent or discarded.  The children of a tree over some of these are, one after the
other, what each leaves there: a transparent one its children, a discarded one nothing, and any
other itself.  The tokens that are read off a result are its leaves from left to right, so a tree
has those of the nodes it is built over that are not discarded. -/
theorem made_hoists :
    (∀ {n : Node}, n.Made → ∀ m, Inside m n → m.IsVisible) ∧
    (∀ (kind : Kind) (span : Span) {cs : List Node}, (∀ c ∈ cs, c.Made) →
      (make kind span cs).Made ∧
      (make kind span cs).children = (cs.map fun c =>
        if c.isTransparent then c.children else if c.isDiscarded then [] else [c]).flatten ∧
      (make kind span cs).allTokens = (cs.filter (!·.isDiscarded)).flatMap allTokens) ∧
    ∀ {n : Node}, n.Made → n.allTokens = n.leaves := by
  refine ⟨fun h m hm => (h.inside hm).1, fun kind span cs hcs => ⟨.make kind span hcs, ?_, ?_⟩,
    fun {n} _ => allTokens_eq_leaves n⟩
  · rw [← List.flatMap_def]
    exact congrArg (cs.flatMap ·) (funext contribution_eq)
  · rw [allTokens_eq_leaves, leaves_make]
    exact congrArg (List.flatMap · _) (funext fun n => (allTokens_eq_leaves n).symm)

/-- The token of one byte of the first line. -/
def letter (tag : String) (i : Nat) : Node := .token ⟨tag, ⟨⟨0, i⟩, ⟨0, i + 1⟩⟩⟩

/-- A token, a transparent tree with another one in it, a discarded tree and a tagged one. -/
def mixed : List Node :=
  [letter "a" 0,
    make .transparent ⟨⟨0, 1⟩, ⟨0, 3⟩⟩
      [letter "b" 1, make .transparent ⟨⟨0, 2⟩, ⟨0, 3⟩⟩ [letter "c" 2]],
    make .discard ⟨⟨0, 3⟩, ⟨0, 4⟩⟩ [letter "blank" 3],
    make (.tagged "t") ⟨⟨0, 4⟩, ⟨0, 5⟩⟩ [letter "d" 4]]

theorem mixed_hoists : (∀ c ∈ mixed, c.Made) ∧
    (make (.tagged "s") ⟨⟨0, 0⟩, ⟨0, 5⟩⟩ mixed).children = [letter "a" 0, letter "b" 1,
      letter "c" 2, make (.tagged "t") ⟨⟨0, 4⟩, ⟨0, 5⟩⟩ [letter "d" 4]] ∧
    ((make (.tagged "s") ⟨⟨0, 0⟩, ⟨0, 5⟩⟩ mixed).allTokens.map fun t => t.tag) =
      ["a", "b", "c", "d"] ∧
    ∀ m, Inside m (make (.tagged "s") ⟨⟨0, 0⟩, ⟨0, 5⟩⟩ mixed) → m.IsVisible := by
  have hletters : ∀ tag i, ∀ c ∈ [letter tag i], c.Made := by
    intro tag i c hc
    rw [List.mem_singleton.1 hc]
    exact .token _
  have hinner : ∀ c ∈ [letter "b" 1, make .transparent ⟨⟨0, 2⟩, ⟨0, 3⟩⟩ [letter "c" 2]],
      c.Made :=
    List.forall_mem_cons.2 ⟨.token _, List.forall_mem_singleton.2 (.make _ _ (hletters "c" 2))⟩
  have hmade : ∀ c ∈ mixed, c.Made :=
    List.forall_mem_cons.2 ⟨.token _, List.forall_mem_cons.2 ⟨.make _ _ hinner,
      List.forall_mem_cons.2 ⟨.make _ _ (hletters "blank" 3),
        List.forall_mem_singleton.2 (.make _ _ (hletters "d" 4))⟩⟩⟩
  obtain ⟨hvisible, hmake, hleaves⟩ := made_hoists
  obtain ⟨hroot, hchildren, -⟩ := hmake (.tagged "s") ⟨⟨0, 0⟩, ⟨0, 5⟩⟩ hmade
  refine ⟨hmade, ?_, ?_, hvisible hroot⟩
  · rw [hchildren]
    rfl
  · rw [hleaves hroot]
    rfl

end Mixfix.Node
