import Mixfix.Position

/-!
# Parse results

A result is a token or a tree. A tree is tagged, transparent or discarded. Building a tree puts the
children of a transparent child in its place and drops a discarded child, so only a root can still
be transparent or discarded.

* `Node.mem_children_make`: the children of a built tree are what the given nodes leave in it.
* `Node.drain`: the tokens of a result, in text order.
-/

namespace Mixfix

/-- How a tree appears in its parent. -/
inductive Kind where
  /-- As a tree with this tag. -/
  | tagged (tag : String)
  /-- Through its children, which take its place. -/
  | transparent
  /-- Not at all. -/
  | discard
deriving DecidableEq, Inhabited

/-- A leaf of a result: a stretch of one line with a label. -/
structure Token where
  tag : String
  span : Span
deriving DecidableEq, Inhabited

/-- A parse result. -/
inductive Node where
  | token (token : Token)
  | tree (kind : Kind) (span : Span) (children : List Node)
deriving Inhabited

namespace Node

/-- What a child leaves in the tree built over it. -/
def contribution : Node → List Node
  | .tree .transparent _ children => children
  | .tree .discard _ _ => []
  | node => [node]

/-- The tree over some children. -/
def make (kind : Kind) (span : Span) (children : List Node) : Node :=
  .tree kind span (children.flatMap contribution)

/-- A transparent tree without children or extent. -/
def empty (p : Position) : Node := make .transparent (.point p) []

/-- The stretch of text of a result. -/
def span : Node → Span
  | .token t => t.span
  | .tree _ span _ => span

/-- The tag of a token or of a tagged tree. -/
def tag? : Node → Option String
  | .token t => some t.tag
  | .tree (.tagged tag) _ _ => some tag
  | .tree _ _ _ => none

/-- A transparent tree. -/
def isTransparent : Node → Bool
  | .tree .transparent _ _ => true
  | _ => false

/-- The direct children; a token has none. -/
def children : Node → List Node
  | .token _ => []
  | .tree _ _ children => children

/-- The tokens among the direct children. -/
def tokens (n : Node) : List Token :=
  n.children.filterMap fun
    | .token t => some t
    | .tree _ _ _ => none

/-- The trees among the direct children, each with its kind, span and children. -/
def subtrees (n : Node) : List (Kind × Span × List Node) :=
  n.children.filterMap fun
    | .token _ => none
    | .tree kind span children => some (kind, span, children)

mutual

/-- The number of nodes of a result. -/
def size : Node → Nat
  | .token _ => 1
  | .tree _ _ children => 1 + sizeAll children

/-- The number of nodes of some results. -/
def sizeAll : List Node → Nat
  | [] => 0
  | n :: nodes => n.size + sizeAll nodes

end

theorem sizeAll_append (ns ms : List Node) : sizeAll (ns ++ ms) = sizeAll ns + sizeAll ms := by
  induction ns with
  | nil => simp only [List.nil_append, sizeAll, Nat.zero_add]
  | cons n ns ih => simp only [List.cons_append, sizeAll, ih, Nat.add_assoc]

/-- The tokens of the pending nodes, found by opening the first one until it is a token. -/
def drain : List Node → List Token
  | [] => []
  | .token t :: pending => t :: drain pending
  | .tree _ _ children :: pending => drain (children ++ pending)
termination_by pending => sizeAll pending
decreasing_by
  · simp only [sizeAll, size]; omega
  · simp only [sizeAll_append, sizeAll, size]; omega

/-- Every token of a result, in text order. -/
def allTokens (n : Node) : List Token := drain [n]

/-- The visible content: the children of a transparent root, or the node itself. -/
def content (n : Node) : List Node := if n.isTransparent then n.children else [n]

mutual

/-- A token as its tag, a tree as its tag and its children between parentheses; an untagged tree
has `_` for its tag. -/
def render : Node → String
  | .token t => t.tag
  | .tree kind _ children =>
    let head := match kind with
      | .tagged tag => tag
      | .transparent | .discard => "_"
    "(" ++ head ++ renderAll children ++ ")"

/-- The nodes, each after a space. -/
def renderAll : List Node → String
  | [] => ""
  | n :: nodes => " " ++ n.render ++ renderAll nodes

end

theorem mem_children_make {kind : Kind} {span : Span} {cs : List Node} {n : Node} :
    n ∈ (make kind span cs).children ↔ ∃ c ∈ cs, n ∈ c.contribution := by
  simp [make, children, List.mem_flatMap]

end Node

end Mixfix
