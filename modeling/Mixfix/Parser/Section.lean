import Mixfix.Parser

/-!
# Sections

A section is a bullet and the indented block after it. The body must take the whole block. An
enumeration is a row of sections, each at the first line that is not blank; a block that no section
accepts ends it, or becomes an invalid tree and is skipped.
-/

namespace Mixfix

/-- What to do with a parsed section, given its block; `none` rejects it. -/
abbrev Hook (σ : Type) := σ → Window → Node → Traced Fault (Option (σ × Node))

namespace Parser

variable {σ : Type}

/-- A bullet that ends on its line, and a body that takes the block after it. The section ends at
the line after the block. -/
def indented (bullet body : Parser σ) (hook : Option (Hook σ)) : Parser σ := fun s w p => do
  match ← bullet s w p with
  | none => return none
  | some head =>
    if head.stop.line ≠ p.line then return none
    let block ← w.cutBlock ⟨p.line, head.stop.offset⟩
    match ← body.complete head.state block with
    | none => return none
    | some content =>
      let span := ((Span.point (w.absolute p)).cover head.node.span).cover content.node.span
      let node := Node.make .transparent span [head.node, content.node]
      let stop : Position := ⟨p.line + block.count, 0⟩
      match hook with
      | none => return some ⟨content.state, node, stop⟩
      | some hook => return (← hook content.state block node).map fun (s, node) => ⟨s, node, stop⟩

/-- Where the next section may start: at once in the middle of a line, else at the first line that
is not blank. -/
def sectionStart (w : Window) (p : Position) : Except Fault (Option Position) := do
  if p.offset = 0 then return (← w.skipBlank p.line).map (⟨·, 0⟩) else return some p

/-- The block at a position as an invalid tree, and the line after it. -/
def invalidBlock (w : Window) (tag : String) (p : Position) : Except Fault (Node × Position) := do
  let block ← w.cutBlock p
  let node := Node.make (.tagged tag) (block.spanBetween .zero (← block.stop)) []
  return (node, ⟨p.line + block.count, 0⟩)

/-- One section after another. -/
def sections (alternatives : List (Parser σ)) (invalid : Option String) :
    (bound : Nat) → σ → Window → Position → Traced Fault (σ × List Node × Position)
  | 0, _, _, _ => throw .exhausted
  | bound + 1, s, w, p => do
    match ← sectionStart w p with
    | none => return (s, [], p)
    | some start =>
      match ← choice alternatives s w start with
      | some parsed =>
        if parsed.stop ≤ start then throw (.sectionStalled start)
        let (s, nodes, stop) ← sections alternatives invalid bound parsed.state w parsed.stop
        return (s, parsed.node :: nodes, stop)
      | none =>
        match invalid with
        | none => return (s, [], p)
        | some tag =>
          let (node, next) ← invalidBlock w tag start
          let (s, nodes, stop) ← sections alternatives invalid bound s w next
          return (s, node :: nodes, stop)

/-- Zero or more sections. -/
def enumeration (alternatives : List (Parser σ)) : Parser σ := fun s w p =>
  return some (gathered w p (← sections alternatives none (w.extent + 3) s w p))

/-- Zero or more sections, with an invalid tree for every block that none of them accepts. -/
def enumerationOrInvalid (alternatives : List (Parser σ)) (tag : String) : Parser σ := fun s w p =>
  return some (gathered w p (← sections alternatives (some tag) (w.extent + 3) s w p))

end Parser

end Mixfix
