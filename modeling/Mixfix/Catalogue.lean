import Mixfix.Diagnostic
import Mixfix.Unicode.Blank

/-!
# Declared syntax

A catalogue lists categories, priorities between them and the forms declared in each category. A
form is a row of fragments: literal texts, spaces, variables that it binds, and slots for terms.
Entries may be faulty; `Declaration.objection` says why a declaration cannot be used.
-/

namespace Mixfix

/-- A part of a declared form. -/
inductive Fragment where
  /-- A literal text. -/
  | text (text : String)
  /-- Blank characters, or possibly none. -/
  | space (optional : Bool)
  /-- A variable that the form binds. -/
  | bound (name : String)
  /-- A term: any, or one that binds tighter than a category. -/
  | free (above : Option String)
deriving DecidableEq

namespace Fragment

/-- A fragment of blank characters. -/
def isSpace : Fragment → Bool
  | space _ => true
  | _ => false

/-- The literal text of a fragment. -/
def text? : Fragment → Option String
  | text t => some t
  | _ => none

end Fragment

/-- A form of a category. -/
structure Declaration where
  category : String
  /-- The tag of its trees. -/
  tag : String
  fragments : List Fragment
  span : Option Span := none

/-- A category and one that binds tighter. -/
structure Priority where
  lower : String
  higher : String
  span : Option Span := none

/-- Everything that was declared, in order. -/
structure Catalogue where
  categories : List (String × Option Span) := []
  priorities : List Priority := []
  declarations : List Declaration := []

/-- What a parser accepts. -/
inductive Entry where
  /-- A term of any category. -/
  | any
  /-- A form of exactly this category. -/
  | category (name : String)

namespace Declaration

/-- The first fault among fragments in order: a variable bound before, or an unknown category. -/
def fragmentObjection (tag : String) (known : List String) :
    (binders : List String) → List Fragment → Option String
  | _, [] => none
  | binders, .bound name :: fragments =>
    if binders.contains name then some s!"syntax {tag} binds {name} twice"
    else fragmentObjection tag known (name :: binders) fragments
  | binders, .free (some name) :: fragments =>
    if known.contains name then fragmentObjection tag known binders fragments
    else some s!"unknown category {name}"
  | binders, _ :: fragments => fragmentObjection tag known binders fragments

/-- Why a declaration cannot be used, given the known categories; none if it can. -/
def objection (d : Declaration) (known : List String) : Option String :=
  let texts := d.fragments.filterMap Fragment.text?
  if d.fragments.isEmpty || texts.any (·.isEmpty) then
    some s!"syntax {d.tag} declares an empty fragment"
  else if texts.any fun t => t.toList.any isBlank then
    some s!"syntax {d.tag} has whitespace inside a text fragment"
  else if d.fragments.head?.any Fragment.isSpace || d.fragments.getLast?.any Fragment.isSpace then
    some s!"syntax {d.tag} starts or ends with whitespace"
  else if d.fragments.length = 1 && d.fragments.any (fun | .free _ => true | _ => false) then
    some s!"syntax {d.tag} is a bare term"
  else
    match fragmentObjection d.tag known [] d.fragments with
    | some message => some message
    | none => if known.contains d.category then none else some s!"unknown category {d.category}"

end Declaration

end Mixfix
