import KarelKit.Declaration.UserType
import KarelKit.Declaration.Value

namespace KarelKit

/-- The contents of the `TYPE` and `CONST` sections of a text, each kind in the order written. -/
structure Declarations where
  types : List (Located TypeDeclaration)
  constants : List (Located Constant)
deriving DecidableEq

namespace Declarations

instance : EmptyCollection Declarations where
  emptyCollection := ⟨[], []⟩

instance : Append Declarations where
  append d e := ⟨d.types ++ e.types, d.constants ++ e.constants⟩

@[simp] theorem types_append (d e : Declarations) : (d ++ e).types = d.types ++ e.types := rfl

@[simp] theorem constants_append (d e : Declarations) :
    (d ++ e).constants = d.constants ++ e.constants := rfl

/-- The declarations of several sections together. -/
def join (sections : List Declarations) : Declarations := sections.foldr (· ++ ·) ∅

/-- One section: a header, and a line for each item; nothing for no items. -/
def printSection (header : String) (items : List String) : String :=
  if items.isEmpty then ""
  else s!"{header}\n" ++ String.join (items.map fun item => s!"    {item}\n")

/-- Constants stand before types. -/
def print (d : Declarations) : String :=
  printSection "CONST" (d.constants.map (·.node.print)) ++
    printSection "TYPE" (d.types.map (·.node.print))

end Declarations

end KarelKit
