import KarelKit.Source.Position

namespace KarelKit

/-- A worded report that something else was expected at a place of a text. -/
structure Diagnostic where
  position : Position
  expected : List String
  found : String
deriving DecidableEq

namespace Diagnostic

/-- Joins the items by commas, the last two by `or`. -/
def alternatives : List String → String
  | [] => "nothing"
  | [item] => item
  | [item, last] => s!"{item} or {last}"
  | item :: items => s!"{item}, {alternatives items}"

/-- Each expectation is named once, at its first place. -/
def message (d : Diagnostic) : String :=
  s!"{d.position}: expected {alternatives d.expected.eraseDups}, found {d.found}"

end Diagnostic

end KarelKit
