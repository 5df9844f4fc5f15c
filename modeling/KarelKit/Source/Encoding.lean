import KarelKit.Error.Diagnostic
import KarelKit.Json.Basic
import KarelKit.Source.EditorPosition

namespace KarelKit

def Position.toJson (p : Position) : Json :=
  .object [("line", .integer p.line), ("column", .integer p.column)]

def Position.ofJson? (j : Json) : Option Position := do
  return ⟨← (← j.field? "line").word?, ← (← j.field? "column").word?⟩

def Range.toJson (r : Range) : Json :=
  .object [("start", r.start.toJson), ("end", r.stop.toJson)]

def Range.ofJson? (j : Json) : Option Range := do
  return ⟨← Position.ofJson? (← j.field? "start"), ← Position.ofJson? (← j.field? "end")⟩

def EditorPosition.toJson (p : EditorPosition) : Json :=
  .object [("line", .integer p.line), ("character", .integer p.character)]

def EditorRange.toJson (r : EditorRange) : Json :=
  .object [("start", r.start.toJson), ("end", r.stop.toJson)]

def Located.toJson {α : Type} (write : α → Json) (x : Located α) : Json :=
  .object [("node", write x.node), ("range", x.range.toJson)]

/-- Names stand in alphabetical order; the file is told where there is one. -/
def Diagnostic.toJson (d : Diagnostic) (file : Option String) : Json :=
  .object (
    [("column", .integer d.position.column), ("expected", .array (d.expected.map .string))] ++
    file.toList.map (fun file => ("file", .string file)) ++
    [("found", .string d.found), ("line", .integer d.position.line),
      ("message", .string d.message)])

end KarelKit
