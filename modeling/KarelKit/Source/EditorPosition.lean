import KarelKit.Source.Range

namespace KarelKit

/-- A place as an editor counts it: lines and characters from zero. -/
structure EditorPosition where
  line : Nat
  character : Nat
deriving DecidableEq

structure EditorRange where
  start : EditorPosition
  stop : EditorPosition
deriving DecidableEq

/-- A coordinate of zero stays zero. -/
def Position.toEditor (p : Position) : EditorPosition := ⟨p.line - 1, p.column - 1⟩

def EditorPosition.toSource (p : EditorPosition) : Position := ⟨p.line + 1, p.character + 1⟩

def Range.toEditor (r : Range) : EditorRange := ⟨r.start.toEditor, r.stop.toEditor⟩

theorem toEditor_toSource (p : EditorPosition) : p.toSource.toEditor = p := rfl

end KarelKit
