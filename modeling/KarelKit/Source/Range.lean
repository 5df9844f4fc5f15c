import KarelKit.Source.Position

namespace KarelKit

/-- A stretch of text: `stop` is the place just after its last character. -/
structure Range where
  start : Position
  stop : Position
deriving DecidableEq

namespace Range

/-- A range whose `stop` would come before its `start` is empty at `start`. -/
def between (start stop : Position) : Range :=
  ⟨start, if start ≤ stop then stop else start⟩

theorem start_le_stop_between (start stop : Position) :
    (between start stop).start ≤ (between start stop).stop := by
  simp only [between]
  split
  · assumption
  · exact Position.le_refl _

theorem between_eq {start stop : Position} (h : start ≤ stop) :
    between start stop = ⟨start, stop⟩ := by
  simp [between, h]

end Range

/-- A node of a tree with the stretch of text it was read from. -/
structure Located (α : Type) where
  node : α
  range : Range
deriving DecidableEq

end KarelKit
