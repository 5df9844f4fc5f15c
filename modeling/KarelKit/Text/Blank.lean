import KarelKit.Text.CodeRanges

namespace KarelKit.Text

/-- Code points with the property `White_Space` (Unicode 17.0). -/
def blankRanges : List (Nat × Nat) :=
  [(0x9, 0xd), (0x20, 0x20), (0x85, 0x85), (0xa0, 0xa0), (0x1680, 0x1680), (0x2000, 0x200a),
   (0x2028, 0x2029), (0x202f, 0x202f), (0x205f, 0x205f), (0x3000, 0x3000)]

theorem blankRanges_rise : RisesFrom 0 blankRanges := by
  decide

def isBlank (c : Char) : Bool := withinRanges blankRanges c.toNat

theorem isBlank_iff (c : Char) :
    isBlank c = true ↔ ∃ r ∈ blankRanges, r.1 ≤ c.toNat ∧ c.toNat ≤ r.2 :=
  withinRanges_iff blankRanges_rise c.toNat

end KarelKit.Text
