import KarelKit.Source.EditorPosition

namespace KarelKit

namespace EditorPosition

instance : LE EditorPosition where
  le p q := p.line < q.line ∨ p.line = q.line ∧ p.character ≤ q.character

instance (p q : EditorPosition) : Decidable (p ≤ q) :=
  inferInstanceAs (Decidable (p.line < q.line ∨ p.line = q.line ∧ p.character ≤ q.character))

theorem le_iff {p q : EditorPosition} :
    p ≤ q ↔ p.line < q.line ∨ p.line = q.line ∧ p.character ≤ q.character := Iff.rfl

theorem le_refl (p : EditorPosition) : p ≤ p := Or.inr ⟨rfl, Nat.le_refl _⟩

end EditorPosition

namespace Position

/-- A place on line zero, where no text stands, and one on the first line that has a smaller column
even once columns count from zero too. -/
def Crosses (p q : Position) : Prop := p.line = 0 ∧ q.line = 1 ∧ 1 < p.column ∧ q.column < p.column

theorem Crosses.le {p q : Position} (h : p.Crosses q) : p ≤ q := by
  obtain ⟨hp, hq, -⟩ := h
  rw [le_iff]
  omega

theorem toEditor_le_iff {p q : Position} (h : p ≤ q) : p.toEditor ≤ q.toEditor ↔ ¬p.Crosses q := by
  rw [le_iff] at h
  simp only [EditorPosition.le_iff, toEditor, Crosses]
  omega

end Position

theorem Range.toEditor_le_iff (start stop : Position) :
    (between start stop).toEditor.start ≤ (between start stop).toEditor.stop ↔
      ¬start.Crosses stop := by
  by_cases h : start ≤ stop
  · rw [between_eq h]
    exact Position.toEditor_le_iff h
  · -- the range is empty, and no place comes to stand before itself
    have hcrosses : ¬start.Crosses stop := fun hcrosses => h hcrosses.le
    simp only [between, if_neg h, hcrosses, not_false_eq_true, iff_true]
    exact EditorPosition.le_refl _

/-- Places keep their order for an editor, and so do the ends of a range, except for a place on line
zero and one before its column on the first line. These change places. -/
theorem toEditor_keeps_order :
    (∀ p q : Position, p ≤ q → (p.toEditor ≤ q.toEditor ↔ ¬p.Crosses q)) ∧
      ∀ start stop : Position,
        ((Range.between start stop).toEditor.start ≤ (Range.between start stop).toEditor.stop ↔
          ¬start.Crosses stop) :=
  ⟨fun _ _ h => Position.toEditor_le_iff h, Range.toEditor_le_iff⟩

theorem toEditor_keeps_order_first_lines :
    (⟨0, 5⟩ : Position) ≤ ⟨1, 5⟩ ∧ (⟨0, 5⟩ : Position).toEditor ≤ (⟨1, 5⟩ : Position).toEditor := by
  have h : (⟨0, 5⟩ : Position) ≤ ⟨1, 5⟩ := by decide
  refine ⟨h, (toEditor_keeps_order.1 _ _ h).mpr ?_⟩
  intro hcrosses
  exact absurd hcrosses.2.2.2 (by decide)

theorem toEditor_not_monotone : (⟨0, 5⟩ : Position) ≤ ⟨1, 0⟩ ∧
    ¬(⟨0, 5⟩ : Position).toEditor ≤ (⟨1, 0⟩ : Position).toEditor ∧
    ¬(Range.between ⟨0, 5⟩ ⟨1, 0⟩).toEditor.start ≤ (Range.between ⟨0, 5⟩ ⟨1, 0⟩).toEditor.stop := by
  decide

end KarelKit
