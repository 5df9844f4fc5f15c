import KarelKit.Pendant.Hover
import KarelKit.Proofs.Pendant.RoundTrip

namespace KarelKit

open Json

theorem Json.word?_lt {j : Json} {n : Nat} (h : j.word? = some n) : n < 0x100000000 := by
  cases j with
  | integer value =>
    cases value with
    | ofNat m =>
      rw [word?] at h
      split at h
      · cases h
        assumption
      · contradiction
    | negSucc m => contradiction
  | _ => contradiction

theorem Position.fits_of_ofJson? {j : Json} {p : Position} (h : ofJson? j = some p) : p.Fits := by
  simp only [ofJson?, Option.bind_eq_bind, Option.pure_def, Option.bind_eq_some_iff] at h
  obtain ⟨_, -, line, hline, _, -, column, hcolumn, h⟩ := h
  cases h
  exact ⟨word?_lt hline, word?_lt hcolumn⟩

theorem Range.fits_of_ofJson? {j : Json} {r : Range} (h : ofJson? j = some r) : r.Fits := by
  simp only [ofJson?, Option.bind_eq_bind, Option.pure_def, Option.bind_eq_some_iff] at h
  obtain ⟨_, -, start, hstart, _, -, stop, hstop, h⟩ := h
  cases h
  exact ⟨Position.fits_of_ofJson? hstart, Position.fits_of_ofJson? hstop⟩

namespace Pendant

theorem Label.range_fits {j : Json} {l : Label} (h : ofJson? j = some l) : l.range.Fits := by
  simp only [ofJson?, Option.bind_eq_bind, Option.pure_def, Option.bind_eq_some_iff] at h
  obtain ⟨_, -, number, -, _, -, range, hrange, h⟩ := h
  cases h
  exact Range.fits_of_ofJson? hrange

theorem Action.definition_fits {j : Json} {action : Action} (h : ofJson? j = some action)
    {l : Label} (hl : action.definition? = some l) : l.range.Fits := by
  rw [ofJson?] at h
  split at h
  · simp only [Option.bind_eq_bind, Option.pure_def, Option.bind_eq_some_iff] at h
    obtain ⟨_, -, kind, -, h⟩ := h
    cases action with
    | defineLabel label =>
      cases hl
      -- only one kind gives a definition
      split at h <;> simp [Option.bind_eq_some_iff] at h
      · split at h <;> simp [Option.bind_eq_some_iff] at h
      · obtain ⟨_, -, h⟩ := h
        exact Label.range_fits h
    | _ => contradiction
  · contradiction

theorem Instruction.definition_fits {j : Json} {i : Instruction} (h : ofJson? j = some i)
    {l : Label} (hl : i.action.definition? = some l) : l.range.Fits := by
  simp only [ofJson?, Option.bind_eq_bind, Option.pure_def, Option.bind_eq_some_iff] at h
  obtain ⟨_, -, lineNumber, -, _, -, action, haction, h⟩ := h
  cases h
  exact Action.definition_fits haction hl

theorem exists_of_mem_mapM {α β : Type} {read : α → Option β} {items : List α} {results : List β}
    (h : items.mapM read = some results) {b : β} (hb : b ∈ results) :
    ∃ a ∈ items, read a = some b := by
  induction items generalizing results with
  | nil =>
    cases h
    contradiction
  | cons a items ih =>
    rw [List.mapM_cons] at h
    simp only [Option.bind_eq_bind, Option.pure_def, Option.bind_eq_some_iff] at h
    obtain ⟨first, hfirst, rest, hrest, h⟩ := h
    cases h
    rcases List.mem_cons.mp hb with rfl | hb
    · exact ⟨a, List.mem_cons_self .., hfirst⟩
    · obtain ⟨a', ha', hread⟩ := ih hrest hb
      exact ⟨a', List.mem_cons_of_mem a ha', hread⟩

theorem Program.definition_fits {j : Json} {p : Program} (h : ofJson? j = some p) {n : Nat}
    {l : Label} (hl : p.definition? n = some l) : l.range.Fits := by
  simp only [ofJson?, Option.bind_eq_bind, Option.pure_def, Option.bind_eq_some_iff] at h
  obtain ⟨_, -, name, -, _, -, _, -, instructions, hinstructions, h⟩ := h
  cases h
  obtain ⟨i, hi, hdefinition⟩ := List.mem_filterMap.mp (List.mem_of_find?_eq_some hl)
  obtain ⟨item, -, hitem⟩ := exists_of_mem_mapM hinstructions hi
  exact Instruction.definition_fits hitem hdefinition

/-- What a hover tells of lies where the coordinates have 32 bits. -/
theorem Program.exists_range_of_hover? {j : Json} {p : Program} (h : ofJson? j = some p)
    {cursor : EditorPosition} {hover : Hover} (hhover : p.hover? cursor = some hover) :
    ∃ range : Range, range.Fits ∧ hover.range = range.toEditor := by
  simp only [hover?, Option.bind_eq_bind, Option.pure_def, Option.bind_eq_some_iff] at hhover
  obtain ⟨_, -, _, -, n, -, definition, hdefinition, hhover⟩ := hhover
  cases hhover
  exact ⟨definition.range, definition_fits h hdefinition, rfl⟩

end Pendant

end KarelKit
