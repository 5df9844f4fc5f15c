import KarelKit.Proofs.Language.Basic
import KarelKit.Proofs.Token.Layout
import Mathlib.Data.List.Induction

namespace KarelKit
namespace Language

variable {u v : List Lexeme} {l : Lexeme}

/-- The lexemes that are no comments. -/
def solid (u : List Lexeme) : List Lexeme := u.filter (!·.node.isComment)

theorem mem_solid : l ∈ solid u ↔ l ∈ u ∧ l.node.isComment = false := by
  simp [solid]

theorem mem_of_getLast?_solid (h : (solid u).getLast? = some l) : l ∈ u :=
  (mem_solid.mp (List.mem_of_getLast? h)).1

theorem solid_append (u v : List Lexeme) : solid (u ++ v) = solid u ++ solid v :=
  List.filter_append ..

theorem solid_of_comments (h : ∀ l ∈ u, l.node.isComment = true) : solid u = [] := by
  rw [solid, List.filter_eq_nil_iff]
  intro l hl
  simp [h l hl]

theorem solid_of_plain (h : ∀ l ∈ u, l.node.isComment = false) : solid u = u := by
  rw [solid, List.filter_eq_self]
  intro l hl
  simp [h l hl]

theorem plain_solid (u : List Lexeme) : ∀ l ∈ solid u, l.node.isComment = false :=
  fun _ hl => (mem_solid.mp hl).2

theorem comments_of_solid_eq_nil (h : solid u = []) : ∀ l ∈ u, l.node.isComment = true := by
  intro l hl
  have hfilter := List.filter_eq_nil_iff.mp h l hl
  simpa using hfilter

theorem nil_of_comments (h : ∀ l ∈ u, l.node.isComment = true)
    (hplain : ∀ l ∈ u, l.node.isComment = false) : u = [] := by
  rw [← solid_of_plain hplain, solid_of_comments h]

theorem rising_solid (h : Rising u) : Rising (solid u) := h.sublist List.filter_sublist

theorem split_of_solid {s t : List Lexeme} (h : solid u = s ++ t) :
    ∃ v w, u = v ++ w ∧ solid v = s ∧ solid w = t ∧ ∀ l ∈ w.head?, l.node.isComment = false := by
  obtain ⟨v, w, rfl, hv, hw⟩ := List.filter_eq_append_iff.mp h
  -- comments between the two parts go to the first one
  have hcomments : solid (w.takeWhile (·.node.isComment)) = [] :=
    solid_of_comments (takeWhile_comments w)
  have happend : w.takeWhile (·.node.isComment) ++ w.dropWhile (·.node.isComment) = w :=
    List.takeWhile_append_dropWhile
  refine ⟨v ++ w.takeWhile (·.node.isComment), w.dropWhile (·.node.isComment), ?_, ?_, ?_, ?_⟩
  · rw [List.append_assoc, happend]
  · rw [solid_append, hcomments, List.append_nil]
    exact hv
  · rw [← hw, ← solid, ← congrArg solid happend, solid_append, hcomments, List.nil_append]
  · intro l hl
    have hhead := List.head?_dropWhile_not (·.node.isComment) w
    rw [Option.mem_def] at hl
    rw [hl] at hhead
    exact hhead

/-- Comments at the end, and what ends with another lexeme. -/
theorem trim_comments (u : List Lexeme) : ∃ v w, u = v ++ w ∧
    (∀ l ∈ w, l.node.isComment = true) ∧ ∀ l ∈ v.getLast?, l.node.isComment = false := by
  induction u using List.reverseRecOn with
  | nil => exact ⟨[], [], rfl, by simp, by simp⟩
  | append_singleton u l ih =>
    cases hl : l.node.isComment with
    | true =>
      obtain ⟨v, w, rfl, hw, hv⟩ := ih
      refine ⟨v, w ++ [l], List.append_assoc .., ?_, hv⟩
      intro m hm
      rcases List.mem_append.mp hm with hm | hm
      · exact hw m hm
      · rwa [List.mem_singleton.mp hm]
    | false =>
      refine ⟨u ++ [l], [], (List.append_nil _).symm, by simp, ?_⟩
      intro m hm
      rw [List.getLast?_concat] at hm
      rwa [← Option.some.inj hm]

theorem exists_getLast? (h : u ≠ []) : ∃ l, u.getLast? = some l :=
  ⟨_, List.getLast?_eq_some_getLast h⟩

theorem getLast?_solid (h : ∀ l ∈ u.getLast?, l.node.isComment = false) :
    (solid u).getLast? = u.getLast? := by
  rcases List.eq_nil_or_concat' u with rfl | ⟨v, l, rfl⟩
  · rfl
  · have hl : l.node.isComment = false := h l List.getLast?_concat
    have hself : solid [l] = [l] := solid_of_plain (by simpa using hl)
    rw [solid_append, hself, List.getLast?_concat, List.getLast?_concat]

theorem lastEnd_eq (u : List Lexeme) (p : Position) :
    lastEnd u p = ((solid u).getLast?.map (·.range.stop)).getD p := by
  induction u using List.reverseRecOn with
  | nil => rfl
  | append_singleton u l ih =>
    rw [lastEnd_append, solid_append]
    cases hl : l.node.isComment with
    | true =>
      have hnil : solid [l] = [] := solid_of_comments (by simpa using hl)
      rw [lastEnd_comments (by simpa using hl), hnil, List.append_nil, ih]
    | false =>
      have hself : solid [l] = [l] := solid_of_plain (by simpa using hl)
      rw [hself, List.getLast?_concat]
      simp [lastEnd, hl]

theorem span_eq (h : Rising u) {f : Lexeme} (hf : u.head? = some f)
    (hl : (solid u).getLast? = some l) : span u = ⟨f.range.start, l.range.stop⟩ := by
  obtain ⟨rest, rfl⟩ := List.head?_eq_some_iff.mp hf
  have hmem : l ∈ f :: rest := mem_of_getLast?_solid hl
  have hend : lastEnd (f :: rest) f.range.start = l.range.stop := by
    rw [lastEnd_eq, hl]
    rfl
  have hle : f.range.start ≤ l.range.stop := by
    have hsolid := Position.le_of_lt (h.nonempty l hmem)
    rcases List.mem_cons.mp hmem with rfl | hmem
    · exact hsolid
    · have hapart := List.rel_of_pairwise_cons h.apart hmem
      have hfirst := Position.le_of_lt (h.nonempty f (List.mem_cons_self ..))
      exact Position.le_trans hfirst (Position.le_trans hapart hsolid)
  rw [span, hend, Range.between_eq hle]

theorem span_stop (h : Rising u) (hl : (solid u).getLast? = some l) :
    (span u).stop = l.range.stop := by
  cases u with
  | nil => contradiction
  | cons f rest => rw [span_eq h rfl hl]

theorem span_solid_stop (h : Rising u) (hl : (solid u).getLast? = some l) :
    (span (solid u)).stop = l.range.stop := by
  apply span_stop (rising_solid h)
  rwa [solid_of_plain (plain_solid u)]

end Language
end KarelKit
