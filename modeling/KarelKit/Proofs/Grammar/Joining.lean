import KarelKit.Proofs.Grammar.Comments
import KarelKit.Proofs.Grammar.Matching
import KarelKit.Proofs.Token.Joining

namespace KarelKit

open KarelKit.Language Rule

theorem Range.between_first {p : Position} (h : .first ≤ p) : between p .first = ⟨p, p⟩ := by
  rw [between]
  split
  · rename_i hle
    rw [Position.le_antisymm hle h]
  · rfl

/-- The first place ends no range that begins behind it, so it need not move. Rules begin with it as
if a token ended there. -/
theorem Range.between_moved {lines : Nat} {start stop stop' : Position} (hstart : .first ≤ start)
    (hstop : stop' = stop.down lines ∨ stop = .first ∧ stop' = .first) :
    between (start.down lines) stop' = (between start stop).down lines := by
  rcases hstop with rfl | ⟨rfl, rfl⟩
  · exact between_down lines start stop
  · have hstart' : .first ≤ start.down lines := Position.le_trans hstart Position.le_down
    rw [between_first hstart', between_first hstart, down]

/-- Lexemes move down, and all places with them, but for the first place as the end of no token. -/
def Matching.down (lines : Nat) : Matching where
  name := Eq
  lexeme l l' := .first ≤ l.range.start ∧ l' = l.down lines
  start p p' := .first ≤ p ∧ p' = p.down lines
  stop p p' := p' = p.down lines ∨ p = .first ∧ p' = .first
  range r r' := r' = r.down lines
  token_of h := h.2 ▸ Token.matches_self (fun _ => rfl) _
  start_of h := ⟨h.1, congrArg (·.range.start) h.2⟩
  stop_of h := Or.inl (congrArg (·.range.stop) h.2)
  between hs he := hs.2 ▸ Range.between_moved hs.1 he

/-- The rules are about lexemes alone, so that these need not be those of a text. -/
theorem readAll_down {entry : Entry} {text : Lexed} {t : Tree} (lines : Nat)
    (hstart : ∀ l ∈ text.lexemes, .first ≤ l.range.start) (hstop : .first ≤ text.stop)
    (h : readAll entry.rule text = .ok t) :
    ∃ t', readAll entry.rule ⟨text.lexemes.map (·.down lines), text.stop.down lines⟩ = .ok t' ∧
      t.Matches Eq (fun r r' => r' = r.down lines) t' := by
  have hlexemes : List.Forall₂ (Matching.down lines).lexeme text.lexemes
      (text.lexemes.map (·.down lines)) := by
    rw [List.forall₂_map_right_iff, List.forall₂_same]
    exact fun l hl => ⟨hstart l hl, rfl⟩
  have hcursor : (Cursor.start text).Matches (.down lines)
      (.start ⟨text.lexemes.map (·.down lines), text.stop.down lines⟩) :=
    ⟨hlexemes, Or.inr ⟨rfl, rfl⟩, hstop, rfl⟩
  obtain ⟨t₁, t', ht₁, ht', hmatch⟩ | ⟨e, e', he, -⟩ := entry.keeps.readAll hcursor
  · rw [h] at ht₁
    cases ht₁
    exact ⟨t', ht', hmatch⟩
  · rw [h] at he
    contradiction

theorem Declarations.append_assoc (d e f : Declarations) : d ++ e ++ f = d ++ (e ++ f) := by
  change (⟨_, _⟩ : Declarations) = ⟨_, _⟩
  rw [types_append, constants_append, List.append_assoc, List.append_assoc]
  rfl

theorem Declarations.join_append (s s' : List Declarations) :
    join (s ++ s') = join s ++ join s' := by
  induction s with
  | nil => rfl
  | cons d s ih => rw [List.cons_append, join_cons, join_cons, ih, append_assoc]

theorem Language.declarations_eq_join {u : List Lexeme} {d : Declarations} :
    Entry.declarations.language u (.declarations d) ↔
      ∃ x v s, u = x ++ v ∧ (∀ l ∈ x, l.node.isComment = true) ∧ sections v s ∧ d = .join s := by
  constructor
  · intro h
    obtain ⟨x, v, _, rfl, hx, hv⟩ := h
    obtain ⟨s, hs, hd⟩ := bind_pure_iff.mp hv
    cases hd
    exact ⟨x, v, s, rfl, hx, hs, rfl⟩
  · intro h
    obtain ⟨x, v, s, rfl, hx, hs, rfl⟩ := h
    exact ⟨x, v, (), rfl, hx, bind_pure hs⟩

/-- Sections go on behind sections. The comments between them belong to the last one before. -/
theorem Language.declarations_append {u v : List Lexeme} {d e : Declarations}
    (h : Entry.declarations.language u (.declarations d))
    (h' : Entry.declarations.language v (.declarations e)) :
    Entry.declarations.language (u ++ v) (.declarations (d ++ e)) := by
  obtain ⟨x, w, s, rfl, hx, hs, rfl⟩ := declarations_eq_join.mp h
  obtain ⟨x', w', s', rfl, hx', hs', rfl⟩ := declarations_eq_join.mp h'
  rw [← Declarations.join_append]
  apply declarations_eq_join.mpr
  by_cases hnil : w = []
  · subst hnil
    refine ⟨x ++ x', w', s ++ s', by simp, fun l hl => ?_, many_append hs hs', rfl⟩
    exact (List.mem_append.mp hl).elim (hx l) (hx' l)
  · have habsorbed := sections_absorbing w x' s hs hnil hx'
    exact ⟨x, w ++ x' ++ w', s ++ s', by simp, hx, many_append habsorbed hs', rfl⟩

/-- Two accepted texts, one on a new line behind the other, are accepted. What they declare comes
in this order, and the ranges in the second one are moved down below the lines of the first. -/
theorem parse_joined {a b : String} {d e : Declarations}
    (ha : parse .declarations a = .ok (.declarations d))
    (hb : parse .declarations b = .ok (.declarations e)) :
    ∃ e', parse .declarations (a ++ "\n" ++ b) = .ok (.declarations (d ++ e')) ∧
      e.Matches Eq (fun r r' => r' = r.down (1 + a.toList.count '\n')) e' := by
  obtain ⟨text, hlex⟩ := lex_of_parse ha
  obtain ⟨text', hlex'⟩ := lex_of_parse hb
  obtain ⟨stop, hjoined⟩ := lex_joined hlex hlex'
  rw [parse_eq_ok_iff hlex] at ha
  rw [parse_of_lex hlex'] at hb
  have hstop : .first ≤ text'.stop := by
    rw [(Token.lexFrom_of_lex hlex').2]
    exact Position.le_after ..
  obtain ⟨t', hmoved, hmatch⟩ := readAll_down (1 + a.toList.count '\n')
    (Token.lexes_of_lex hlex').rising.2 hstop hb
  cases hmatch with
  | @declarations _ e' hmatch =>
    rw [readAll_eq_ok_iff] at hmoved
    refine ⟨e', ?_, hmatch⟩
    rw [parse_eq_ok_iff hjoined]
    exact declarations_append ha hmoved

/-- A text of two sections behind itself, three lines further down. -/
theorem parse_joined_sections : ∃ d e',
    parse .declarations "type t = array of -- c\nk\nconst a = 1" = .ok (.declarations d) ∧
    parse .declarations ("type t = array of -- c\nk\nconst a = 1" ++ "\n" ++
      "type t = array of -- c\nk\nconst a = 1") = .ok (.declarations (d ++ e')) ∧
    d.Matches Eq (fun r r' => r' = r.down 3) e' := by
  obtain ⟨-, hparse, -⟩ := parse_sections
  obtain ⟨e', hjoined, hmatch⟩ := parse_joined hparse hparse
  exact ⟨_, e', hparse, hjoined, hmatch⟩

end KarelKit
