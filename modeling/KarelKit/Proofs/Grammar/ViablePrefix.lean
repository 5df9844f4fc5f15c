import KarelKit.Proofs.Grammar.Parsing
import KarelKit.Proofs.Grammar.Placement
import KarelKit.Proofs.Token.Reading

namespace KarelKit

open KarelKit.Language Rule

/-- The tokens of a text and its end, each with the place where it begins. -/
def Lexed.stream (text : Lexed) : List (Position × Found) :=
  text.lexemes.map (fun l => (l.range.start, .token l.node)) ++ [(text.stop, .endOfInput)]

/-- The tokens of a text, and its end. -/
def Lexed.found (text : Lexed) : List Found := text.stream.map (·.2)

theorem Lexed.found_eq (text : Lexed) :
    text.found = (text.lexemes.map (·.node)).map Found.token ++ [.endOfInput] := by
  unfold found stream
  rw [List.map_append, List.map_map, List.map_map]
  rfl

theorem prefix_of_found {ts us : List Token}
    (h : ts.map Found.token <+: us.map Found.token ++ [.endOfInput]) : ts <+: us := by
  induction ts generalizing us with
  | nil => exact List.nil_prefix
  | cons t ts ih =>
    cases us with
    | nil =>
      rw [List.map_cons, List.map_nil, List.nil_append, List.cons_prefix_cons] at h
      exact absurd h.1 (by simp)
    | cons u us =>
      rw [List.map_cons, List.map_cons, List.cons_append, List.cons_prefix_cons] at h
      rw [Found.token.inj h.1, List.cons_prefix_cons]
      exact ⟨rfl, ih h.2⟩

theorem eq_of_found {ts us : List Token}
    (h : ts.map Found.token ++ [.endOfInput] <+: us.map Found.token ++ [.endOfInput]) :
    ts = us := by
  obtain ⟨vs, rfl⟩ := prefix_of_found ((List.prefix_append _ _).trans h)
  rw [List.map_append, List.append_assoc, List.prefix_append_right_inj] at h
  cases vs with
  | nil => exact (List.append_nil ts).symm
  | cons v vs =>
    rw [List.map_cons, List.cons_append, List.cons_prefix_cons] at h
    exact absurd h.1 (by simp)

variable {entry : Entry} {text : Lexed} {u : List Lexeme} {c : Cursor}

theorem stream_at_cursor (past : (Cursor.start text).Past u c) :
    text.stream[u.length]? = some (c.here, c.found) := by
  have hahead : text.lexemes = u ++ c.ahead := past.ahead
  have hstop : c.stop = text.stop := past.stop
  unfold Lexed.stream
  rw [hahead, List.map_append, List.append_assoc, List.getElem?_append_right (by simp)]
  simp only [List.length_map, Nat.sub_self]
  unfold Cursor.here Cursor.found
  cases c.ahead with
  | nil => simp [hstop]
  | cons l rest => simp

theorem found_eq_append (past : (Cursor.start text).Past u c) :
    ∃ rest, text.found = (u.map (·.node)).map Found.token ++ c.found :: rest := by
  have hahead : text.lexemes = u ++ c.ahead := past.ahead
  rw [Lexed.found_eq, hahead, List.map_append, List.map_append, List.append_assoc]
  unfold Cursor.found
  cases c.ahead with
  | nil => exact ⟨[], rfl⟩
  | cons l rest => exact ⟨_, rfl⟩

theorem take_found (past : (Cursor.start text).Past u c) :
    text.found.take u.length = (u.map (·.node)).map Found.token := by
  obtain ⟨rest, hrest⟩ := found_eq_append past
  rw [hrest, List.take_left' (by simp)]

theorem take_succ_found (past : (Cursor.start text).Past u c) :
    text.found.take (u.length + 1) = (u.map (·.node)).map Found.token ++ [c.found] := by
  obtain ⟨rest, hrest⟩ := found_eq_append past
  rw [hrest, ← List.singleton_append, ← List.append_assoc, List.take_left' (by simp)]

/-- What reading stopped at keeps the tokens up to it from beginning an accepted text. -/
theorem not_accepted_of_halts (past : (Cursor.start text).Past u c)
    (halts : entry.language.Halts u c) (rejects : c.ahead = [] → ∀ t, ¬entry.language u t)
    {text' : Lexed} {t : Tree} (ht : entry.language text'.lexemes t) :
    ¬text.found.take (u.length + 1) <+: text'.found := by
  intro hprefix
  rw [take_succ_found past, Lexed.found_eq] at hprefix
  cases hrest : c.ahead with
  | nil =>
    have hfound : c.found = .endOfInput := by rw [Cursor.found, hrest]
    rw [hfound] at hprefix
    -- with the end of the text, the other text has the same tokens
    obtain ⟨t', ht'⟩ := entry.alike _ _ _ ht (eq_of_found hprefix)
    exact rejects hrest t' ht'
  | cons l rest =>
    have hfound : c.found = .token l.node := by rw [Cursor.found, hrest]
    have hmap : (u.map (·.node)).map Found.token ++ [Found.token l.node] =
        ((u ++ [l]).map (·.node)).map Found.token := by simp
    rw [hfound, hmap] at hprefix
    obtain ⟨ts, hts⟩ := prefix_of_found hprefix
    obtain ⟨v, w, hvw, hv, -⟩ := List.map_eq_append_iff.mp hts.symm
    rw [hvw] at ht
    have hnodes : (u ++ [l] ++ w).map (·.node) = (v ++ w).map (·.node) := by
      rw [List.map_append, ← hv, ← List.map_append]
    obtain ⟨t', ht'⟩ := entry.alike _ _ _ ht hnodes
    exact halts l (by rw [hrest]; rfl) ⟨w, t', ht'⟩

/-- The tokens of a sentence are those of an accepted text. -/
theorem exists_accepted_of_sentence {t : Tree} (hlegible : ∀ l ∈ u, l.node.Legible)
    (h : entry.language u t) : ∃ source text' t', lex source = .ok text' ∧
      parse entry source = .ok t' ∧
        text'.found = (u.map (·.node)).map Found.token ++ [.endOfInput] := by
  have hall : ∀ t ∈ u.map (·.node), t.Legible := by
    intro t ht
    obtain ⟨l, hl, rfl⟩ := List.mem_map.mp ht
    exact hlegible l hl
  -- some characters are read as these tokens, at other places
  obtain ⟨characters, hread⟩ := Token.exists_reads hall
  rw [← String.toList_ofList (l := characters)] at hread
  obtain ⟨text', hlex, hnodes⟩ := Token.lex_of_reads hread
  obtain ⟨t', ht'⟩ := entry.alike _ _ _ h hnodes
  exact ⟨_, text', t', hlex, (parse_eq_ok_iff hlex).mpr ht', by rw [Lexed.found_eq, hnodes]⟩

theorem exists_accepted_of_viable (hlegible : ∀ l ∈ u, l.node.Legible)
    (viable : entry.language.Viable u) : ∃ source text' t, lex source = .ok text' ∧
      parse entry source = .ok t ∧ (u.map (·.node)).map Found.token <+: text'.found := by
  obtain ⟨v, t, hv, hvl⟩ := viable
  have hall : ∀ l ∈ u ++ v, l.node.Legible := by
    intro l hl
    exact (List.mem_append.mp hl).elim (hlegible l) (hvl l)
  obtain ⟨source, text', t', hlex, hparse, hfound⟩ := exists_accepted_of_sentence hall hv
  refine ⟨source, text', t', hlex, hparse, ?_⟩
  rw [hfound, List.map_append, List.map_append, List.append_assoc]
  exact List.prefix_append _ _

theorem legible_of_past (past : (Cursor.start text).Past u c)
    (hlegible : ∀ l ∈ text.lexemes, l.node.Legible) : ∀ l ∈ u, l.node.Legible := by
  intro l hl
  have hahead : text.lexemes = u ++ c.ahead := past.ahead
  apply hlegible l
  rw [hahead]
  exact List.mem_append_left _ hl

/-- What has been read before an error begins an accepted text. -/
theorem exists_accepted (past : (Cursor.start text).Past u c)
    (hlegible : ∀ l ∈ text.lexemes, l.node.Legible) (viable : entry.language.Viable u) :
    ∃ source text' t, lex source = .ok text' ∧ parse entry source = .ok t ∧
      text.found.take u.length <+: text'.found := by
  rw [take_found past]
  exact exists_accepted_of_viable (legible_of_past past hlegible) viable

/-- An error stands where the tokens cease to begin an accepted text: those before it begin one,
and with the one found there they begin none. -/
theorem error_at_end_of_viable_prefix {source : String} {e : ParseError}
    (hlex : lex source = .ok text) (h : parse entry source = .error e) :
    ∃ k, text.stream[k]? = some (e.position, e.found) ∧
      (∃ source' text' t, lex source' = .ok text' ∧ parse entry source' = .ok t ∧
        text.found.take k <+: text'.found) ∧
      ∀ text' t, readAll entry.rule text' = .ok t → ¬text.found.take (k + 1) <+: text'.found := by
  have hsettles := entry.settles text
  rw [parse_of_lex hlex] at h
  rw [h] at hsettles
  cases hsettles with
  | @error u expected c past halts viable rejects =>
    refine ⟨u.length, stream_at_cursor past, ?_, ?_⟩
    · exact exists_accepted past (Token.legible_of_lex hlex) viable
    · intro text' t ht
      exact not_accepted_of_halts past halts rejects (readAll_eq_ok_iff.mp ht)

/-- After `STRUCTURE` alone a text can go on, but not with `ENDSTRUCTURE`. -/
theorem error_at_empty_structure : ∃ k text, lex "STRUCTURE ENDSTRUCTURE" = .ok text ∧
    text.stream[k]? = some (⟨1, 11⟩, .token (.word "ENDSTRUCTURE")) ∧
    (∃ source' text' t, lex source' = .ok text' ∧ parse .userType source' = .ok t ∧
      text.found.take k <+: text'.found) ∧
    ∀ text' t, readAll Entry.userType.rule text' = .ok t →
      ¬text.found.take (k + 1) <+: text'.found := by
  have hlex : lex "STRUCTURE ENDSTRUCTURE" = .ok ⟨[⟨.word "STRUCTURE", ⟨⟨1, 1⟩, ⟨1, 10⟩⟩⟩,
      ⟨.word "ENDSTRUCTURE", ⟨⟨1, 11⟩, ⟨1, 23⟩⟩⟩], ⟨1, 23⟩⟩ := by
    decide +kernel
  have herror : parse .userType "STRUCTURE ENDSTRUCTURE" =
      .error ⟨⟨1, 11⟩, [.name], .token (.word "ENDSTRUCTURE")⟩ := by
    decide +kernel
  obtain ⟨k, hk⟩ := error_at_end_of_viable_prefix hlex herror
  exact ⟨k, _, hlex, hk⟩

end KarelKit
