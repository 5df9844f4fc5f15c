import KarelKit.Proofs.Grammar.Matching
import KarelKit.Proofs.Grammar.ViablePrefix
import KarelKit.Proofs.Token.Relayout

namespace KarelKit

/-- Where the tokens of a text begin, and where it ends. -/
def Lexed.places (text : Lexed) : List Position := text.stream.map (·.1)

/-- Two readings that say the same: trees that differ in ranges only, or errors at tokens of the
same number with the same expectations and the same token found. -/
inductive SameReading (text text' : Lexed) :
    Except ParseError Tree → Except ParseError Tree → Prop
  | ok {t t' : Tree} (h : t'.bare = t.bare) : SameReading text text' (.ok t) (.ok t')
  | error {e e' : ParseError} (k : Nat) (hplace : text.places[k]? = some e.position)
    (hplace' : text'.places[k]? = some e'.position) (hexpected : e'.expected = e.expected)
    (hfound : e'.found = e.found) : SameReading text text' (.error e) (.error e')

theorem Found.Matches.eq {f f' : Found} (h : f.Matches Eq f') : f' = f := by
  cases h with
  | token h => rw [h.eq]
  | endOfInput => rfl

variable {source source' : String} {text text' : Lexed}

/-- Places of tokens of the same number. -/
def SamePlace (text text' : Lexed) (p p' : Position) : Prop :=
  ∃ k : Nat, text.places[k]? = some p ∧ text'.places[k]? = some p'

/-- Tokens match that are the same, at places of the same number; their ranges are not compared. -/
def Matching.sameTokens (text text' : Lexed) : Matching where
  name := Eq
  lexeme l l' := l'.node = l.node ∧ SamePlace text text' l.range.start l'.range.start
  start := SamePlace text text'
  stop _ _ := True
  range _ _ := True
  token_of h := by
    rw [h.1]
    exact Token.matches_self (fun _ => rfl) _
  start_of h := h.2
  stop_of _ := trivial
  between _ _ := trivial

theorem Lexed.places_eq (text : Lexed) :
    text.places = text.lexemes.map (·.range.start) ++ [text.stop] := by
  rw [places, stream, List.map_append, List.map_map]
  rfl

theorem start_matches (h : text'.lexemes.map (·.node) = text.lexemes.map (·.node)) :
    (Cursor.start text).Matches (.sameTokens text text') (.start text') := by
  have hlength := congrArg List.length h
  rw [List.length_map, List.length_map] at hlength
  refine ⟨?_, trivial, text.lexemes.length, ?_, ?_⟩
  · change List.Forall₂ _ text.lexemes text'.lexemes
    rw [List.forall₂_iff_get]
    refine ⟨hlength.symm, fun i hi hi' => ⟨?_, i, ?_, ?_⟩⟩
    · have hnode := congrArg (·[i]?) h
      simpa [hi, hi'] using hnode
    · rw [Lexed.places_eq, List.getElem?_append_left (by simpa using hi)]
      simp [hi]
    · rw [Lexed.places_eq, List.getElem?_append_left (by simpa using hi')]
      simp [hi']
  · simp [Lexed.places_eq, Cursor.start]
  · simp [Lexed.places_eq, Cursor.start, ← hlength]

/-- Texts of the same tokens are parsed to the same. -/
theorem parse_sameTokens (hlex : lex source = .ok text) (hlex' : lex source' = .ok text')
    (h : text'.lexemes.map (·.node) = text.lexemes.map (·.node)) (entry : Entry) :
    SameReading text text' (parse entry source) (parse entry source') := by
  obtain ⟨t, t', hparse, hparse', ht⟩ | ⟨e, e', hparse, hparse', he⟩ :=
    parse_matches hlex hlex' (start_matches h) entry
  · rw [hparse, hparse']
    exact .ok ht.bare
  · rw [hparse, hparse']
    obtain ⟨k, hplace, hplace'⟩ := he.position
    exact .error k hplace hplace' he.expected he.found.eq

/-- Whatever blanks stand between the tokens of a text, it is read as these tokens, and every rule
makes the same of them. -/
theorem parse_relayout (hlex : lex source = .ok text)
    (h : Relayout source text.lexemes source') :
    ∃ text', lex source' = .ok text' ∧
      text'.lexemes.map (·.node) = text.lexemes.map (·.node) ∧
      ∀ entry, SameReading text text' (parse entry source) (parse entry source') := by
  obtain ⟨text', hlex', hnodes⟩ := lex_relayout hlex h
  exact ⟨text', hlex', hnodes, parse_sameTokens hlex hlex' hnodes⟩

/-- A comment that follows its token at once, and one that does not. -/
theorem parse_relayout_comment :
    lex "1--c" = .ok ⟨[⟨.integer 1, ⟨⟨1, 1⟩, ⟨1, 2⟩⟩⟩, ⟨.comment "c", ⟨⟨1, 2⟩, ⟨1, 5⟩⟩⟩], ⟨1, 5⟩⟩ ∧
    Relayout "1--c" [⟨.integer 1, ⟨⟨1, 1⟩, ⟨1, 2⟩⟩⟩, ⟨.comment "c", ⟨⟨1, 2⟩, ⟨1, 5⟩⟩⟩]
      "\t1\n--c\r" ∧
    ∃ text', lex "\t1\n--c\r" = .ok text' ∧
      text'.lexemes.map (·.node) = [.integer 1, .comment "c"] ∧
      ∀ entry, SameReading ⟨[⟨.integer 1, ⟨⟨1, 1⟩, ⟨1, 2⟩⟩⟩, ⟨.comment "c", ⟨⟨1, 2⟩, ⟨1, 5⟩⟩⟩],
        ⟨1, 5⟩⟩ text' (parse entry "1--c") (parse entry "\t1\n--c\r") := by
  have hlexes : Token.Lexes .first "1--c".toList
      [⟨.integer 1, ⟨⟨1, 1⟩, ⟨1, 2⟩⟩⟩, ⟨.comment "c", ⟨⟨1, 2⟩, ⟨1, 5⟩⟩⟩] :=
    @Token.Lexes.token _ '1' [] ['-', '-', 'c'] _ _ rfl
      (@Token.munches_of_munch .first _ _ _ _ rfl) (@Token.Lexes.token _ '-' ['-', 'c'] [] _ _ rfl
        (@Token.munches_of_munch .first _ _ _ _ rfl) .nil)
  have hlex := lex_of_lexes hlexes
  have hnone : ∀ b ∈ ([] : List Char), Text.isBlank b = true := List.forall_mem_nil _
  have hone {c : Char} (hc : Text.isBlank c = true) : ∀ b ∈ [c], Text.isBlank b = true :=
    List.forall_mem_singleton.mpr hc
  have hrelayout : Relayout "1--c"
      [⟨.integer 1, ⟨⟨1, 1⟩, ⟨1, 2⟩⟩⟩, ⟨.comment "c", ⟨⟨1, 2⟩, ⟨1, 5⟩⟩⟩] "\t1\n--c\r" :=
    ⟨[], ['\t'], _, _, rfl, rfl, hnone, hone (by decide),
      @Relaid.cons _ _ _ ['1'] [] ['\n'] _ _ rfl hnone (hone (by decide)) (fun _ => by simp)
        (fun h => absurd h (by decide))
        (@Relaid.cons _ _ _ ['-', '-', 'c'] [] ['\r'] _ _ rfl hnone (hone (by decide))
          (fun _ => by simp) (fun _ b hb => by cases hb; decide) .nil)⟩
  exact ⟨hlex, hrelayout, parse_relayout hlex hrelayout⟩

end KarelKit
