import KarelKit.Proofs.Grammar.Matching
import KarelKit.Proofs.Grammar.Names
import KarelKit.Proofs.Token.Recasing

namespace KarelKit

variable {source source' : String} {u u' : List Lexeme} {text : Lexed}

/-- The names of each node are the words among the lexemes in its range, in order and as they stand
in the source. -/
def Tree.NamedFrom (source : String) (u : List Lexeme) (t : Tree) : Prop :=
  ∀ n, t.Has n → n.names = namesWithin source u n.range

theorem namesWithin_recased (h : List.Forall₂ Lexeme.Recased u u') (range : Range) :
    namesWithin source u' range = namesWithin source u range := by
  unfold namesWithin
  induction h with
  | nil => rfl
  | @cons l l' u u' hl _ ih =>
    -- the case of letters does not decide what is reserved or predefined
    have hname : l'.node.typeName?.isSome = l.node.typeName?.isSome := by
      have hrel := hl.node.typeName?
      generalize l.node.typeName? = name at hrel ⊢
      generalize l'.node.typeName? = name' at hrel ⊢
      cases hrel <;> rfl
    rw [List.filter_cons, List.filter_cons, hname, hl.range]
    split
    · rw [List.map_cons, List.map_cons, ih, hl.range]
    · exact ih

def Matching.recased : Matching where
  name := SameLetters
  lexeme := Lexeme.Recased
  start := Eq
  stop := Eq
  range := Eq
  token_of h := h.node
  start_of h := by rw [h.range]
  stop_of h := by rw [h.range]
  between hs he := by rw [hs, he]

/-- Whatever the case of letters outside of strings and comments, every rule accepts both texts or
neither. Their trees differ in the case of names at most, and the names are the same words of both
texts, in either as it is written there. -/
theorem parse_recased (hlex : lex source = .ok text)
    (h : Recased source text.lexemes source') (entry : Entry) :
    (∃ t t', parse entry source = .ok t ∧ parse entry source' = .ok t' ∧
      t.Matches SameLetters Eq t' ∧ t.NamedFrom source text.lexemes ∧
      t'.NamedFrom source' text.lexemes) ∨
    ∃ e e', parse entry source = .error e ∧ parse entry source' = .error e' ∧
      e'.position = e.position ∧ e'.expected = e.expected := by
  obtain ⟨text', hlex', hstop, hlexemes⟩ := lex_recased hlex h
  have hstart : (Cursor.start text).Matches .recased (.start text') :=
    ⟨hlexemes, rfl, hstop.symm⟩
  obtain ⟨t, t', hparse, hparse', ht⟩ | ⟨e, e', hparse, hparse', he⟩ :=
    parse_matches hlex hlex' hstart entry
  · refine Or.inl ⟨t, t', hparse, hparse', ht, fun n hn => hn.names_eq hlex hparse, fun n hn => ?_⟩
    rw [hn.names_eq hlex' hparse', namesWithin_recased hlexemes]
  · exact Or.inr ⟨e, e', hparse, hparse', he.position.symm, he.expected⟩

/-- A name and an exponent in the other case, and a comment that has to stay. -/
theorem parse_recased_exponent :
    lex "k=1e5--c" = .ok ⟨[⟨.word "k", ⟨⟨1, 1⟩, ⟨1, 2⟩⟩⟩, ⟨.mark .equals, ⟨⟨1, 2⟩, ⟨1, 3⟩⟩⟩,
      ⟨.real "1E5", ⟨⟨1, 3⟩, ⟨1, 6⟩⟩⟩, ⟨.comment "c", ⟨⟨1, 6⟩, ⟨1, 9⟩⟩⟩], ⟨1, 9⟩⟩ ∧
    Recased "k=1e5--c" [⟨.word "k", ⟨⟨1, 1⟩, ⟨1, 2⟩⟩⟩, ⟨.mark .equals, ⟨⟨1, 2⟩, ⟨1, 3⟩⟩⟩,
      ⟨.real "1E5", ⟨⟨1, 3⟩, ⟨1, 6⟩⟩⟩, ⟨.comment "c", ⟨⟨1, 6⟩, ⟨1, 9⟩⟩⟩] "K=1E5--c" ∧
    ∀ entry, (∃ t t', parse entry "k=1e5--c" = .ok t ∧ parse entry "K=1E5--c" = .ok t' ∧
        t.Matches SameLetters Eq t' ∧
        t.NamedFrom "k=1e5--c" [⟨.word "k", ⟨⟨1, 1⟩, ⟨1, 2⟩⟩⟩, ⟨.mark .equals, ⟨⟨1, 2⟩, ⟨1, 3⟩⟩⟩,
          ⟨.real "1E5", ⟨⟨1, 3⟩, ⟨1, 6⟩⟩⟩, ⟨.comment "c", ⟨⟨1, 6⟩, ⟨1, 9⟩⟩⟩] ∧
        t'.NamedFrom "K=1E5--c" [⟨.word "k", ⟨⟨1, 1⟩, ⟨1, 2⟩⟩⟩, ⟨.mark .equals, ⟨⟨1, 2⟩, ⟨1, 3⟩⟩⟩,
          ⟨.real "1E5", ⟨⟨1, 3⟩, ⟨1, 6⟩⟩⟩, ⟨.comment "c", ⟨⟨1, 6⟩, ⟨1, 9⟩⟩⟩]) ∨
      ∃ e e', parse entry "k=1e5--c" = .error e ∧ parse entry "K=1E5--c" = .error e' ∧
        e'.position = e.position ∧ e'.expected = e.expected := by
  have hlexes : Token.Lexes .first "k=1e5--c".toList [⟨.word "k", ⟨⟨1, 1⟩, ⟨1, 2⟩⟩⟩,
      ⟨.mark .equals, ⟨⟨1, 2⟩, ⟨1, 3⟩⟩⟩, ⟨.real "1E5", ⟨⟨1, 3⟩, ⟨1, 6⟩⟩⟩,
      ⟨.comment "c", ⟨⟨1, 6⟩, ⟨1, 9⟩⟩⟩] :=
    @Token.Lexes.token _ 'k' [] ['=', '1', 'e', '5', '-', '-', 'c'] _ _ rfl
      (@Token.munches_of_munch .first _ _ _ _ rfl) (@Token.Lexes.token _ '='
      [] ['1', 'e', '5', '-', '-', 'c'] _ _ rfl (@Token.munches_of_munch .first _ _ _ _ rfl)
      (@Token.Lexes.token _ '1' ['e', '5'] ['-', '-', 'c'] _ _ rfl
      (@Token.munches_of_munch .first _ _ _ _ rfl) (@Token.Lexes.token _ '-' ['-', 'c'] [] _ _ rfl
      (@Token.munches_of_munch .first _ _ _ _ rfl) .nil)))
  have hlex := lex_of_lexes hlexes
  have hrecased : Recased "k=1e5--c" [⟨.word "k", ⟨⟨1, 1⟩, ⟨1, 2⟩⟩⟩,
      ⟨.mark .equals, ⟨⟨1, 2⟩, ⟨1, 3⟩⟩⟩, ⟨.real "1E5", ⟨⟨1, 3⟩, ⟨1, 6⟩⟩⟩,
      ⟨.comment "c", ⟨⟨1, 6⟩, ⟨1, 9⟩⟩⟩] "K=1E5--c" := ⟨by decide, by decide⟩
  exact ⟨hlex, hrecased, parse_recased hlex hrecased⟩

end KarelKit
