import KarelKit.Proofs.Grammar.Completeness
import KarelKit.Proofs.Grammar.Soundness

namespace KarelKit

open Grammar KarelKit.Language Rule

instance decidableEqExcept {ε α : Type} [DecidableEq ε] [DecidableEq α] :
    DecidableEq (Except ε α)
  | .ok a, .ok b => decidable_of_iff (a = b) (by simp)
  | .error e, .error d => decidable_of_iff (e = d) (by simp)
  | .ok _, .error _ => isFalse (by simp)
  | .error _, .ok _ => isFalse (by simp)

theorem Entry.outlined (entry : Entry) : ∃ o, entry.language.Outlined o := by
  cases entry with
  | declarations => exact ⟨_, declarations_outlined⟩
  | typeDeclaration =>
    have h := (typeDeclaration_parses (n := 0)).outlined.located rfl
    exact ⟨_, (h.map Tree.typeDeclaration).whole rfl (by decide)⟩
  | userType =>
    have h := (userType_parses (n := 0)).outlined.located rfl
    exact ⟨_, (h.map Tree.userType).whole rfl (by decide)⟩
  | dataType =>
    have h := (dataType_parses (n := 0)).outlined.located rfl
    exact ⟨_, (h.map Tree.dataType).whole rfl (by decide)⟩
  | constant =>
    have h := (constant_parses (n := 0)).outlined.located rfl
    exact ⟨_, (h.map Tree.constant).whole rfl (by decide)⟩
  | value =>
    have h := (value_parses (n := 0)).outlined.located rfl
    exact ⟨_, (h.map Tree.value).whole rfl (by decide)⟩

theorem Entry.functional {entry : Entry} {u : List Lexeme} {t t' : Tree}
    (h : entry.language u t) (h' : entry.language u t') : t = t' := by
  obtain ⟨o, ho⟩ := entry.outlined
  exact ho.functional h h'

variable {entry : Entry} {source : String} {text : Lexed}

theorem parse_of_lex (hlex : lex source = .ok text) :
    parse entry source = readAll entry.rule text := by
  unfold parse
  rw [hlex]
  rfl

theorem readAll_eq_ok_iff {t : Tree} :
    readAll entry.rule text = .ok t ↔ entry.language text.lexemes t := by
  obtain ⟨o, ho⟩ := entry.outlined
  exact (entry.settles text).ok_iff ho

theorem parse_eq_ok_iff (hlex : lex source = .ok text) {t : Tree} :
    parse entry source = .ok t ↔ entry.language text.lexemes t := by
  rw [parse_of_lex hlex, readAll_eq_ok_iff]

theorem lex_of_parse {t : Tree} (h : parse entry source = .ok t) :
    ∃ text, lex source = .ok text := by
  unfold parse at h
  cases hlex : lex source with
  | ok text => exact ⟨text, rfl⟩
  | error e =>
    rw [hlex] at h
    contradiction

/-- What derives is parsed, to the tree that is derived. -/
theorem parse_of_derives {b : Tree} (hlex : lex source = .ok text)
    (h : entry.Derives (text.lexemes.map (·.node)) b) :
    ∃ t, parse entry source = .ok t ∧ t.bare = b := by
  obtain ⟨t, ht, hb⟩ := Entry.spells h text.lexemes rfl
  exact ⟨t, (parse_eq_ok_iff hlex).mpr ht, hb⟩

/-- What is parsed derives, apart from its comments, and all motion groups of its own names as
parts of position types. -/
theorem derives_of_parse {t : Tree} (hlex : lex source = .ok text)
    (h : parse entry source = .ok t) : entry.Derives (tokens text.lexemes) t.settle.bare :=
  Entry.derives_of_language ((parse_eq_ok_iff hlex).mp h)

/-- A text without comments is accepted exactly if its tokens derive a tree, and its parse is the
only tree that they derive. -/
theorem parse_ok_iff_derives (hlex : lex source = .ok text)
    (hcomments : ∀ l ∈ text.lexemes, l.node.isComment = false) :
    ((∃ t, parse entry source = .ok t) ↔ ∃ b, entry.Derives (text.lexemes.map (·.node)) b) ∧
      ∀ t, parse entry source = .ok t →
        ∀ b, entry.Derives (text.lexemes.map (·.node)) b ↔ b = t.bare := by
  have hunique : ∀ {t b}, parse entry source = .ok t →
      entry.Derives (text.lexemes.map (·.node)) b → b = t.bare := by
    intro t b ht hb
    obtain ⟨t', ht', rfl⟩ := parse_of_derives hlex hb
    rw [ht] at ht'
    cases ht'
    rfl
  have hderives : ∀ {t}, parse entry source = .ok t →
      entry.Derives (text.lexemes.map (·.node)) t.bare := by
    intro t ht
    -- the settled tree derives too, so it is the tree that is parsed
    have hsettled := derives_of_parse hlex ht
    rw [tokens_of_no_comments hcomments] at hsettled
    rwa [hunique ht hsettled] at hsettled
  constructor
  · constructor
    · intro h
      obtain ⟨t, ht⟩ := h
      exact ⟨t.bare, hderives ht⟩
    · intro h
      obtain ⟨b, hb⟩ := h
      obtain ⟨t, ht, -⟩ := parse_of_derives hlex hb
      exact ⟨t, ht⟩
  · intro t ht b
    constructor
    · exact hunique ht
    · intro hb
      rw [hb]
      exact hderives ht

theorem parse_ok_iff_derives_array : ∃ t, parse .dataType "ARRAY[2] OF limits" = .ok t ∧
    ∀ b, Entry.dataType.Derives [.word "ARRAY", .mark .leftBracket, .integer 2,
      .mark .rightBracket, .word "OF", .word "limits"] b ↔ b = t.bare := by
  have hlex : lex "ARRAY[2] OF limits" = .ok ⟨[⟨.word "ARRAY", ⟨⟨1, 1⟩, ⟨1, 6⟩⟩⟩,
      ⟨.mark .leftBracket, ⟨⟨1, 6⟩, ⟨1, 7⟩⟩⟩, ⟨.integer 2, ⟨⟨1, 7⟩, ⟨1, 8⟩⟩⟩,
      ⟨.mark .rightBracket, ⟨⟨1, 8⟩, ⟨1, 9⟩⟩⟩, ⟨.word "OF", ⟨⟨1, 10⟩, ⟨1, 12⟩⟩⟩,
      ⟨.word "limits", ⟨⟨1, 13⟩, ⟨1, 19⟩⟩⟩], ⟨1, 19⟩⟩ := by
    decide +kernel
  have hparse : parse .dataType "ARRAY[2] OF limits" = .ok (.dataType ⟨.array
      [⟨.literal 2, ⟨⟨1, 7⟩, ⟨1, 8⟩⟩⟩] (.named "limits" none) ⟨⟨1, 13⟩, ⟨1, 19⟩⟩,
      ⟨⟨1, 1⟩, ⟨1, 19⟩⟩⟩) := by
    decide +kernel
  exact ⟨_, hparse, (parse_ok_iff_derives hlex (by decide)).2 _ hparse⟩

/-- A text of two sections, with a comment inside of an open array's type. -/
theorem parse_sections :
    lex "type t = array of -- c\nk\nconst a = 1" = .ok ⟨[⟨.word "type", ⟨⟨1, 1⟩, ⟨1, 5⟩⟩⟩,
      ⟨.word "t", ⟨⟨1, 6⟩, ⟨1, 7⟩⟩⟩, ⟨.mark .equals, ⟨⟨1, 8⟩, ⟨1, 9⟩⟩⟩,
      ⟨.word "array", ⟨⟨1, 10⟩, ⟨1, 15⟩⟩⟩, ⟨.word "of", ⟨⟨1, 16⟩, ⟨1, 18⟩⟩⟩,
      ⟨.comment " c", ⟨⟨1, 19⟩, ⟨1, 23⟩⟩⟩, ⟨.word "k", ⟨⟨2, 1⟩, ⟨2, 2⟩⟩⟩,
      ⟨.word "const", ⟨⟨3, 1⟩, ⟨3, 6⟩⟩⟩, ⟨.word "a", ⟨⟨3, 7⟩, ⟨3, 8⟩⟩⟩,
      ⟨.mark .equals, ⟨⟨3, 9⟩, ⟨3, 10⟩⟩⟩, ⟨.integer 1, ⟨⟨3, 11⟩, ⟨3, 12⟩⟩⟩], ⟨3, 12⟩⟩ ∧
    parse .declarations "type t = array of -- c\nk\nconst a = 1" = .ok (.declarations
      ⟨[⟨⟨"t", ⟨.data (.array [] (.named "k" none) ⟨⟨2, 1⟩, ⟨2, 2⟩⟩), ⟨⟨1, 10⟩, ⟨2, 2⟩⟩⟩, none⟩,
        ⟨⟨1, 6⟩, ⟨2, 2⟩⟩⟩], [⟨⟨"a", ⟨.integer 1, ⟨⟨3, 11⟩, ⟨3, 12⟩⟩⟩⟩, ⟨⟨3, 7⟩, ⟨3, 12⟩⟩⟩]⟩) ∧
    Tree.print (.declarations
      ⟨[⟨⟨"t", ⟨.data (.array [] (.named "k" none) ⟨⟨2, 1⟩, ⟨2, 2⟩⟩), ⟨⟨1, 10⟩, ⟨2, 2⟩⟩⟩, none⟩,
        ⟨⟨1, 6⟩, ⟨2, 2⟩⟩⟩], [⟨⟨"a", ⟨.integer 1, ⟨⟨3, 11⟩, ⟨3, 12⟩⟩⟩⟩, ⟨⟨3, 7⟩, ⟨3, 12⟩⟩⟩]⟩) =
          "CONST\n    a = 1\nTYPE\n    t = ARRAY[] OF k\n" := by
  decide +kernel

end KarelKit
