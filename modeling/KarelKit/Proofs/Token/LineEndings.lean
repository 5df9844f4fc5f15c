import KarelKit.Grammar.Parse
import KarelKit.Proofs.Token.Blanks

namespace KarelKit

namespace Text

/-- The characters with each line feed as a carriage return and a line feed. -/
def crlfLines (text : List Char) : List Char :=
  text.flatMap fun c => if c = '\n' then ['\r', '\n'] else [c]

def crlf (source : String) : String := String.ofList (crlfLines source.toList)

theorem crlfLines_newline (text : List Char) :
    crlfLines ('\n' :: text) = '\r' :: '\n' :: crlfLines text := rfl

theorem crlfLines_cons {c : Char} (hc : c ≠ '\n') (text : List Char) :
    crlfLines (c :: text) = c :: crlfLines text := by
  simp [crlfLines, hc]

theorem crlfLines_append {line : List Char} (h : '\n' ∉ line) (text : List Char) :
    crlfLines (line ++ text) = line ++ crlfLines text := by
  induction line with
  | nil => rfl
  | cons c line ih =>
    simp only [List.mem_cons, not_or] at h
    rw [List.cons_append, crlfLines_cons (Ne.symm h.1), ih h.2, List.cons_append]

/-- A text is one line, or a line and a text behind its line feed. -/
theorem exists_line (text : List Char) :
    '\n' ∉ text ∨ ∃ line more, '\n' ∉ line ∧ text = line ++ '\n' :: more := by
  by_cases h : '\n' ∈ text
  · obtain ⟨line, more, htext, hline⟩ := List.eq_append_cons_of_mem h
    exact Or.inr ⟨line, more, hline, htext⟩
  · exact Or.inl h

end Text

open Text (crlfLines)

theorem Position.next_crlf (p : Position) : (p.next '\r').next '\n' = p.next '\n' := rfl

theorem Position.after_crlfLines (p : Position) (text : List Char) :
    p.after (crlfLines text) = p.after text := by
  induction text generalizing p with
  | nil => rfl
  | cons c text ih =>
    by_cases hc : c = '\n'
    · subst hc
      rw [Text.crlfLines_newline, after_cons, after_cons, next_crlf, ih, after_cons]
    · rw [Text.crlfLines_cons hc, after_cons, ih, after_cons]

namespace Token

theorem munch_crlfLines (here : Position) (c : Char) (text : List Char) :
    munch here c (crlfLines text) = munch here c text := by
  obtain htext | ⟨line, more, hline, rfl⟩ := Text.exists_line text
  · have hself := Text.crlfLines_append htext []
    rw [List.append_nil] at hself
    rw [hself, crlfLines, List.flatMap_nil, List.append_nil]
  · rw [Text.crlfLines_append hline, Text.crlfLines_newline, munch_lineBreak (by decide),
      munch_lineBreak (by decide)]

theorem lexFrom_crlfLines (here : Position) (text : List Char) :
    lexFrom here (crlfLines text) = lexFrom here text := by
  fun_induction lexFrom here text
  case case1 here => rw [crlfLines, List.flatMap_nil, lexFrom]
  case case2 here c text hblank ih =>
    by_cases hc : c = '\n'
    · subst hc
      rw [Text.crlfLines_newline, lexFrom, if_pos (by decide), lexFrom, if_pos hblank,
        Position.next_crlf, ih]
    · rw [Text.crlfLines_cons hc, lexFrom, if_pos hblank, ih]
  case case3 here c text hblank e hmunch =>
    have hc : c ≠ '\n' := by
      rintro rfl
      exact hblank isBlank_newline
    rw [Text.crlfLines_cons hc, lexFrom, if_neg hblank, munch_crlfLines, hmunch]
  case case4 here c text hblank token letters hmunch stop ih =>
    have hmunches := munches_of_munch hmunch
    -- the token is on one line, so that what is left is left in both texts
    have hline : '\n' ∉ c :: letters := hmunches.writtenAs.newline_not_mem hmunches.legible
    simp only [List.mem_cons, not_or] at hline
    have hrest : (crlfLines text).drop letters.length = crlfLines (text.drop letters.length) := by
      conv => lhs; rw [← hmunches.front, Text.crlfLines_append hline.2]
      rw [List.drop_left]
    rw [Text.crlfLines_cons (Ne.symm hline.1), lexFrom, if_neg hblank, munch_crlfLines, hmunch]
    simp only [hrest]
    rw [← ih]

end Token

theorem lex_crlf (source : String) : lex (Text.crlf source) = lex source := by
  rw [lex, lex, Text.crlf, String.toList_ofList, Token.lexFrom_crlfLines,
    Position.after_crlfLines]

/-- A text whose lines end with carriage return and line feed is read as with line feeds alone:
the same lexemes at the same places or the same error, and so the same tree with the same ranges, or
the same error, from every rule. -/
theorem reading_crlf (source : String) : lex (Text.crlf source) = lex source ∧
    ∀ entry, parse entry (Text.crlf source) = parse entry source := by
  refine ⟨lex_crlf source, fun entry => ?_⟩
  rw [parse, parse, lex_crlf]

end KarelKit
