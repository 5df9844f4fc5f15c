import KarelKit.Proofs.Token.Reading

namespace KarelKit
namespace Token

/-- What stands after a part of a canonical text. It ends a word or a number before it. -/
def Breaks (text : List Char) : Prop := ∀ c ∈ text.head?, c ∈ [' ', '\n', ',', ']']

theorem Breaks.closes {text : List Char} (h : Breaks text) {t : Token}
    (ht : t.isComment = false) : t.Closes text := by
  have hword : ∀ c ∈ [' ', '\n', ',', ']'], continuesWord c = false := by
    intro c hc
    simp only [List.mem_cons, List.not_mem_nil, or_false] at hc
    rcases hc with rfl | rfl | rfl | rfl
    · exact continuesWord_eq_false_of_isBlank isBlank_space
    · exact continuesWord_eq_false_of_isBlank isBlank_newline
    · exact continuesWord_char .comma
    · exact continuesWord_char .rightBracket
  have hnumber : ∀ c ∈ [' ', '\n', ',', ']'],
      c.isDigit = false ∧ c ≠ '.' ∧ c ≠ 'e' ∧ c ≠ 'E' := by
    simp
  cases t with
  | word w => exact fun c hc => hword c (h c hc)
  | integer n => exact fun c hc => hnumber c (h c hc)
  | real literal => exact fun c hc => hnumber c (h c hc)
  | string content => exact True.intro
  | comment content => cases ht
  | mark m => exact True.intro

theorem breaks_cons {c : Char} (hc : c ∈ [' ', '\n', ',', ']']) (text : List Char) :
    Breaks (c :: text) := by
  intro d hd
  cases hd
  exact hc

/-- In front of a break the tokens of `text` are `tokens`. -/
def Prints (text : List Char) (tokens : List Token) : Prop :=
  ∀ rest us, Breaks rest → Reads rest us → Reads (text ++ rest) (tokens ++ us)

theorem Prints.reads {text : List Char} {tokens : List Token} (h : Prints text tokens) :
    Reads text tokens := by
  have hread := h [] [] (by simp [Breaks]) Reads.nil
  rwa [List.append_nil, List.append_nil] at hread

namespace Reads

variable {text : List Char} {tokens : List Token} {w : String}

theorem word (hw : IsWord w) {c : Char} (hc : continuesWord c = false)
    (h : Reads (c :: text) tokens) : Reads (w.toList ++ c :: text) (.word w :: tokens) := by
  apply Reads.token (t := .word w) hw _ h
  intro d hd
  cases hd
  exact hc

theorem space (h : Reads text tokens) : Reads (' ' :: text) tokens := .blank isBlank_space h

theorem word_space (hw : IsWord w) (h : Reads text tokens) :
    Reads (w.toList ++ ' ' :: text) (.word w :: tokens) :=
  word hw (continuesWord_eq_false_of_isBlank isBlank_space) (space h)

theorem word_newline (hw : IsWord w) (h : Reads text tokens) :
    Reads (w.toList ++ '\n' :: text) (.word w :: tokens) :=
  word hw (continuesWord_eq_false_of_isBlank isBlank_newline) (.blank isBlank_newline h)

theorem mark (m : Mark) (h : Reads text tokens) :
    Reads (m.char :: text) (.mark m :: tokens) :=
  Reads.token (t := .mark m) trivial trivial h

end Reads

namespace Prints

variable {text : List Char} {tokens : List Token} {w : String}

theorem of_token {t : Token} (ht : t.Legible) (hcomment : t.isComment = false) :
    Prints t.spelling [t] := by
  intro rest us hrest hread
  exact Reads.token ht (hrest.closes hcomment) hread

theorem word_space (hw : IsWord w) (h : Prints text tokens) :
    Prints (w.toList ++ ' ' :: text) (.word w :: tokens) := by
  intro rest us hrest hread
  rw [List.append_assoc]
  exact Reads.word_space hw (h rest us hrest hread)

/-- A mark ends the word in front of it. -/
theorem word_mark (hw : IsWord w) {m : Mark} (h : Prints (m.char :: text) tokens) :
    Prints (w.toList ++ m.char :: text) (.word w :: tokens) := by
  intro rest us hrest hread
  rw [List.append_assoc]
  exact Reads.word hw (continuesWord_char m) (h rest us hrest hread)

theorem mark_space (m : Mark) (h : Prints text tokens) :
    Prints (m.char :: ' ' :: text) (.mark m :: tokens) := by
  intro rest us hrest hread
  exact Reads.mark m (Reads.space (h rest us hrest hread))

/-- A number in brackets. -/
theorem size {n : Nat} (hn : n < 0x100000000) :
    Prints ('[' :: ((toString n).toList ++ [']']))
      [.mark .leftBracket, .integer n, .mark .rightBracket] := by
  intro rest us hrest hread
  rw [List.cons_append, List.append_assoc]
  apply Reads.mark .leftBracket
  apply Reads.token (t := .integer n)
  · unfold Legible
    omega
  · exact (breaks_cons (by decide) rest).closes rfl
  · exact Reads.mark .rightBracket hread

end Prints

/-- Tokens with marks between them. -/
theorem reads_intercalate {α : Type} {separator : String} {m : Mark}
    (hseparator : separator.toList = [m.char]) (f : α → String) (token : α → Token) {a : α}
    {items : List α} (h : ∀ x ∈ a :: items, (f x).toList = (token x).spelling ∧
      (token x).Legible ∧ (token x).isComment = false ∧ ∀ text, (token x).Closes (m.char :: text))
    {rest : List Char} {us : List Token} (hrest : Breaks rest) (hread : Reads rest us) :
    Reads ((separator.intercalate ((a :: items).map f)).toList ++ rest)
      (token a :: (items.flatMap (fun x => [.mark m, token x]) ++ us)) := by
  induction items generalizing a with
  | nil =>
    obtain ⟨hspelling, hlegible, hcomment, -⟩ := h a (List.mem_cons_self ..)
    rw [List.map_singleton, String.intercalate_singleton, hspelling]
    exact Reads.token hlegible (hrest.closes hcomment) hread
  | cons b items ih =>
    obtain ⟨hspelling, hlegible, -, hcloses⟩ := h a (List.mem_cons_self ..)
    have htail := ih fun x hx => h x (List.mem_cons_of_mem a hx)
    rw [List.map_cons, List.map_cons, String.intercalate_cons_cons, String.toList_append,
      String.toList_append, hspelling, hseparator, List.append_assoc, List.append_assoc]
    apply Reads.token hlegible (hcloses _)
    exact Reads.mark m htail

end Token
end KarelKit
