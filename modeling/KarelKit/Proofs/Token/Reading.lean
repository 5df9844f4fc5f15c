import KarelKit.Proofs.Token.Layout
import KarelKit.Proofs.Token.Spelling

namespace KarelKit
namespace Token

/-- Wherever `text` begins, its tokens are `tokens`. -/
def Reads (text : List Char) (tokens : List Token) : Prop :=
  ∀ here, ∃ lexemes, lexFrom here text = .ok lexemes ∧ lexemes.map (·.node) = tokens

theorem Reads.nil : Reads [] [] := by
  intro here
  exact ⟨[], by rw [lexFrom], rfl⟩

theorem Reads.blank {c : Char} {text : List Char} {tokens : List Token}
    (hc : Text.isBlank c = true) (h : Reads text tokens) : Reads (c :: text) tokens := by
  intro here
  obtain ⟨lexemes, hlex, hnodes⟩ := h (here.next c)
  exact ⟨lexemes, by rw [lexFrom, if_pos hc, hlex], hnodes⟩

theorem Reads.token {t : Token} {text : List Char} {tokens : List Token} (ht : t.Legible)
    (htext : t.Closes text) (h : Reads text tokens) :
    Reads (t.spelling ++ text) (t :: tokens) := by
  intro here
  obtain ⟨c, letters, hspelling, hc, hmunch⟩ := munch_spelling ht htext
  obtain ⟨lexemes, hlex, hnodes⟩ := h (here.after (c :: letters))
  refine ⟨⟨t, here, here.after (c :: letters)⟩ :: lexemes, ?_, by rw [List.map_cons, hnodes]⟩
  rw [hspelling, List.cons_append, lexFrom, if_neg (by simp [hc]), hmunch here]
  simp only [List.drop_left, hlex]
  rfl

theorem lex_of_reads {source : String} {tokens : List Token}
    (h : Reads source.toList tokens) :
    ∃ text, lex source = .ok text ∧ text.lexemes.map (·.node) = tokens := by
  obtain ⟨lexemes, hlex, hnodes⟩ := h .first
  exact ⟨⟨lexemes, Position.first.after source.toList⟩, by rw [lex, hlex]; rfl, hnodes⟩

/-- Every run of legible tokens is read from some text: a line break after each one keeps them
apart. -/
theorem exists_reads {tokens : List Token} (h : ∀ t ∈ tokens, t.Legible) :
    ∃ text, Reads text tokens := by
  induction tokens with
  | nil => exact ⟨[], Reads.nil⟩
  | cons t tokens ih =>
    obtain ⟨text, hread⟩ := ih fun u hu => h u (List.mem_cons_of_mem t hu)
    -- a line break ends every token, a comment too
    have hcloses : t.Closes ('\n' :: text) := by
      cases t with
      | word w => intro c hc; cases hc; exact continuesWord_eq_false_of_isBlank isBlank_newline
      | integer value => intro c hc; cases hc; decide
      | real literal => intro c hc; cases hc; decide
      | comment content => intro c hc; cases hc; decide
      | string content => trivial
      | mark m => trivial
    refine ⟨t.spelling ++ '\n' :: text, ?_⟩
    apply Reads.token (h t (List.mem_cons_self ..)) hcloses
    exact .blank isBlank_newline hread

theorem legible_of_token? {text : List Char} (h : (Numeral.leading text).whole ≠ []) {t : Token}
    (ht : (Numeral.leading text).token? = some t) : t.Legible := by
  have hnormal := Numeral.normal_leading h
  simp only [Numeral.token?] at ht
  split at ht
  · split at ht
    · rename_i hrange
      cases ht
      exact (Numeral.isInRange_iff _ hnormal.sign).mp hrange
    · contradiction
  · rename_i hreal
    cases ht
    refine ⟨_, hnormal, ?_, String.toList_ofList⟩
    by_cases hf : (Numeral.leading text).fraction = []
    · have he : (Numeral.leading text).exponent ≠ [] := fun he => hreal ⟨hf, he⟩
      right
      simpa [Numeral.normalize] using he
    · exact Or.inl hf

theorem Munches.legible {c : Char} {text letters : List Char} {t : Token}
    (h : Munches c text t letters) : t.Legible := by
  cases h with
  | comment hdashes =>
    intro d hd
    rw [String.toList_ofList] at hd
    simpa using List.mem_takeWhile_imp hd
  | string hquote hclosed =>
    intro d hd
    rw [String.toList_ofList] at hd
    exact List.mem_takeWhile_imp hd
  | numeral hdashes hquote hwhole ht => exact legible_of_token? hwhole ht
  | word hdashes hquote hwhole hc =>
    exact ⟨c, _, String.toList_ofList, hc, fun d hd => List.mem_takeWhile_imp hd⟩
  | mark => trivial

theorem Lexes.legible {here : Position} {text : List Char} {u : List Lexeme}
    (h : Lexes here text u) : ∀ l ∈ u, l.node.Legible := by
  induction h with
  | nil => exact fun l hl => absurd hl List.not_mem_nil
  | blank hc h ih => exact ih
  | token hc ht h ih =>
    intro l hl
    rcases List.mem_cons.mp hl with rfl | hl
    · exact ht.legible
    · exact ih l hl

theorem legible_of_lex {source : String} {text : Lexed} (h : lex source = .ok text) :
    ∀ l ∈ text.lexemes, l.node.Legible := (lexes_of_lex h).legible

end Token
end KarelKit
