import KarelKit.Proofs.Token.MaximalMunch

namespace KarelKit

/-- A scan ends in front of a character that it never takes, as it does where the text ends. -/
theorem Scans.extend {s : List Char → List Char} (h : Scans s) {text back : List Char}
    (hback : ∀ b ∈ back.head?, b ∉ s (text ++ back)) : s (text ++ back) = s text := by
  have hfront := h.front (text ++ back)
  generalize hs : s (text ++ back) = front at hback hfront
  rcases List.append_eq_append_iff.mp hfront with ⟨more, rfl, -⟩ | ⟨more, rfl, htail⟩
  · rw [List.append_assoc] at hs
    exact (h.stable front more back hs).symm
  · cases more with
    | nil =>
      rw [List.append_nil] at hs ⊢
      have hcut := h.stable text [] back (by rwa [List.nil_append])
      rwa [List.append_nil, eq_comm] at hcut
    | cons b more =>
      rw [htail] at hback
      exact absurd (by simp) (hback b rfl)

namespace Numeral

theorem scans_spelling : Scans fun text => (leading text).spelling where
  front := spelling_leading
  stable front more back h := by
    generalize hn : leading (front ++ (more ++ back)) = n at h
    rw [← h] at hn ⊢
    rw [leading_stable hn]

theorem IsLiteral.isBlank_eq_false {n : Numeral} (h : n.IsLiteral) {c : Char}
    (hc : c ∈ n.spelling) : Text.isBlank c = false := by
  have hall : ['-', '.', '+', 'e', 'E'].all (!Text.isBlank ·) = true := by decide
  obtain ⟨letter, hletter, h⟩ := h
  rcases h.mem_spelling hc with hc | hc
  · exact Token.isBlank_eq_false_of_isDigit hc
  · have hc' : c ∈ ['-', '.', '+', 'e', 'E'] := by
      rcases hletter with rfl | rfl <;> revert hc <;> simp only [List.mem_cons] <;> tauto
    simpa using List.all_eq_true.mp hall c hc'

theorem leading_extend (text : List Char) {back : List Char}
    (hback : ∀ b ∈ back.head?, Text.isBlank b = true)
    (h : (leading (text ++ back)).whole ≠ []) : leading (text ++ back) = leading text := by
  have hspelling : (leading (text ++ back)).spelling = (leading text).spelling := by
    apply scans_spelling.extend
    intro b hb hmem
    have hblank := (isLiteral_leading h).isBlank_eq_false hmem
    rw [hback b hb] at hblank
    contradiction
  -- what is read of the longer text is read as well where this ends
  have htext := spelling_leading text
  generalize hn : leading (text ++ back) = n at hspelling ⊢
  rw [← hspelling] at htext
  rw [← htext, List.append_assoc] at hn
  rw [← leading_stable hn, htext]

end Numeral

/-- The end of the input, for an error, is the end of the line if there is more after the line. -/
def ParseError.atLineEnd (e : ParseError) : ParseError :=
  if e.found = .endOfInput then { e with found := .endOfLine } else e

namespace Token

variable {c : Char} {text back letters : List Char} {t : Token}

theorem isBlank_of_isLineBreak {b : Char} (h : isLineBreak b = true) : Text.isBlank b = true := by
  simp only [isLineBreak, Bool.or_eq_true, beq_iff_eq] at h
  rcases h with rfl | rfl <;> decide

theorem isQuotable_eq_false_of_isLineBreak {b : Char} (h : isLineBreak b = true) :
    isQuotable b = false := by
  simp [isQuotable, h]

theorem takeWhile_extend {p : Char → Bool} (hback : ∀ b ∈ back.head?, p b = false) :
    (text ++ back).takeWhile p = text.takeWhile p := by
  apply (Scans.takeWhile p).extend
  intro b hb hmem
  have hp := List.mem_takeWhile_imp hmem
  rw [hback b hb] at hp
  contradiction

theorem not_dashes_extend (hback : ∀ b ∈ back.head?, Text.isBlank b = true)
    (h : ¬(c = '-' ∧ text.head? = some '-')) : ¬(c = '-' ∧ (text ++ back).head? = some '-') := by
  intro hdashes
  cases text with
  | nil => exact absurd (hback '-' hdashes.2) (by decide)
  | cons d text => exact h hdashes

theorem leading_whole_extend (hback : ∀ b ∈ back.head?, Text.isBlank b = true)
    (h : (Numeral.leading (c :: text)).whole = []) :
    (Numeral.leading (c :: (text ++ back))).whole = [] := by
  apply Decidable.byContradiction
  intro hwhole
  have heq := Numeral.leading_extend (c :: text) hback hwhole
  rw [← heq] at h
  exact hwhole h

/-- A token is read as well with a blank after the text it is read from. Only a comment goes on
over blanks that do not end the line. -/
theorem Munches.extend (h : Munches c text t letters)
    (hback : ∀ b ∈ back.head?, Text.isBlank b = true)
    (hcomment : t.isComment = true → ∀ b ∈ back.head?, isLineBreak b = true) :
    Munches c (text ++ back) t letters := by
  cases h with
  | comment hdashes =>
    obtain ⟨rest, rfl⟩ := List.head?_eq_some_iff.mp hdashes.2
    have hcontent : (rest ++ back).takeWhile (!isLineBreak ·) =
        rest.takeWhile (!isLineBreak ·) := by
      apply takeWhile_extend
      intro b hb
      simp [hcomment rfl b hb]
    have h : Munches c ('-' :: rest ++ back) _ _ := .comment hdashes
    rwa [List.cons_append, List.tail_cons, hcontent] at h
  | string hquote hclosed =>
    obtain ⟨rest, hrest⟩ := List.head?_eq_some_iff.mp hclosed
    have htext := (Scans.takeWhile isQuotable).front text
    rw [hrest] at htext
    generalize hcontent : text.takeWhile isQuotable = content at htext ⊢
    have hcontent' : (text ++ back).takeWhile isQuotable = content := by
      rw [← htext, List.append_assoc, ← hcontent]
      exact takeWhile_append (fun d hd => List.mem_takeWhile_imp hd) (by simp [isQuotable])
    -- the closing quote stands in the text itself, so what follows it does not matter
    have hclosed' : ((text ++ back).drop content.length).head? = some '\'' := by
      rw [← htext, List.append_assoc, List.drop_left]
      rfl
    have h : Munches c (text ++ back) _ _ := .string hquote (by rwa [hcontent'])
    rwa [hcontent'] at h
  | numeral hdashes hquote hwhole ht =>
    have hlead : Numeral.leading (c :: (text ++ back)) = Numeral.leading (c :: text) :=
      Numeral.leading_extend (c :: text) hback (Numeral.leading_whole_more back hwhole)
    have h : Munches c (text ++ back) t _ :=
      .numeral (not_dashes_extend hback hdashes) hquote (by rwa [hlead]) (by rwa [hlead])
    rwa [hlead] at h
  | word hdashes hquote hwhole hc =>
    have hletters : (text ++ back).takeWhile continuesWord = text.takeWhile continuesWord :=
      takeWhile_extend fun b hb => continuesWord_eq_false_of_isBlank (hback b hb)
    have h : Munches c (text ++ back) _ _ :=
      .word (not_dashes_extend hback hdashes) hquote (leading_whole_extend hback hwhole) hc
    rwa [hletters] at h
  | mark hdashes hquote hwhole hc hm =>
    exact .mark (not_dashes_extend hback hdashes) hquote (leading_whole_extend hback hwhole) hc hm

/-- Apart from strings, what is wrong at a token is wrong with a blank after the text too. -/
theorem munch_error_extend {here : Position} {e : ParseError}
    (hback : ∀ b ∈ back.head?, Text.isBlank b = true) (hquote : c ≠ '\'')
    (h : munch here c text = .error e) :
    munch here c (text ++ back) = .error e ∧ e.found ≠ .endOfInput := by
  have hdashes : ¬(c = '-' ∧ text.head? = some '-') := by
    intro hdashes
    simp [munch, hdashes] at h
  have hdashes' := not_dashes_extend hback hdashes
  -- without a number the character belongs to no token, with one it is out of range
  by_cases hwhole : (Numeral.leading (c :: text)).whole = []
  · have hwhole' := leading_whole_extend hback hwhole
    simp only [munch, if_neg hdashes, if_neg hquote, hwhole, ne_eq, not_true, if_false] at h
    simp only [munch, if_neg hdashes', if_neg hquote, hwhole', ne_eq, not_true, if_false]
    split at h
    · contradiction
    · rename_i hc
      split at h
      · contradiction
      · cases h
        simp_all
  · have hlead : Numeral.leading (c :: (text ++ back)) = Numeral.leading (c :: text) :=
      Numeral.leading_extend (c :: text) hback (Numeral.leading_whole_more back hwhole)
    simp only [munch, if_neg hdashes, if_neg hquote, ne_eq, hwhole, not_false_eq_true,
      if_true] at h
    simp only [munch, if_neg hdashes', if_neg hquote, hlead, ne_eq, hwhole, not_false_eq_true,
      if_true]
    split at h
    · contradiction
    · cases h
      simp

/-- A string that is not closed on its line is reported where the line ends. -/
theorem munch_quote_lineBreak {b : Char} (hb : isLineBreak b = true) {here : Position}
    {line more : List Char} {e : ParseError} (h : munch here '\'' line = .error e) :
    munch here '\'' (line ++ b :: more) = .error e.atLineEnd := by
  have hcontent : (line ++ b :: more).takeWhile isQuotable = line.takeWhile isQuotable :=
    takeWhile_extend (by simpa using isQuotable_eq_false_of_isLineBreak hb)
  have hne : b ≠ '\'' := by
    rintro rfl
    contradiction
  have hle : (line.takeWhile isQuotable).length ≤ line.length :=
    (List.takeWhile_prefix isQuotable).length_le
  simp only [munch, Char.reduceEq, false_and, if_false, if_true] at h
  simp only [munch, Char.reduceEq, false_and, if_false, if_true, hcontent,
    List.drop_append_of_le_length hle]
  generalize line.takeWhile isQuotable = content at h ⊢
  generalize line.drop content.length = rest at h ⊢
  -- what follows the content is the end of the line or a character before it
  cases rest with
  | nil =>
    cases h
    simp [ParseError.atLineEnd]
  | cons d rest =>
    split at h
    · contradiction
    · contradiction
    · cases h
      simp_all [ParseError.atLineEnd]

/-- Reading a line is reading a text that ends there, except that an unclosed string is reported to
end with the line. -/
theorem munch_lineBreak {b : Char} (hb : isLineBreak b = true) (here : Position) (c : Char)
    (line more : List Char) :
    munch here c (line ++ b :: more) = (munch here c line).mapError ParseError.atLineEnd := by
  have hbreak : ∀ d ∈ (b :: more).head?, isLineBreak d = true := by simpa using hb
  have hback : ∀ d ∈ (b :: more).head?, Text.isBlank d = true :=
    fun d hd => isBlank_of_isLineBreak (hbreak d hd)
  cases h : munch here c line with
  | ok read => exact ((munches_of_munch h).extend hback fun _ => hbreak).munch here
  | error e =>
    by_cases hquote : c = '\''
    · subst hquote
      exact munch_quote_lineBreak hb h
    · obtain ⟨herror, hfound⟩ := munch_error_extend hback hquote h
      rw [herror, Except.mapError, ParseError.atLineEnd, if_neg hfound]

end Token
end KarelKit
