import KarelKit.Proofs.Token.Numeral
import KarelKit.Token.Lexer

namespace KarelKit
namespace Token

theorem isDigit_iff (c : Char) : c.isDigit = true ↔ 48 ≤ c.toNat ∧ c.toNat ≤ 57 := by
  simp only [Char.isDigit, Bool.and_eq_true, decide_eq_true_eq, ge_iff_le, UInt32.le_iff_toNat_le]
  exact Iff.rfl

theorem isDigit_eq_false_of_startsWord {c : Char} (h : startsWord c = true) :
    c.isDigit = false := by
  -- the ten digits are looked up one by one
  have hdigits : ∀ n ∈ List.range' 48 10,
      (Text.withinRanges Text.alphabeticRanges n || n == '_'.toNat) = false := by
    decide +kernel
  rw [Bool.eq_false_iff, Ne, isDigit_iff]
  intro hc
  have hfalse := hdigits c.toNat (by rw [List.mem_range'_1]; omega)
  rw [Bool.or_eq_false_iff] at hfalse
  have hne : c ≠ '_' := by
    rintro rfl
    exact absurd hfalse.2 (by decide)
  simp [startsWord, Text.isAlphabetic, hfalse.1, hne] at h

theorem continuesWord_eq_false_of_isBlank {c : Char} (h : Text.isBlank c = true) :
    continuesWord c = false := by
  have hblanks : ∀ r ∈ Text.blankRanges, ∀ n ∈ List.range' r.1 (r.2 + 1 - r.1),
      (Text.withinRanges Text.alphabeticRanges n || n == '_'.toNat ||
        Text.withinRanges Text.numericRanges n) = false := by
    decide +kernel
  obtain ⟨r, hr, hlow, hhigh⟩ := (Text.isBlank_iff c).mp h
  have hfalse := hblanks r hr c.toNat (by rw [List.mem_range'_1]; omega)
  simp only [Bool.or_eq_false_iff] at hfalse
  have hne : c ≠ '_' := by
    rintro rfl
    exact absurd hfalse.1.2 (by decide)
  simp [continuesWord, startsWord, Text.isAlphabetic, Text.isNumeric, hfalse.1.1, hfalse.2, hne]

theorem isBlank_eq_false_of_startsWord {c : Char} (h : startsWord c = true) :
    Text.isBlank c = false := by
  cases hb : Text.isBlank c with
  | false => rfl
  | true =>
    have hc := continuesWord_eq_false_of_isBlank hb
    simp [continuesWord, h] at hc

theorem isBlank_eq_false_of_isDigit {c : Char} (h : c.isDigit = true) : Text.isBlank c = false := by
  have hblanks : ∀ r ∈ Text.blankRanges, ¬(r.1 ≤ 57 ∧ 48 ≤ r.2) := by decide
  rw [Bool.eq_false_iff, Ne, Text.isBlank_iff]
  intro h
  obtain ⟨r, hr, hlow, hhigh⟩ := h
  have hc := (isDigit_iff c).mp h
  exact hblanks r hr ⟨by omega, by omega⟩

theorem isBlank_space : Text.isBlank ' ' = true := by decide

theorem isBlank_newline : Text.isBlank '\n' = true := by decide

/-- Tokens other than words and numbers without a sign begin with one of these. -/
def punctuation : List Char := '\'' :: '-' :: Mark.all.map Mark.char

theorem char_mem_punctuation (m : Mark) : m.char ∈ punctuation := by
  cases m <;> decide

theorem not_blank_of_mem_punctuation {c : Char} (h : c ∈ punctuation) :
    Text.isBlank c = false ∧ continuesWord c = false := by
  have hall : punctuation.all (fun c => !Text.isBlank c && !continuesWord c) = true := by
    decide +kernel
  simpa using List.all_eq_true.mp hall c h

theorem continuesWord_char (m : Mark) : continuesWord m.char = false :=
  (not_blank_of_mem_punctuation (char_mem_punctuation m)).2

theorem not_mem_punctuation_of_startsWord {c : Char} (h : startsWord c = true) :
    c ∉ punctuation := by
  intro hc
  have hfalse := (not_blank_of_mem_punctuation hc).2
  simp [continuesWord, h] at hfalse

/-- The characters that spell a token in its canonical form. -/
def spelling : Token → List Char
  | word text => text.toList
  | integer value => (toString value).toList
  | real literal => literal.toList
  | string content => '\'' :: (content.toList ++ ['\''])
  | comment text => '-' :: '-' :: text.toList
  | mark m => [m.char]

def IsWord (text : String) : Prop :=
  ∃ c letters, text.toList = c :: letters ∧ startsWord c = true ∧
    ∀ d ∈ letters, continuesWord d = true

instance (text : String) : Decidable (IsWord text) :=
  decidable_of_iff ((match text.toList with
      | [] => false
      | c :: letters => startsWord c && letters.all continuesWord) = true) (by
    unfold IsWord
    cases text.toList with
    | nil => simp
    | cons c letters => simp [and_assoc])

/-- A number's literal in the form that tokens keep, with a fraction, an exponent or both. -/
def IsReal (literal : String) : Prop :=
  ∃ n : Numeral, n.Normal ∧ (n.fraction ≠ [] ∨ n.exponent ≠ []) ∧ literal.toList = n.spelling

/-- The tokens that a text can hold. -/
def Legible : Token → Prop
  | word text => IsWord text
  | integer value => -0x8000000000000000 ≤ value ∧ value < 0x8000000000000000
  | real literal => IsReal literal
  | string content => ∀ c ∈ content.toList, isQuotable c = true
  | comment text => ∀ c ∈ text.toList, isLineBreak c = false
  | mark _ => True

/-- Nothing at the front of `text` makes a token's spelling before it longer. -/
def Closes (text : List Char) : Token → Prop
  | word _ => ∀ c ∈ text.head?, continuesWord c = false
  | integer _ => Numeral.Closes text
  | real _ => Numeral.Closes text
  | string _ => True
  | comment _ => ∀ c ∈ text.head?, isLineBreak c = true
  | mark _ => True

theorem takeWhile_append {p : Char → Bool} {front text : List Char} (h : ∀ c ∈ front, p c = true)
    (htext : ∀ c ∈ text.head?, p c = false) : (front ++ text).takeWhile p = front := by
  rw [List.takeWhile_append_of_pos h]
  cases text with
  | nil => simp
  | cons c text => simp [htext c rfl]

theorem leading_whole_eq_nil {c : Char} {text : List Char} (hc : c.isDigit = false)
    (hdash : c ≠ '-') : (Numeral.leading (c :: text)).whole = [] := by
  simp [Numeral.leading, Numeral.leadingSign, hdash, Numeral.leadingDigits, hc]

theorem munch_word {here : Position} {c : Char} {letters text : List Char}
    (hc : startsWord c = true) (hletters : ∀ d ∈ letters, continuesWord d = true)
    (htext : ∀ d ∈ text.head?, continuesWord d = false) :
    munch here c (letters ++ text) = .ok (.word (String.ofList (c :: letters)), letters) := by
  have hpunctuation := not_mem_punctuation_of_startsWord hc
  have hdash : c ≠ '-' := by
    rintro rfl
    exact hpunctuation (by decide)
  have hquote : c ≠ '\'' := by
    rintro rfl
    exact hpunctuation (by decide)
  have hwhole : (Numeral.leading (c :: (letters ++ text))).whole = [] :=
    leading_whole_eq_nil (isDigit_eq_false_of_startsWord hc) hdash
  simp [munch, hdash, hquote, hwhole, hc, takeWhile_append hletters htext]

/-- A number's first character is a digit, or a dash with a digit after it. -/
theorem head_of_written {letter : Char} {n : Numeral} (h : n.Written letter) :
    ∃ c tail, n.spelling = c :: tail ∧
      (c.isDigit = true ∨ c = '-' ∧ ∃ d more, tail = d :: more ∧ d.isDigit = true) := by
  obtain ⟨d, more, hwhole, hd⟩ := h.whole.head
  rcases h.sign with hs | hs
  · exact ⟨d, more ++ n.fraction ++ n.exponent, by simp [Numeral.spelling, hs, hwhole], Or.inl hd⟩
  · exact ⟨'-', n.whole ++ n.fraction ++ n.exponent, by simp [Numeral.spelling, hs],
      Or.inr ⟨rfl, d, more ++ n.fraction ++ n.exponent, by simp [hwhole], hd⟩⟩

theorem isBlank_head_of_normal {n : Numeral} (h : n.Normal) {c : Char} {tail : List Char}
    (hspelling : n.spelling = c :: tail) : Text.isBlank c = false := by
  obtain ⟨c', tail', hspelling', hc⟩ := head_of_written h
  rw [hspelling] at hspelling'
  cases hspelling'
  rcases hc with hc | ⟨rfl, -⟩
  · exact isBlank_eq_false_of_isDigit hc
  · exact (not_blank_of_mem_punctuation (by decide)).1

/-- A number begins neither a comment nor a string. -/
theorem not_dashes_of_written {letter : Char} {n : Numeral} (hn : n.Written letter) {c : Char}
    {letters : List Char} (hspelling : n.spelling = c :: letters) (text : List Char) :
    ¬(c = '-' ∧ (letters ++ text).head? = some '-') ∧ c ≠ '\'' := by
  obtain ⟨c', tail, hspelling', hc⟩ := head_of_written hn
  rw [hspelling] at hspelling'
  cases hspelling'
  rcases hc with hc | ⟨rfl, d, more, rfl, hd⟩
  · constructor
    · intro h
      obtain ⟨rfl, -⟩ := h
      contradiction
    · rintro rfl
      contradiction
  · refine ⟨?_, by decide⟩
    intro h
    obtain ⟨-, hdash⟩ := h
    cases hdash
    contradiction

theorem munch_numeral {here : Position} {n : Numeral} (hn : n.Normal) {token : Token}
    (htoken : n.token? = some token) {c : Char} {letters text : List Char}
    (hspelling : n.spelling = c :: letters) (htext : Numeral.Closes text) :
    munch here c (letters ++ text) = .ok (token, letters) := by
  have hlead : Numeral.leading (c :: (letters ++ text)) = n := by
    rw [← List.cons_append, ← hspelling]
    exact Numeral.leading_spelling hn.isLiteral htext
  have hhead := not_dashes_of_written hn hspelling text
  simp only [munch, if_neg hhead.1, if_neg hhead.2, hlead, if_pos hn.whole.1, htoken, hspelling,
    List.tail_cons]

theorem token?_ofInt {value : Int} (h : -0x8000000000000000 ≤ value ∧ value < 0x8000000000000000) :
    (Numeral.ofInt value).token? = some (.integer value) := by
  have hrange : (Numeral.ofInt value).isInRange = true := by
    rw [Numeral.isInRange_iff _ (Numeral.normal_ofInt value).sign, Numeral.wholeValue_ofInt]
    exact h
  rw [Numeral.token?, if_pos ⟨rfl, rfl⟩, if_pos hrange, Numeral.wholeValue_ofInt]

theorem map_toUpper_exponent {n : Numeral} (hn : n.Normal) :
    n.exponent.map Char.toUpper = n.exponent := by
  rcases hn.exponent with he | ⟨sign, digits, hsign, hdigits, he⟩
  · rw [he, List.map_nil]
  · rw [he, List.map_cons, List.map_append, hdigits.map_toUpper]
    rcases hsign with rfl | rfl | rfl <;> rfl

theorem token?_real {n : Numeral} (hn : n.Normal) (h : n.fraction ≠ [] ∨ n.exponent ≠ []) :
    n.token? = some (.real (String.ofList n.spelling)) := by
  have hneg : ¬(n.fraction = [] ∧ n.exponent = []) := by
    intro h
    obtain ⟨hf, he⟩ := h
    exact h.elim (· hf) (· he)
  rw [Numeral.token?, if_neg hneg, map_toUpper_exponent hn]
  rfl

theorem munch_mark {here : Position} (m : Mark) (text : List Char) :
    munch here m.char text = .ok (.mark m, []) := by
  have hdash : m.char ≠ '-' := by cases m <;> decide
  have hquote : m.char ≠ '\'' := by cases m <;> decide
  have hdigit : m.char.isDigit = false := by cases m <;> decide
  have hword : startsWord m.char = false := by
    rw [Bool.eq_false_iff]
    intro h
    exact not_mem_punctuation_of_startsWord h (char_mem_punctuation m)
  simp [munch, hdash, hquote, leading_whole_eq_nil hdigit hdash, hword, Mark.ofChar?_char]

/-- A legible token is read from its spelling, if nothing after it makes it longer. -/
theorem munch_spelling {t : Token} (ht : t.Legible) {text : List Char} (htext : t.Closes text) :
    ∃ c letters, t.spelling = c :: letters ∧ Text.isBlank c = false ∧
      ∀ here, munch here c (letters ++ text) = .ok (t, letters) := by
  cases t with
  | word w =>
    obtain ⟨c, letters, hw, hc, hletters⟩ := ht
    refine ⟨c, letters, hw, isBlank_eq_false_of_startsWord hc, fun here => ?_⟩
    rw [munch_word hc hletters htext, ← hw, String.ofList_toList]
  | integer value =>
    obtain ⟨c, letters, hspelling, hc⟩ := head_of_written (Numeral.normal_ofInt value)
    refine ⟨c, letters, ?_, isBlank_head_of_normal (Numeral.normal_ofInt value) hspelling,
      fun here => ?_⟩
    · rw [← hspelling, Numeral.spelling_ofInt]
      rfl
    · exact munch_numeral (Numeral.normal_ofInt value) (token?_ofInt ht) hspelling htext
  | real literal =>
    obtain ⟨n, hn, hreal, hliteral⟩ := ht
    obtain ⟨c, letters, hspelling, hc⟩ := head_of_written hn
    refine ⟨c, letters, hliteral.trans hspelling, isBlank_head_of_normal hn hspelling,
      fun here => ?_⟩
    have htoken : n.token? = some (.real literal) := by
      rw [token?_real hn hreal, ← hliteral, String.ofList_toList]
    exact munch_numeral hn htoken hspelling htext
  | string content =>
    refine ⟨'\'', content.toList ++ ['\''], rfl,
      (not_blank_of_mem_punctuation (by decide)).1, fun here => ?_⟩
    have htake : (content.toList ++ '\'' :: text).takeWhile isQuotable = content.toList :=
      takeWhile_append ht (by simp [isQuotable])
    simp [munch, htake]
  | comment content =>
    refine ⟨'-', '-' :: content.toList, rfl,
      (not_blank_of_mem_punctuation (by decide)).1, fun here => ?_⟩
    have htake : (content.toList ++ text).takeWhile (!isLineBreak ·) = content.toList :=
      takeWhile_append (fun c hc => by simp [ht c hc]) (fun c hc => by simp [htext c hc])
    simp [munch, htake]
  | mark m =>
    refine ⟨m.char, [], rfl, (not_blank_of_mem_punctuation (char_mem_punctuation m)).1,
      fun here => ?_⟩
    exact munch_mark m text

end Token
end KarelKit
