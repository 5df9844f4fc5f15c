import KarelKit.Proofs.Token.Reading
import Mathlib.Data.List.DropRight

namespace KarelKit

/-- The place of the character that has `offset` characters before it: line feeds are counted from
the start, characters from the last line feed. -/
def Position.atOffset (text : List Char) (offset : Nat) : Position :=
  ⟨1 + (text.take offset).count '\n', 1 + ((text.take offset).rtakeWhile (· != '\n')).length⟩

namespace Position

theorem atOffset_length (text : List Char) : atOffset text text.length = first.after text := by
  induction text using List.reverseRecOn with
  | nil => rfl
  | append_singleton text c ih =>
    rw [after_append, ← ih]
    simp only [atOffset, List.take_length, after_cons, after_nil, next]
    by_cases hc : c = '\n'
    · simp [hc, Nat.add_assoc]
    · simp [hc, Nat.add_assoc]

theorem atOffset_append (front text : List Char) :
    atOffset (front ++ text) front.length = first.after front := by
  rw [← atOffset_length]
  simp [atOffset]

/-- No coordinate is more than one above the number of characters before. -/
theorem atOffset_le (text : List Char) (offset : Nat) :
    (atOffset text offset).line ≤ offset + 1 ∧ (atOffset text offset).column ≤ offset + 1 := by
  have hlength : (text.take offset).length ≤ offset := List.length_take_le offset text
  have hline : (text.take offset).count '\n' ≤ (text.take offset).length := List.count_le_length
  have hcolumn : ((text.take offset).rtakeWhile (· != '\n')).length ≤ (text.take offset).length :=
    (List.rtakeWhile_suffix _ _).length_le
  simp only [atOffset]
  omega

end Position

/-- The characters of a text from one offset up to another. -/
structure Span where
  start : Nat
  stop : Nat

namespace Span

def letters (span : Span) (text : List Char) : List Char :=
  (text.take span.stop).drop span.start

def range (span : Span) (text : List Char) : Range :=
  ⟨.atOffset text span.start, .atOffset text span.stop⟩

def Covers (span : Span) (offset : Nat) : Prop := span.start ≤ offset ∧ offset < span.stop

theorem letters_append (front letters text : List Char) :
    Span.letters ⟨front.length, (front ++ letters).length⟩ (front ++ (letters ++ text)) =
      letters := by
  rw [Span.letters, ← List.append_assoc, List.take_left, List.drop_left]

end Span

namespace Numeral

/-- The letter of an exponent in upper case. -/
def upcaseLetter (c : Char) : Char := if c = 'e' then 'E' else c

theorem map_upcaseLetter {letters : List Char} (h : 'e' ∉ letters) :
    letters.map upcaseLetter = letters := by
  conv => rhs; rw [← List.map_id letters]
  apply List.map_congr_left
  intro c hc
  have hne : c ≠ 'e' := by
    rintro rfl
    exact h hc
  exact if_neg hne

theorem Digits.not_mem {digits : List Char} (h : Digits digits) {c : Char}
    (hc : c.isDigit = false) : c ∉ digits := by
  intro hmem
  rw [h.2 c hmem] at hc
  contradiction

theorem Written.mem_spelling {letter : Char} {n : Numeral} (h : n.Written letter) {c : Char}
    (hc : c ∈ n.spelling) : c.isDigit = true ∨ c ∈ ['-', '.', '+', letter] := by
  simp only [spelling, List.mem_append] at hc
  rcases hc with ((hc | hc) | hc) | hc
  · rcases h.sign with hs | hs <;> rw [hs] at hc
    · contradiction
    · simp_all
  · exact Or.inl (h.whole.2 c hc)
  · rcases h.fraction with hf | ⟨digits, hdigits, hf⟩ <;> rw [hf] at hc
    · contradiction
    · rcases List.mem_cons.mp hc with rfl | hc
      · simp
      · exact Or.inl (hdigits.2 c hc)
  · rcases h.exponent with he | ⟨sign, digits, hsign, hdigits, he⟩ <;> rw [he] at hc
    · contradiction
    · rcases List.mem_cons.mp hc with rfl | hc
      · simp
      · rcases List.mem_append.mp hc with hc | hc
        · rcases hsign with rfl | rfl | rfl <;> simp_all
        · exact Or.inl (hdigits.2 c hc)

theorem IsLiteral.map_toUpper_exponent {n : Numeral} (h : n.IsLiteral) :
    n.exponent.map Char.toUpper = n.exponent.map upcaseLetter := by
  obtain ⟨letter, hletter, h⟩ := h
  rcases h.exponent with he | ⟨sign, digits, hsign, hdigits, he⟩
  · rw [he]
    rfl
  · rw [he, List.map_cons, List.map_append, hdigits.map_toUpper, List.map_cons, List.map_append,
      map_upcaseLetter (hdigits.not_mem (c := 'e') (by decide))]
    rcases hletter with rfl | rfl <;> rcases hsign with rfl | rfl | rfl <;> rfl

theorem IsLiteral.spelling_normalize {n : Numeral} (h : n.IsLiteral) :
    n.normalize.spelling = n.spelling.map upcaseLetter := by
  have hexponent := h.map_toUpper_exponent
  obtain ⟨letter, -, h⟩ := h
  have hletter : 'e' ∉ n.sign ++ n.whole ++ n.fraction := by
    simp only [List.mem_append, not_or]
    refine ⟨⟨?_, h.whole.not_mem (by decide)⟩, ?_⟩
    · rcases h.sign with hs | hs <;> simp [hs]
    · rcases h.fraction with hf | ⟨digits, hdigits, hf⟩
      · simp [hf]
      · simp [hf, hdigits.not_mem (c := 'e') (by decide)]
  rw [spelling, spelling, List.map_append, map_upcaseLetter hletter, ← hexponent]
  rfl

end Numeral

namespace Token

/-- The characters of a token as it was written. -/
def WrittenAs (letters : List Char) : Token → Prop
  | word text => letters = text.toList
  | integer value => ∃ digits, Numeral.Digits digits ∧
      (letters = digits ∧ value = Nat.ofDigitChars 10 digits 0 ∨
        letters = '-' :: digits ∧ value = -Nat.ofDigitChars 10 digits 0)
  | real literal => literal.toList = letters.map Numeral.upcaseLetter
  | string content => letters = '\'' :: (content.toList ++ ['\''])
  | comment text => letters = '-' :: '-' :: text.toList
  | mark m => letters = [m.char]

theorem writtenAs_of_token? {text : List Char} (h : (Numeral.leading text).whole ≠ []) {t : Token}
    (ht : (Numeral.leading text).token? = some t) :
    t.WrittenAs (Numeral.leading text).spelling := by
  have hnormal := Numeral.normal_leading h
  simp only [Numeral.token?] at ht
  split at ht
  · rename_i hwhole
    split at ht
    · cases ht
      refine ⟨_, hnormal.whole, ?_⟩
      simp only [Numeral.spelling, hwhole, List.append_nil, Numeral.wholeValue]
      rcases hnormal.sign with hs | hs <;> simp only [Numeral.normalize] at hs
      · left
        rw [hs]
        exact ⟨rfl, if_pos rfl⟩
      · right
        rw [hs]
        exact ⟨rfl, if_neg (by simp)⟩
    · contradiction
  · cases ht
    change (String.ofList (Numeral.leading text).normalize.spelling).toList = _
    rw [String.toList_ofList]
    exact (Numeral.isLiteral_leading h).spelling_normalize

theorem Munches.writtenAs {c : Char} {text letters : List Char} {t : Token}
    (h : Munches c text t letters) : t.WrittenAs (c :: letters) := by
  cases h with
  | comment hdashes => simp [WrittenAs, hdashes.1]
  | string hquote hclosed => simp [WrittenAs, hquote]
  | numeral hdashes hquote hwhole ht =>
    rw [Numeral.spelling_leading_cons hwhole]
    exact writtenAs_of_token? hwhole ht
  | word hdashes hquote hwhole hc => simp [WrittenAs]
  | mark hdashes hquote hwhole hc hm => simp [WrittenAs, Mark.char_of_ofChar? hm]

/-- No token goes over the end of a line. -/
theorem WrittenAs.newline_not_mem {t : Token} {letters : List Char} (h : t.WrittenAs letters)
    (ht : t.Legible) : '\n' ∉ letters := by
  cases t with
  | word text =>
    obtain ⟨c, rest, htext, hc, hrest⟩ := ht
    have hword : continuesWord '\n' = false := continuesWord_eq_false_of_isBlank isBlank_newline
    rw [WrittenAs] at h
    rw [h, htext]
    intro hmem
    rcases List.mem_cons.mp hmem with rfl | hmem
    · simp [continuesWord, hc] at hword
    · rw [hrest _ hmem] at hword
      contradiction
  | integer value =>
    obtain ⟨digits, hdigits, ⟨rfl, -⟩ | ⟨rfl, -⟩⟩ := h
    · exact hdigits.not_mem (by decide)
    · simp [hdigits.not_mem (c := '\n') (by decide)]
  | real literal =>
    obtain ⟨n, hn, -, hliteral⟩ := ht
    intro hmem
    -- the literal has its letters in upper case, so it would hold the line end as well
    have hspelling : Numeral.upcaseLetter '\n' ∈ n.spelling := by
      rw [← hliteral, h]
      exact List.mem_map_of_mem hmem
    rcases hn.mem_spelling hspelling with hc | hc
    · exact absurd hc (by decide)
    · exact absurd hc (by decide)
  | string content =>
    rw [WrittenAs] at h
    rw [h]
    intro hmem
    simp only [List.mem_cons, List.mem_append, List.not_mem_nil, or_false] at hmem
    rcases hmem with hquote | hmem | hquote
    · exact absurd hquote (by decide)
    · exact absurd (ht _ hmem) (by decide)
    · exact absurd hquote (by decide)
  | comment text =>
    rw [WrittenAs] at h
    rw [h]
    intro hmem
    simp only [List.mem_cons] at hmem
    rcases hmem with hdash | hdash | hmem
    · exact absurd hdash (by decide)
    · exact absurd hdash (by decide)
    · exact absurd (ht _ hmem) (by decide)
  | mark m =>
    rw [WrittenAs] at h
    rw [h]
    cases m <;> decide

end Token

/-- A lexeme and the characters that it stands on. -/
structure Lexeme.StandsOn (source : List Char) (l : Lexeme) (span : Span) : Prop where
  nonempty : span.start < span.stop
  inside : span.stop ≤ source.length
  range : l.range = span.range source
  oneLine : '\n' ∉ span.letters source
  legible : l.node.Legible
  writtenAs : l.node.WrittenAs (span.letters source)

/-- From an offset on, lexemes stand one after the other on their spans, and blanks between. -/
structure Tiles (source : List Char) (offset : Nat) (u : List Lexeme) (spans : List Span) :
    Prop where
  standsOn : List.Forall₂ (Lexeme.StandsOn source) u spans
  after : ∀ span ∈ spans, offset ≤ span.start
  apart : spans.Pairwise fun s t => s.stop ≤ t.start
  blank : ∀ i c, source[i]? = some c → offset ≤ i → (∀ span ∈ spans, ¬span.Covers i) →
    Text.isBlank c = true

namespace Tiles

variable {source : List Char} {offset : Nat} {u : List Lexeme} {spans : List Span}

theorem exists_span (h : Tiles source offset u spans) {l : Lexeme} (hl : l ∈ u) :
    ∃ span, l.StandsOn source span := by
  obtain ⟨standsOn, -, -, -⟩ := h
  induction standsOn with
  | nil => contradiction
  | cons hspan _ ih =>
    rcases List.mem_cons.mp hl with rfl | hl
    · exact ⟨_, hspan⟩
    · exact ih hl

theorem nil (source : List Char) : Tiles source source.length [] [] where
  standsOn := .nil
  after := fun _ hspan => absurd hspan List.not_mem_nil
  apart := .nil
  blank := by
    intro i c hi hoffset _
    rw [List.getElem?_eq_none hoffset] at hi
    contradiction

theorem cons_blank {c : Char} (h : Tiles source (offset + 1) u spans)
    (hc : source[offset]? = some c) (hblank : Text.isBlank c = true) :
    Tiles source offset u spans where
  standsOn := h.standsOn
  after := fun span hspan => Nat.le_of_succ_le (h.after span hspan)
  apart := h.apart
  blank := by
    intro i d hi hoffset hspans
    rcases Nat.eq_or_lt_of_le hoffset with rfl | hlt
    · rw [hc] at hi
      cases hi
      exact hblank
    · exact h.blank i d hi hlt hspans

theorem cons_lexeme {l : Lexeme} {stop : Nat} (h : Tiles source stop u spans)
    (hl : l.StandsOn source ⟨offset, stop⟩) :
    Tiles source offset (l :: u) (⟨offset, stop⟩ :: spans) where
  standsOn := .cons hl h.standsOn
  after := by
    intro span hspan
    have hlt : offset < stop := hl.nonempty
    rcases List.mem_cons.mp hspan with rfl | hspan
    · exact Nat.le_refl offset
    · exact Nat.le_trans (Nat.le_of_lt hlt) (h.after span hspan)
  apart := List.pairwise_cons.mpr ⟨h.after, h.apart⟩
  blank := by
    intro i c hi hoffset hspans
    have hcovers : ¬(offset ≤ i ∧ i < stop) := hspans ⟨offset, stop⟩ (List.mem_cons_self ..)
    refine h.blank i c hi (by omega) ?_
    intro span hspan
    exact hspans span (List.mem_cons_of_mem _ hspan)

end Tiles

/-- The invariant of reading: what is behind the characters already read is tiled. -/
theorem Token.Lexes.tiles {here : Position} {text : List Char} {u : List Lexeme}
    (h : Lexes here text u) (front : List Char) (hhere : here = Position.first.after front) :
    ∃ spans, Tiles (front ++ text) front.length u spans := by
  induction h generalizing front with
  | nil =>
    rw [List.append_nil]
    exact ⟨[], Tiles.nil front⟩
  | @blank here c text u hc h ih =>
    have hnext : here.next c = Position.first.after (front ++ [c]) := by
      rw [Position.after_append, ← hhere]
      rfl
    obtain ⟨spans, hspans⟩ := ih (front ++ [c]) hnext
    rw [List.append_assoc, List.length_append] at hspans
    exact ⟨spans, hspans.cons_blank (by simp) hc⟩
  | @token here c letters text t u hc ht h ih =>
    -- the place behind the token is that of the longer front
    have hstop : here.after (c :: letters) = Position.first.after (front ++ c :: letters) := by
      rw [Position.after_append, ← hhere]
    obtain ⟨spans, hspans⟩ := ih (front ++ c :: letters) hstop
    have hletters := Span.letters_append front (c :: letters) text
    have hwritten : t.WrittenAs (c :: letters) := ht.writtenAs
    rw [List.append_assoc] at hspans
    refine ⟨_, hspans.cons_lexeme (l := ⟨t, here, here.after (c :: letters)⟩) ?_⟩
    exact {
      nonempty := by simp
      inside := by simp
      range := by
        rw [Span.range, Position.atOffset_append, ← List.append_assoc, Position.atOffset_append,
          ← hhere, ← hstop]
      oneLine := by
        rw [hletters]
        exact hwritten.newline_not_mem ht.legible
      legible := ht.legible
      writtenAs := by rwa [hletters] }

/-- The lexemes of a text lie on spans of its characters, one after the other, none empty and none
over the end of a line; each is what these characters spell, at their true places, and all other
characters are blank. The end of input stands behind the last character. No coordinate leaves 32
bits. -/
theorem lex_tiles {source : String} {text : Lexed} (h : lex source = .ok text)
    (hlength : source.length < 0xffffffff) :
    (∃ spans, Tiles source.toList 0 text.lexemes spans) ∧ Rising text.lexemes ∧
      text.stop = Position.atOffset source.toList source.length ∧
      ∀ offset ≤ source.length, (Position.atOffset source.toList offset).line < 0x100000000 ∧
        (Position.atOffset source.toList offset).column < 0x100000000 := by
  refine ⟨(Token.lexes_of_lex h).tiles [] rfl, rising_of_lex h, ?_, ?_⟩
  · rw [← String.length_toList, Position.atOffset_length]
    exact (Token.lexFrom_of_lex h).2
  · intro offset hoffset
    have hle := Position.atOffset_le source.toList offset
    omega

theorem lex_tiles_two_lines : ∃ source text, lex source = .ok text ∧
    text.lexemes = [⟨.word "k", ⟨⟨1, 1⟩, ⟨1, 2⟩⟩⟩, ⟨.mark .equals, ⟨⟨1, 2⟩, ⟨1, 3⟩⟩⟩,
      ⟨.integer (-7), ⟨⟨1, 3⟩, ⟨1, 6⟩⟩⟩, ⟨.comment "'", ⟨⟨2, 2⟩, ⟨2, 5⟩⟩⟩] ∧
    source.length < 0xffffffff ∧
    (∃ spans, Tiles source.toList 0 text.lexemes spans) ∧ Rising text.lexemes ∧
    text.stop = Position.atOffset source.toList source.length ∧
    ∀ offset ≤ source.length, (Position.atOffset source.toList offset).line < 0x100000000 ∧
      (Position.atOffset source.toList offset).column < 0x100000000 := by
  have hlex : lex "k=-07\n --'" = .ok ⟨[⟨.word "k", ⟨⟨1, 1⟩, ⟨1, 2⟩⟩⟩,
      ⟨.mark .equals, ⟨⟨1, 2⟩, ⟨1, 3⟩⟩⟩, ⟨.integer (-7), ⟨⟨1, 3⟩, ⟨1, 6⟩⟩⟩,
      ⟨.comment "'", ⟨⟨2, 2⟩, ⟨2, 5⟩⟩⟩], ⟨2, 5⟩⟩ := by
    decide +kernel
  have hlength : "k=-07\n --'".length < 0xffffffff := by decide
  exact ⟨_, _, hlex, rfl, hlength, lex_tiles hlex hlength⟩

end KarelKit
