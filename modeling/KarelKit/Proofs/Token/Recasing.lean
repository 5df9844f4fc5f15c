import KarelKit.Proofs.Token.Blanks
import KarelKit.Proofs.Token.Case
import KarelKit.Proofs.Token.Matching
import KarelKit.Proofs.Token.Slicing
import Mathlib.Data.List.Forall2

namespace KarelKit

/-- Words that differ in the case of their letters at most. -/
def SameLetters (word word' : String) : Prop := Text.upcase word' = Text.upcase word

theorem takeWhile_map_toUpper {p : Char → Bool} (hp : CaseBlind p) (text : List Char) :
    (text.map Char.toUpper).takeWhile p = (text.takeWhile p).map Char.toUpper := by
  rw [List.takeWhile_map, show p ∘ Char.toUpper = p from funext hp.toUpper]

namespace Numeral

theorem map_toUpper_leadingDigits (text : List Char) :
    (leadingDigits text).map Char.toUpper = leadingDigits text := by
  by_cases h : leadingDigits text = []
  · rw [h, List.map_nil]
  · exact (digits_leadingDigits h).map_toUpper

theorem leadingDigits_map (text : List Char) :
    leadingDigits (text.map Char.toUpper) = leadingDigits text := by
  have hmap := takeWhile_map_toUpper CaseBlind.isDigit text
  rw [← map_toUpper_leadingDigits text]
  exact hmap

theorem leadingSign_map (text : List Char) :
    leadingSign (text.map Char.toUpper) = leadingSign text := by
  cases text with
  | nil => rfl
  | cons c text =>
    have hiff : c.toUpper = '-' ↔ c = '-' :=
      toUpper_eq_iff (startsWord_eq_false_of_mem (by decide))
    simp only [List.map_cons, leadingSign, hiff]
    split
    · rename_i hc
      rw [hiff.mpr hc, hc]
    · rfl

theorem leadingFraction_map (text : List Char) :
    leadingFraction (text.map Char.toUpper) = leadingFraction text := by
  cases text with
  | nil => rfl
  | cons c text =>
    have hiff : c.toUpper = '.' ↔ c = '.' :=
      toUpper_eq_iff (startsWord_eq_false_of_mem (by decide))
    simp only [List.map_cons, leadingFraction, leadingDigits_map, hiff]
    split
    · rename_i hc
      rw [hiff.mpr hc.1, hc.1]
    · rfl

theorem leadingExponentSign_map (text : List Char) :
    leadingExponentSign (text.map Char.toUpper) = leadingExponentSign text := by
  cases text with
  | nil => rfl
  | cons c text =>
    have hplus : c.toUpper = '+' ↔ c = '+' :=
      toUpper_eq_iff (startsWord_eq_false_of_mem (by decide))
    have hdash : c.toUpper = '-' ↔ c = '-' :=
      toUpper_eq_iff (startsWord_eq_false_of_mem (by decide))
    simp only [List.map_cons, leadingExponentSign, hplus, hdash]
    split
    · rename_i hc
      rcases hc with rfl | rfl <;> rfl
    · rfl

theorem leadingExponent_map (text : List Char) :
    leadingExponent (text.map Char.toUpper) = (leadingExponent text).map Char.toUpper := by
  cases text with
  | nil => rfl
  | cons c text =>
    have hsign : (leadingExponentSign text).map Char.toUpper = leadingExponentSign text := by
      rcases leadingExponentSign_cases text with h | h | h <;> rw [h] <;> rfl
    simp only [List.map_cons, leadingExponent, leadingExponentSign_map, ← List.map_drop,
      leadingDigits_map, toUpper_eq_E_iff]
    split
    · rw [List.map_cons, List.map_append, hsign, map_toUpper_leadingDigits]
    · rfl

/-- A number is read at the front of a text whatever the case of its letters. -/
theorem leading_map_toUpper (text : List Char) :
    leading (text.map Char.toUpper) = (leading text).normalize := by
  simp only [leading, normalize, leadingSign_map, ← List.map_drop, leadingDigits_map,
    leadingFraction_map, leadingExponent_map]

theorem token?_eq_of_normalize {n n' : Numeral} (h : n'.normalize = n.normalize) :
    n'.token? = n.token? := by
  obtain ⟨sign, whole, fraction, exponent⟩ := n
  obtain ⟨sign', whole', fraction', exponent'⟩ := n'
  simp only [normalize, Numeral.mk.injEq] at h
  obtain ⟨rfl, rfl, rfl, hexponent⟩ := h
  have hnil : exponent' = [] ↔ exponent = [] := by
    rw [← List.map_eq_nil_iff (f := Char.toUpper), hexponent, List.map_eq_nil_iff]
  simp only [token?, hnil, hexponent]
  rfl

theorem length_spelling_of_normalize {n n' : Numeral} (h : n'.normalize = n.normalize) :
    n'.spelling.length = n.spelling.length := by
  have hlength (m : Numeral) : m.normalize.spelling.length = m.spelling.length := by
    simp [spelling, normalize]
  rw [← hlength, h, hlength]

end Numeral

namespace Token

variable {c c' : Char} {letters letters' text text' : List Char} {t : Token}

/-- Tokens whose letters are kept as they are, in either case. -/
def isVerbatim : Token → Bool
  | string _ => true
  | comment _ => true
  | _ => false

theorem head?_map_toUpper (h : text'.map Char.toUpper = text.map Char.toUpper) {d : Char}
    (hd : startsWord d = false) : text'.head? = some d ↔ text.head? = some d := by
  have hiff (text : List Char) :
      (text.map Char.toUpper).head? = some d ↔ text.head? = some d := by
    cases text with
    | nil => rfl
    | cons c text => simpa using toUpper_eq_iff hd
  rw [← hiff text', h, hiff]

theorem takeWhile_recased {p : Char → Bool} (hp : CaseBlind p)
    (h : text'.map Char.toUpper = text.map Char.toUpper) :
    (text'.takeWhile p).length = (text.takeWhile p).length := by
  have hmap : (text'.takeWhile p).map Char.toUpper = (text.takeWhile p).map Char.toUpper := by
    rw [← takeWhile_map_toUpper hp, h, takeWhile_map_toUpper hp]
  simpa using congrArg List.length hmap

theorem matches_of_token? {names : String → String → Prop} {n : Numeral}
    (h : n.token? = some t) : t.Matches names t := by
  simp only [Numeral.token?] at h
  split at h
  · split at h
    · cases h
      exact .integer _
    · contradiction
  · cases h
    exact .real _

theorem eq_iff_of_toUpper (hc : c'.toUpper = c.toUpper) {d : Char}
    (hd : d ∈ punctuation ++ ['+', '\n']) : c' = d ↔ c = d := by
  have hd' := startsWord_eq_false_of_mem hd
  rw [← toUpper_eq_iff hd', hc, toUpper_eq_iff hd']

theorem dashes_recased (hc : c'.toUpper = c.toUpper)
    (h : text'.map Char.toUpper = text.map Char.toUpper) :
    c' = '-' ∧ text'.head? = some '-' ↔ c = '-' ∧ text.head? = some '-' := by
  rw [eq_iff_of_toUpper hc (by decide),
    head?_map_toUpper h (startsWord_eq_false_of_mem (by decide))]

theorem normalize_recased (hc : c'.toUpper = c.toUpper)
    (h : text'.map Char.toUpper = text.map Char.toUpper) :
    (Numeral.leading (c' :: text')).normalize = (Numeral.leading (c :: text)).normalize := by
  rw [← Numeral.leading_map_toUpper, ← Numeral.leading_map_toUpper, List.map_cons, hc, h,
    List.map_cons]

/-- A token in a text, and what is read in its place where letters have another case. Strings and
comments have to be the same there. -/
theorem Munches.recased (h : Munches c (letters ++ text) t letters)
    (hc : c'.toUpper = c.toUpper) (hletters : letters'.map Char.toUpper = letters.map Char.toUpper)
    (htext : text'.map Char.toUpper = text.map Char.toUpper)
    (hverbatim : t.isVerbatim = true → letters' = letters) :
    ∃ t', Munches c' (letters' ++ text') t' letters' ∧
      t.Matches SameLetters t' := by
  have hlength : letters'.length = letters.length := by simpa using congrArg List.length hletters
  have hfull : (letters' ++ text').map Char.toUpper = (letters ++ text).map Char.toUpper := by
    rw [List.map_append, List.map_append, hletters, htext]
  have hquote' : c' = '\'' ↔ c = '\'' := eq_iff_of_toUpper hc (by decide)
  have hdashes := dashes_recased hc hfull
  have hlead := normalize_recased hc hfull
  have hwhole : (Numeral.leading (c' :: (letters' ++ text'))).whole =
      (Numeral.leading (c :: (letters ++ text))).whole := (Numeral.mk.inj hlead).2.1
  -- what is read in both texts is as long, so it is what stands in the place of the token
  have hfront {t' : Token} {front : List Char} (h' : Munches c' (letters' ++ text') t' front)
      (hfront : front.length = letters.length) : front = letters' := by
    have h' := h'.front
    rw [hfront, ← hlength, List.drop_left, List.append_cancel_right_eq] at h'
    exact h'
  generalize hf : letters ++ text = full at *
  generalize hf' : letters' ++ text' = full' at *
  cases h with
  | comment hd =>
    have htail : full'.tail.map Char.toUpper = full.tail.map Char.toUpper := by
      rw [List.map_tail, hfull, List.map_tail]
    have hlen := takeWhile_recased CaseBlind.not_isLineBreak htail
    have h' : Munches c' full' _ _ := .comment (hdashes.mpr hd)
    have heq := hfront h' (by simp [hlen])
    rw [heq] at h'
    rw [hverbatim rfl] at heq
    rw [(List.cons.inj heq).2] at h'
    exact ⟨_, h', .comment _⟩
  | string hquote hclosed =>
    have hlen := takeWhile_recased CaseBlind.isQuotable hfull
    have hdrop : (full'.drop (full'.takeWhile isQuotable).length).map Char.toUpper =
        (full.drop (full.takeWhile isQuotable).length).map Char.toUpper := by
      rw [List.map_drop, hfull, hlen, List.map_drop]
    have h' : Munches c' full' _ _ := .string (hquote'.mpr hquote)
      ((head?_map_toUpper hdrop (startsWord_eq_false_of_mem (by decide))).mpr hclosed)
    have heq := hfront h' (by simp [hlen])
    rw [heq] at h'
    rw [hverbatim rfl, List.append_cancel_right_eq] at heq
    rw [heq] at h'
    exact ⟨_, h', .string _⟩
  | numeral hd hquote hw ht =>
    have h' : Munches c' full' t _ :=
      .numeral (mt hdashes.mp hd) (mt hquote'.mp hquote) (by rwa [hwhole])
        (by rwa [Numeral.token?_eq_of_normalize hlead])
    have heq := hfront h' (by
      rw [List.length_tail, List.length_tail, Numeral.length_spelling_of_normalize hlead])
    rw [heq] at h'
    exact ⟨t, h', matches_of_token? ht⟩
  | word hd hquote hw hstart =>
    have hlen := takeWhile_recased CaseBlind.continuesWord hfull
    have h' : Munches c' full' _ _ :=
      .word (mt hdashes.mp hd) (mt hquote'.mp hquote) (by rwa [hwhole])
        (by rwa [CaseBlind.startsWord.congr hc])
    have heq := hfront h' hlen
    rw [heq] at h'
    have hcase : SameLetters (.ofList (c :: full.takeWhile continuesWord))
        (.ofList (c' :: letters')) := by
      rw [SameLetters, Text.upcase, Text.upcase, String.toList_ofList, String.toList_ofList,
        List.map_cons, List.map_cons, hc, hletters]
    exact ⟨_, h', .word hcase hcase⟩
  | mark hd hquote hw hstart hm =>
    have hmark := Mark.char_of_ofChar? hm
    have hsame : c' = c := by
      rw [← hmark, eq_iff_of_toUpper hc (List.mem_append_left _ (char_mem_punctuation _)), hmark]
    have h' : Munches c' full' _ _ := .mark (mt hdashes.mp hd) (mt hquote'.mp hquote)
      (by rwa [hwhole]) (by rwa [hsame]) (by rwa [hsame])
    rw [hfront h' rfl] at h'
    exact ⟨_, h', .mark _⟩

end Token

theorem Position.after_recased {text text' : List Char}
    (h : text'.map Char.toUpper = text.map Char.toUpper) (here : Position) :
    here.after text' = here.after text := by
  have hline (c : Char) : c.toUpper = '\n' ↔ c = '\n' :=
    toUpper_eq_iff (startsWord_eq_false_of_mem (by decide))
  have hmap (text : List Char) (here : Position) :
      here.after (text.map Char.toUpper) = here.after text := by
    induction text generalizing here with
    | nil => rfl
    | cons c text ih =>
      rw [List.map_cons, after_cons, after_cons, ih, next, next]
      simp only [hline]
  rw [← hmap text', h, hmap]

/-- Lexemes at the same place that differ in the case of a word's letters at most. -/
structure Lexeme.Recased (l l' : Lexeme) : Prop where
  range : l'.range = l.range
  node : l.node.Matches SameLetters l'.node

section

variable {here : Position} {front front' text text' : List Char} {u : List Lexeme}

theorem Range.slice_recased {range : Range}
    (hfront : front'.map Char.toUpper = front.map Char.toUpper)
    (h : here.after front ≤ range.start) :
    range.slice here (front' ++ text') = range.slice (here.after front) text' := by
  have hafter := Position.after_recased hfront here
  rw [slice_before (by rwa [hafter]), hafter]

/-- What is kept in the whole text is kept in the text behind `front`. -/
theorem verbatim_behind (hfront : front'.map Char.toUpper = front.map Char.toUpper)
    (hstart : ∀ l ∈ u, here.after front ≤ l.range.start)
    (h : ∀ l ∈ u, l.node.isVerbatim = true →
      l.range.slice here (front' ++ text') = l.range.slice here (front ++ text)) :
    ∀ l ∈ u, l.node.isVerbatim = true →
      l.range.slice (here.after front) text' = l.range.slice (here.after front) text := by
  intro l hl hverbatim
  have heq := h l hl hverbatim
  rwa [Range.slice_recased hfront (hstart l hl), Range.slice_before (hstart l hl)] at heq

end

namespace Token

theorem Lexes.recased {here : Position} {text text' : List Char} {u : List Lexeme}
    (h : Lexes here text u) (htext : text'.map Char.toUpper = text.map Char.toUpper)
    (hverbatim : ∀ l ∈ u, l.node.isVerbatim = true →
      l.range.slice here text' = l.range.slice here text) :
    ∃ u', Lexes here text' u' ∧ List.Forall₂ Lexeme.Recased u u' := by
  induction h generalizing text' with
  | nil =>
    obtain rfl := List.map_eq_nil_iff.mp htext
    exact ⟨[], .nil, .nil⟩
  | @blank here c text u hc h ih =>
    obtain ⟨c', text', rfl, hc', hrest⟩ := List.map_eq_cons_iff.mp htext
    have hletter : startsWord c = false := by
      rw [Bool.eq_false_iff]
      intro hstart
      rw [isBlank_eq_false_of_startsWord hstart] at hc
      contradiction
    -- a blank is no letter
    obtain rfl : c' = c :=
      (toUpper_eq_iff hletter).mp (hc'.trans ((toUpper_eq_iff hletter).mpr rfl))
    have hfront : [c'].map Char.toUpper = [c'].map Char.toUpper := rfl
    have hstart := h.rising.2
    obtain ⟨u', hu', hlexemes⟩ := ih hrest (verbatim_behind hfront hstart hverbatim)
    exact ⟨u', .blank hc hu', hlexemes⟩
  | @token here c letters text t u hc ht h ih =>
    rw [List.map_cons, List.map_append, List.map_eq_cons_iff] at htext
    obtain ⟨c', rest, rfl, hc', hrest⟩ := htext
    obtain ⟨letters', text', rfl, hletters, htext⟩ := List.map_eq_append_iff.mp hrest
    have hfront : (c' :: letters').map Char.toUpper = (c :: letters).map Char.toUpper := by
      rw [List.map_cons, List.map_cons, hc', hletters]
    have hafter := Position.after_recased hfront here
    have hslice := Range.slice_front here (c :: letters) text
    have hslice' := Range.slice_front here (c' :: letters') text'
    rw [hafter] at hslice'
    have hstart := h.rising.2
    obtain ⟨u', hu', hlexemes⟩ := ih htext (verbatim_behind hfront hstart
      fun l hl => hverbatim l (.tail _ hl))
    have hkept : t.isVerbatim = true → letters' = letters := by
      intro hkept
      have heq := hverbatim _ (List.mem_cons_self ..) hkept
      rw [← List.cons_append, ← List.cons_append, hslice, hslice'] at heq
      exact (List.cons.inj heq).2
    obtain ⟨t', ht', hmatches⟩ := ht.recased hc' hletters htext hkept
    rw [← hafter] at hu'
    refine ⟨_, .token ?_ ht' hu', .cons ⟨?_, hmatches⟩ hlexemes⟩
    · rw [CaseBlind.isBlank.congr hc', hc]
    · rw [hafter]

end Token

/-- `source'` is `source`, the text of the lexemes `u`, with other cases of letters. What stands in
strings and comments is kept. -/
structure Recased (source : String) (u : List Lexeme) (source' : String) : Prop where
  upcase : Text.upcase source' = Text.upcase source
  verbatim : ∀ l ∈ u, l.node.isVerbatim = true → l.range.cut source' = l.range.cut source

theorem lex_recased {source source' : String} {text : Lexed} (hlex : lex source = .ok text)
    (h : Recased source text.lexemes source') : ∃ text', lex source' = .ok text' ∧
      text'.stop = text.stop ∧ List.Forall₂ Lexeme.Recased text.lexemes text'.lexemes := by
  have hmap : source'.toList.map Char.toUpper = source.toList.map Char.toUpper :=
    String.ofList_injective h.upcase
  obtain ⟨u', hu', hlexemes⟩ := (Token.lexes_of_lex hlex).recased hmap
    fun l hl hkept => String.ofList_injective (h.verbatim l hl hkept)
  refine ⟨_, lex_of_lexes hu', ?_, hlexemes⟩
  rw [(Token.lexFrom_of_lex hlex).2]
  exact Position.after_recased hmap _

end KarelKit
