import KarelKit.Proofs.Token.Reading
import KarelKit.Proofs.Token.Tiling

namespace KarelKit

namespace Numeral

/-- The token of a number, with an integer of any size. -/
def token (n : Numeral) : Token := n.token?.getD (.integer n.wholeValue)

theorem token_of_whole {n : Numeral} (h : n.fraction = [] ∧ n.exponent = []) :
    n.token = .integer n.wholeValue := by
  rw [token, token?, if_pos h]
  split <;> rfl

theorem token_of_real {n : Numeral} (hn : n.IsLiteral) (h : n.fraction ≠ [] ∨ n.exponent ≠ []) :
    n.token = .real (String.ofList (n.spelling.map upcaseLetter)) := by
  rw [← hn.spelling_normalize, token, token?, if_neg (by tauto)]
  rfl

theorem leading_self {n : Numeral} (h : n.IsLiteral) : leading n.spelling = n := by
  have hcloses : Closes [] := by simp [Closes]
  have hlead := leading_spelling h hcloses
  rwa [List.append_nil] at hlead

/-- A number is as long as it can be: more text leaves what is read of it or makes it longer. -/
theorem spelling_isPrefix_leading {n : Numeral} (h : n.IsLiteral) (text : List Char) :
    n.spelling <+: (leading (n.spelling ++ text)).spelling := by
  have hself := leading_self h
  have hfront : (leading (n.spelling ++ text)).spelling <+: n.spelling ++ text :=
    ⟨_, spelling_leading (n.spelling ++ text)⟩
  rcases List.prefix_or_prefix_of_prefix (List.prefix_append n.spelling text) hfront with h | h
  · exact h
  · -- what is read of the longer text would be read of the number alone
    obtain ⟨more, hmore⟩ := h
    generalize hn : leading (n.spelling ++ text) = m at hmore ⊢
    rw [← hmore, List.append_assoc] at hn
    have hcut := leading_stable hn
    rw [hmore, hself] at hcut
    exact ⟨[], by rw [List.append_nil, hcut]⟩

end Numeral

namespace Token

variable {c : Char} {letters text : List Char} {t : Token}

/-- The characters of a token of each kind, and the token. An integer may have any size. -/
inductive Spells : List Char → Token → Prop
  | comment {content : List Char} (h : ∀ c ∈ content, isLineBreak c = false) :
    Spells ('-' :: '-' :: content) (.comment (String.ofList content))
  | string {content : List Char} (h : ∀ c ∈ content, isQuotable c = true) :
    Spells ('\'' :: (content ++ ['\''])) (.string (String.ofList content))
  | natural {digits : List Char} (h : Numeral.Digits digits) :
    Spells digits (.integer (Nat.ofDigitChars 10 digits 0))
  | negative {digits : List Char} (h : Numeral.Digits digits) :
    Spells ('-' :: digits) (.integer (-Nat.ofDigitChars 10 digits 0))
  | real {n : Numeral} (hn : n.IsLiteral) (h : n.fraction ≠ [] ∨ n.exponent ≠ []) :
    Spells n.spelling (.real (String.ofList (n.spelling.map Numeral.upcaseLetter)))
  | word {c : Char} {letters : List Char} (hc : startsWord c = true)
    (h : ∀ d ∈ letters, continuesWord d = true) :
    Spells (c :: letters) (.word (String.ofList (c :: letters)))
  | mark (m : Mark) : Spells [m.char] (.mark m)

/-- `letters` is the longest front of `text` that is a token. -/
structure Longest (text letters : List Char) (t : Token) : Prop where
  front : letters <+: text
  spells : Spells letters t
  longest : ∀ letters' t', letters' <+: text → Spells letters' t' →
    letters'.length ≤ letters.length

/-- No front of the text is a token. -/
def NoneMatch (text : List Char) : Prop := ∀ letters t, letters <+: text → ¬Spells letters t

/-- Integers are numbers of 64 bits with sign. -/
def InRange (t : Token) : Prop :=
  ∀ value, t = .integer value → -0x8000000000000000 ≤ value ∧ value < 0x8000000000000000

theorem spells_numeral {n : Numeral} (h : n.IsLiteral) : Spells n.spelling n.token := by
  by_cases hwhole : n.fraction = [] ∧ n.exponent = []
  · obtain ⟨letter, -, hn⟩ := h
    have hspelling : n.spelling = n.sign ++ n.whole := by
      simp [Numeral.spelling, hwhole.1, hwhole.2]
    rw [Numeral.token_of_whole hwhole, hspelling, Numeral.wholeValue]
    rcases hn.sign with hs | hs
    · rw [hs, if_pos rfl]
      exact .natural hn.whole
    · rw [hs, if_neg (by simp)]
      exact .negative hn.whole
  · have hreal : n.fraction ≠ [] ∨ n.exponent ≠ [] := by tauto
    rw [Numeral.token_of_real h hreal]
    exact .real h hreal

/-- How a token stands at the front of a text, whether or not it is in range. -/
inductive Picks (c : Char) (text : List Char) : Token → List Char → Prop
  | munches {t : Token} {letters : List Char} (h : Munches c text t letters) :
    Picks c text t letters
  | numeral (hdashes : ¬(c = '-' ∧ text.head? = some '-')) (hquote : c ≠ '\'')
    (hwhole : (Numeral.leading (c :: text)).whole ≠ []) :
    Picks c text (Numeral.leading (c :: text)).token (Numeral.leading (c :: text)).spelling.tail

namespace Picks

theorem front (h : Picks c text t letters) : letters ++ text.drop letters.length = text := by
  cases h with
  | munches h => exact h.front
  | numeral hdashes hquote hwhole =>
    have htext := Numeral.spelling_leading (c :: text)
    rw [← Numeral.spelling_leading_cons hwhole] at htext
    exact (List.cons.inj htext).2

theorem spells (h : Picks c text t letters) : Spells (c :: letters) t := by
  have hnumeral (hwhole : (Numeral.leading (c :: text)).whole ≠ []) :
      Spells (c :: (Numeral.leading (c :: text)).spelling.tail)
        (Numeral.leading (c :: text)).token := by
    rw [Numeral.spelling_leading_cons hwhole]
    exact spells_numeral (Numeral.isLiteral_leading hwhole)
  cases h with
  | munches h =>
    cases h with
    | comment hdashes =>
      rw [hdashes.1]
      exact .comment fun d hd => by simpa using List.mem_takeWhile_imp hd
    | string hquote =>
      rw [hquote]
      exact .string fun d hd => List.mem_takeWhile_imp hd
    | numeral hdashes hquote hwhole ht =>
      have htoken : (Numeral.leading (c :: text)).token = t := by rw [Numeral.token, ht]; rfl
      rw [← htoken]
      exact hnumeral hwhole
    | word hdashes hquote hwhole hc => exact .word hc fun d hd => List.mem_takeWhile_imp hd
    | mark hdashes hquote hwhole hc hm =>
      rw [← Mark.char_of_ofChar? hm]
      exact .mark _
  | numeral hdashes hquote hwhole => exact hnumeral hwhole

theorem unique {letters' : List Char} {t' : Token} (h : Picks c text t letters)
    (h' : Picks c text t' letters') : t = t' ∧ letters = letters' := by
  have hmunches {t t' : Token} {letters letters' : List Char} (h : Munches c text t letters)
      (h' : Munches c text t' letters') : t = t' ∧ letters = letters' := by
    have heq := (h.munch .first).symm.trans (h'.munch .first)
    cases heq
    exact ⟨rfl, rfl⟩
  -- a number in range is munched as the number that is picked
  have hnumeral {t : Token} {letters : List Char} (h : Munches c text t letters)
      (hdashes : ¬(c = '-' ∧ text.head? = some '-')) (hquote : c ≠ '\'')
      (hwhole : (Numeral.leading (c :: text)).whole ≠ []) :
      t = (Numeral.leading (c :: text)).token ∧
        letters = (Numeral.leading (c :: text)).spelling.tail := by
    cases h with
    | comment hdashes' => exact absurd hdashes' hdashes
    | string hquote' => exact absurd hquote' hquote
    | numeral _ _ _ ht => exact ⟨by rw [Numeral.token, ht]; rfl, rfl⟩
    | word _ _ hnone => exact absurd hnone hwhole
    | mark _ _ hnone => exact absurd hnone hwhole
  cases h with
  | munches h =>
    cases h' with
    | munches h' => exact hmunches h h'
    | numeral hdashes hquote hwhole => exact hnumeral h hdashes hquote hwhole
  | numeral hdashes hquote hwhole =>
    cases h' with
    | munches h' =>
      obtain ⟨ht, hletters⟩ := hnumeral h' hdashes hquote hwhole
      exact ⟨ht.symm, hletters.symm⟩
    | numeral => exact ⟨rfl, rfl⟩

end Picks

/-- What is picked at the front of `text` covers `front`, which is a token; if it is `front` itself,
then as that token. -/
def Covers (c : Char) (text front : List Char) (t : Token) : Prop :=
  ∃ t' letters, Picks c text t' letters ∧ front <+: letters ∧ (letters = front → t' = t)

theorem covers_numeral {n : Numeral} (hn : n.IsLiteral) {front : List Char}
    (hspelling : n.spelling = c :: front) (more : List Char) :
    Covers c (front ++ more) front n.token := by
  have hself := Numeral.leading_self hn
  have hprefix := Numeral.spelling_isPrefix_leading hn more
  obtain ⟨letter, -, hwritten⟩ := hn
  obtain ⟨hdashes, hquote⟩ := not_dashes_of_written hwritten hspelling more
  have hwhole : (Numeral.leading (n.spelling ++ more)).whole ≠ [] :=
    Numeral.leading_whole_more more (by rw [hself]; exact hwritten.whole.1)
  rw [hspelling, List.cons_append] at hprefix hwhole
  have hcons := Numeral.spelling_leading_cons hwhole
  refine ⟨_, _, .numeral hdashes hquote hwhole, ?_, ?_⟩
  · rw [← hcons] at hprefix
    exact (List.prefix_cons_inj c).mp hprefix
  · -- numbers written alike are the same
    intro htail
    rw [htail, ← hspelling] at hcons
    rw [← Numeral.leading_self (Numeral.isLiteral_leading hwhole), ← hcons, hself]

theorem covers_of_spells {front : List Char} (h : Spells (c :: front) t) (more : List Char) :
    Covers c (front ++ more) front t := by
  generalize hletters : c :: front = letters at h
  cases h with
  | @comment content h =>
    cases hletters
    have hmunches : Munches '-' ('-' :: (content ++ more)) _ _ := .comment ⟨rfl, rfl⟩
    -- what follows may lengthen the comment, so only its front is known
    have htake : (content ++ more).takeWhile (!isLineBreak ·) =
        content ++ more.takeWhile (!isLineBreak ·) :=
      List.takeWhile_append_of_pos fun d hd => by simp [h d hd]
    rw [List.tail_cons, htake] at hmunches
    refine ⟨_, _, .munches hmunches, List.prefix_append ('-' :: content) _, ?_⟩
    intro heq
    rw [List.append_right_eq_self.mp (List.cons.inj heq).2, List.append_nil]
  | @string content h =>
    cases hletters
    -- the closing quote ends the string, whatever follows
    have htake : (content ++ '\'' :: more).takeWhile isQuotable = content :=
      takeWhile_append h (by simp [isQuotable])
    have hmunches : Munches '\'' (content ++ '\'' :: more) _ _ :=
      .string rfl (by rw [htake, List.drop_left]; rfl)
    rw [htake] at hmunches
    rw [List.append_assoc]
    exact ⟨_, _, .munches hmunches, List.prefix_rfl, fun _ => rfl⟩
  | natural h =>
    subst hletters
    have hn : Numeral.IsLiteral ⟨[], c :: front, [], []⟩ :=
      ⟨'E', Or.inr rfl, Or.inl rfl, h, Or.inl rfl, Or.inl rfl⟩
    have hspelling : Numeral.spelling ⟨[], c :: front, [], []⟩ = c :: front := by
      simp [Numeral.spelling]
    have hcovers := covers_numeral hn hspelling more
    rwa [Numeral.token_of_whole ⟨rfl, rfl⟩] at hcovers
  | negative h =>
    cases hletters
    have hn : Numeral.IsLiteral ⟨['-'], front, [], []⟩ :=
      ⟨'E', Or.inr rfl, Or.inr rfl, h, Or.inl rfl, Or.inl rfl⟩
    have hspelling : Numeral.spelling ⟨['-'], front, [], []⟩ = '-' :: front := by
      simp [Numeral.spelling]
    have hcovers := covers_numeral hn hspelling more
    rwa [Numeral.token_of_whole ⟨rfl, rfl⟩] at hcovers
  | real hn h =>
    rw [← Numeral.token_of_real hn h]
    exact covers_numeral hn hletters.symm more
  | word hc h =>
    cases hletters
    -- no earlier branch of the lexer takes a letter
    have hpunctuation := not_mem_punctuation_of_startsWord hc
    have hdash : c ≠ '-' := by
      rintro rfl
      exact hpunctuation (by decide)
    have hquote : c ≠ '\'' := by
      rintro rfl
      exact hpunctuation (by decide)
    have hmunches : Munches c (front ++ more) _ _ := .word (fun h => hdash h.1) hquote
      (leading_whole_eq_nil (isDigit_eq_false_of_startsWord hc) hdash) hc
    rw [List.takeWhile_append_of_pos h] at hmunches
    refine ⟨_, _, .munches hmunches, List.prefix_append .., ?_⟩
    intro heq
    rw [heq]
  | mark m =>
    cases hletters
    have hmunch : munch .first m.char more = .ok (.mark m, []) := munch_mark m more
    exact ⟨_, _, .munches (munches_of_munch hmunch), List.prefix_rfl, fun _ => rfl⟩

theorem Spells.ne_nil (h : Spells letters t) : letters ≠ [] := by
  cases h with
  | natural h => exact h.1
  | real hn h =>
    obtain ⟨letter, -, hn⟩ := hn
    obtain ⟨c, tail, hspelling, -⟩ := head_of_written hn
    simp [hspelling]
  | _ => simp

theorem exists_covers (hfront : letters <+: c :: text) (h : Spells letters t) :
    ∃ front, letters = c :: front ∧ Covers c text front t := by
  obtain ⟨d, front, rfl⟩ := List.exists_cons_of_ne_nil h.ne_nil
  obtain ⟨rfl, more, rfl⟩ := List.cons_prefix_cons.mp hfront
  exact ⟨front, rfl, covers_of_spells h more⟩

theorem Picks.longest (h : Picks c text t letters) : Longest (c :: text) (c :: letters) t where
  front := ⟨text.drop letters.length, by rw [List.cons_append, h.front]⟩
  spells := h.spells
  longest := by
    intro letters' t' hfront hspells
    obtain ⟨front, rfl, t'', covering, hpicks, hle, -⟩ := exists_covers hfront hspells
    rw [(h.unique hpicks).2]
    exact Nat.succ_le_succ hle.length_le

theorem Longest.picks (h : Longest (c :: text) letters t) :
    ∃ front, letters = c :: front ∧ Picks c text t front := by
  obtain ⟨front, rfl, t', covering, hpicks, hle, heq⟩ := exists_covers h.front h.spells
  have hlength := h.longest _ _ hpicks.longest.front hpicks.spells
  have hcovering : covering = front :=
    (hle.eq_of_length_le (Nat.le_of_succ_le_succ hlength)).symm
  rw [heq hcovering, hcovering] at hpicks
  exact ⟨front, rfl, hpicks⟩

/-- Only one token is the longest. -/
theorem Longest.unique {letters' : List Char} {t' : Token} (h : Longest (c :: text) letters t)
    (h' : Longest (c :: text) letters' t') : t = t' ∧ letters = letters' := by
  obtain ⟨front, rfl, hpicks⟩ := h.picks
  obtain ⟨front', rfl, hpicks'⟩ := h'.picks
  obtain ⟨rfl, rfl⟩ := hpicks.unique hpicks'
  exact ⟨rfl, rfl⟩

theorem Legible.inRange (h : t.Legible) : t.InRange := by
  intro value heq
  rw [heq] at h
  exact h

/-- What is picked is read as it is, or an integer that is out of range. -/
theorem Picks.munch (h : Picks c text t letters) (here : Position) :
    munch here c text = .ok (t, letters) ∨ ¬t.InRange ∧
      munch here c text =
        .error ⟨here, [.integerInRange], .literal (String.ofList (c :: letters))⟩ := by
  cases h with
  | munches h => exact Or.inl (h.munch here)
  | numeral hdashes hquote hwhole =>
    have hcons := Numeral.spelling_leading_cons hwhole
    obtain ⟨letter, -, hwritten⟩ := Numeral.isLiteral_leading hwhole
    generalize hn : Numeral.leading (c :: text) = n at hwhole hcons hwritten ⊢
    cases htoken : n.token? with
    | some t =>
      left
      simp [Token.munch, hdashes, hquote, hn, hwhole, htoken, Numeral.token]
    | none =>
      right
      rw [hcons]
      refine ⟨?_, by simp [Token.munch, hdashes, hquote, hn, hwhole, htoken]⟩
      have hrange : ¬n.isInRange = true := by
        intro hrange
        simp only [Numeral.token?, hrange, if_true] at htoken
        split at htoken <;> contradiction
      rw [Numeral.isInRange_iff n hwritten.sign] at hrange
      intro hinRange
      exact hrange (hinRange n.wholeValue (by rw [Numeral.token, htoken]; rfl))

theorem longest_of_munch {here : Position} (h : munch here c text = .ok (t, letters)) :
    Longest (c :: text) (c :: letters) t ∧ t.InRange := by
  have hmunches := munches_of_munch h
  exact ⟨(Picks.munches hmunches).longest, hmunches.legible.inRange⟩

/-- A point and an exponent's letter count only with digits behind them. -/
example : Longest ['1', '.', '5', '.', '2'] ['1', '.', '5'] (.real "1.5") :=
  (@longest_of_munch _ _ _ _ .first rfl).1

example : Longest ['-', '1', 'e', '+', 'x'] ['-', '1'] (.integer (-1)) :=
  (@longest_of_munch _ _ _ _ .first rfl).1

/-- No token, or an integer that is out of range, stands at the front of the text. -/
def Fails (text : List Char) : Prop :=
  NoneMatch text ∨ ∃ letters t, Longest text letters t ∧ ¬t.InRange

/-- The error for a text at `here` with no token to read at its front. A string that is not closed
is reported where its line or the text ends. -/
inductive Failure (here : Position) : List Char → ParseError → Prop
  | unclosed {content rest : List Char} {found : Found} (h : ∀ c ∈ content, isQuotable c = true)
    (hrest : rest = [] ∧ found = .endOfInput ∨
      (∃ c more, rest = c :: more ∧ isLineBreak c = true) ∧ found = .endOfLine)
    (hno : NoneMatch ('\'' :: (content ++ rest))) :
    Failure here ('\'' :: (content ++ rest))
      ⟨here.after ('\'' :: content), [.closingQuote], found⟩
  | stray {c : Char} {rest : List Char} (hquote : c ≠ '\'') (hno : NoneMatch (c :: rest)) :
    Failure here (c :: rest) ⟨here, [.token], .character c⟩
  | outOfRange {text letters : List Char} {t : Token} (h : Longest text letters t)
    (ht : ¬t.InRange) :
    Failure here text ⟨here, [.integerInRange], .literal (String.ofList letters)⟩

theorem Failure.fails {here : Position} {e : ParseError} (h : Failure here text e) :
    Fails text := by
  cases h with
  | unclosed _ _ hno => exact Or.inl hno
  | stray _ hno => exact Or.inl hno
  | outOfRange h ht => exact Or.inr ⟨_, _, h, ht⟩

theorem noneMatch_of_munch {here : Position} {e : ParseError} (h : munch here c text = .error e)
    (he : e.expected ≠ [.integerInRange]) : NoneMatch (c :: text) := by
  intro letters t hfront hspells
  -- a token at the front would be covered by one that is picked, and that is read or out of range
  obtain ⟨front, rfl, t', covering, hpicks, -⟩ := exists_covers hfront hspells
  rcases hpicks.munch here with hok | ⟨-, herror⟩
  · rw [hok] at h
    contradiction
  · rw [herror] at h
    cases h
    exact he rfl

theorem failure_of_quote {here : Position} {e : ParseError}
    (h : munch here '\'' text = .error e) : Failure here ('\'' :: text) e := by
  have hno := noneMatch_of_munch h
  simp only [munch, Char.reduceEq, false_and, if_false, if_true] at h
  have htext : text.takeWhile isQuotable ++ text.dropWhile isQuotable = text :=
    List.takeWhile_append_dropWhile
  have hdrop := congrArg (List.drop (text.takeWhile isQuotable).length) htext
  rw [List.drop_left] at hdrop
  rw [← hdrop] at h
  have hcontent : ∀ d ∈ text.takeWhile isQuotable, isQuotable d = true :=
    fun d hd => List.mem_takeWhile_imp hd
  have hhead := List.head?_dropWhile_not isQuotable text
  -- what can be quoted, and what comes behind it
  generalize text.takeWhile isQuotable = content at h hcontent htext
  generalize text.dropWhile isQuotable = rest at h hhead htext
  subst htext
  split at h
  · cases h
    exact .unclosed hcontent (Or.inl ⟨rfl, rfl⟩) (hno (by simp))
  · contradiction
  · rename_i d more hquote
    cases h
    have hd : d ≠ '\'' := hquote
    have hbreak : isLineBreak d = true := by simpa [isQuotable, hd] using hhead
    exact .unclosed hcontent (Or.inr ⟨⟨d, more, rfl, hbreak⟩, rfl⟩) (hno (by simp))

theorem failure_of_munch {here : Position} {e : ParseError} (h : munch here c text = .error e) :
    Failure here (c :: text) e := by
  by_cases hquote : c = '\''
  · subst hquote
    exact failure_of_quote h
  · by_cases hdashes : c = '-' ∧ text.head? = some '-'
    · simp [munch, hdashes] at h
    · by_cases hwhole : (Numeral.leading (c :: text)).whole ≠ []
      · have hpicks := Picks.numeral hdashes hquote hwhole
        rcases hpicks.munch here with hok | ⟨hrange, herror⟩
        · rw [hok] at h
          contradiction
        · rw [herror] at h
          cases h
          exact .outOfRange hpicks.longest hrange
      · have hno := noneMatch_of_munch h
        simp only [munch, if_neg hdashes, if_neg hquote, if_neg hwhole] at h
        split at h
        · contradiction
        · split at h
          · contradiction
          · cases h
            exact .stray hquote (hno (by simp))

end Token
end KarelKit
