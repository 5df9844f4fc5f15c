import KarelKit.Proofs.Token.Numeral
import KarelKit.Token.Lexer

namespace KarelKit

/-- What is taken from the front of a text, and taken still when the text ends sooner. -/
structure Scans (scan : List Char → List Char) : Prop where
  front : ∀ text, scan text ++ text.drop (scan text).length = text
  stable : ∀ front more back, scan (front ++ (more ++ back)) = front → scan (front ++ more) = front

namespace Scans

variable {s s' : List Char → List Char}

theorem takeWhile (p : Char → Bool) : Scans (·.takeWhile p) where
  front text := by
    have htext : text.takeWhile p ++ text.dropWhile p = text := List.takeWhile_append_dropWhile
    have hdrop := congrArg (List.drop (text.takeWhile p).length) htext
    rw [List.drop_left] at hdrop
    rw [← hdrop, htext]
  stable front more back h := by
    have hfront : ∀ c ∈ front, p c = true := by
      intro c hc
      rw [← h] at hc
      exact List.mem_takeWhile_imp hc
    rw [List.takeWhile_append_of_pos hfront] at h ⊢
    rw [List.append_right_eq_self] at h ⊢
    cases more with
    | nil => rfl
    | cons c more =>
      cases hc : p c with
      | true => simp [hc] at h
      | false => simp [hc]

/-- One character, if it is of some kind. -/
theorem one {p : Char → Prop} [DecidablePred p] (hnil : s [] = [])
    (hcons : ∀ c text, s (c :: text) = if p c then [c] else []) : Scans s where
  front text := by
    cases text with
    | nil => rw [hnil]; rfl
    | cons c text =>
      rw [hcons]
      split <;> rfl
  stable front more back h := by
    cases front with
    | nil =>
      cases more with
      | nil => exact hnil
      | cons c more =>
        rw [List.nil_append, List.cons_append, hcons] at h
        rw [List.nil_append, hcons, h]
    | cons c front =>
      rw [List.cons_append, hcons] at h ⊢
      exact h

/-- One scan, and another behind what it takes. -/
protected theorem append (h : Scans s) (h' : Scans s') :
    Scans fun text => s text ++ s' (text.drop (s text).length) where
  front text := by
    rw [List.append_assoc, List.length_append, ← List.drop_drop, h'.front, h.front]
  stable front more back heq := by
    generalize hfirst : s (front ++ (more ++ back)) = first at heq
    generalize hsecond : s' ((front ++ (more ++ back)).drop first.length) = second at heq
    subst heq
    rw [List.append_assoc] at hfirst hsecond ⊢
    rw [List.drop_left] at hsecond
    have hcut := h.stable first (second ++ more) back (by rwa [List.append_assoc])
    rw [hcut, List.drop_left, h'.stable second more back hsecond]

/-- A character of some kind and a scan behind it, if what the scan takes is of some kind too. -/
theorem guarded {p : Char → Prop} {q : List Char → Prop} [DecidablePred p] [DecidablePred q]
    (h : Scans s) (hmono : ∀ text more, q (s text) → q (s (text ++ more))) (hnil : s' [] = [])
    (hcons : ∀ c text, s' (c :: text) = if p c ∧ q (s text) then c :: s text else []) :
    Scans s' where
  front text := by
    cases text with
    | nil => rw [hnil]; rfl
    | cons c text =>
      rw [hcons]
      split
      · rw [List.length_cons, List.drop_succ_cons, List.cons_append, h.front]
      · rfl
  stable front more back heq := by
    cases front with
    | nil =>
      cases more with
      | nil => exact hnil
      | cons c more =>
        rw [List.nil_append, List.cons_append, hcons] at heq
        rw [List.nil_append, hcons, if_neg]
        intro hc
        rw [if_pos ⟨hc.1, hmono more back hc.2⟩] at heq
        contradiction
    | cons c front =>
      rw [List.cons_append, hcons] at heq ⊢
      split at heq
      · rename_i hc
        rw [List.cons.injEq] at heq
        rw [heq.2] at hc
        rw [h.stable front more back heq.2, if_pos hc]
      · contradiction

end Scans

namespace Numeral

theorem scans_leadingDigits : Scans leadingDigits := Scans.takeWhile Char.isDigit

theorem leadingDigits_more {text : List Char} (more : List Char) (h : leadingDigits text ≠ []) :
    leadingDigits (text ++ more) ≠ [] := by
  cases text with
  | nil => contradiction
  | cons c text =>
    cases hc : c.isDigit <;> simp_all [leadingDigits]

theorem scans_leadingSign : Scans leadingSign := Scans.one rfl fun _ _ => rfl

theorem scans_leadingExponentSign : Scans leadingExponentSign := Scans.one rfl fun _ _ => rfl

theorem scans_leadingFraction : Scans leadingFraction :=
  scans_leadingDigits.guarded (q := fun digits => digits ≠ [])
    (fun _ more h => leadingDigits_more more h) rfl fun _ _ => rfl

/-- What stands in an exponent after its letter. -/
def leadingExponentDigits (text : List Char) : List Char :=
  leadingExponentSign text ++ leadingDigits (text.drop (leadingExponentSign text).length)

theorem any_isDigit_leadingExponentDigits (text : List Char) :
    (leadingExponentDigits text).any Char.isDigit = true ↔
      leadingDigits (text.drop (leadingExponentSign text).length) ≠ [] := by
  have hsign : (leadingExponentSign text).any Char.isDigit = false := by
    rcases leadingExponentSign_cases text with h | h | h <;> rw [h] <;> rfl
  rw [leadingExponentDigits, List.any_append, hsign, Bool.false_or]
  constructor
  · intro h hnil
    rw [hnil] at h
    contradiction
  · intro h
    obtain ⟨c, tail, heq, hc⟩ := (digits_leadingDigits h).head
    rw [heq, List.any_cons, hc, Bool.true_or]

theorem leadingExponentSign_append {text : List Char} (h : text ≠ []) (more : List Char) :
    leadingExponentSign (text ++ more) = leadingExponentSign text := by
  cases text with
  | nil => contradiction
  | cons c text => rfl

theorem scans_leadingExponent : Scans leadingExponent := by
  have hinner : Scans leadingExponentDigits := scans_leadingExponentSign.append scans_leadingDigits
  refine hinner.guarded (p := fun c => c = 'e' ∨ c = 'E')
    (q := fun text => text.any Char.isDigit = true) ?_ rfl ?_
  · intro text more h
    rw [any_isDigit_leadingExponentDigits] at h ⊢
    have htext := scans_leadingExponentSign.front text
    have hne : text ≠ [] := by
      rintro rfl
      exact h rfl
    rw [leadingExponentSign_append hne, List.drop_append_of_le_length]
    · exact leadingDigits_more more h
    · have hlength := congrArg List.length htext
      rw [List.length_append] at hlength
      omega
  · intro c text
    simp only [any_isDigit_leadingExponentDigits]
    rfl

theorem spelling_leading (text : List Char) :
    (leading text).spelling ++ text.drop (leading text).spelling.length = text := by
  have hall := ((scans_leadingSign.append scans_leadingDigits).append scans_leadingFraction).append
    scans_leadingExponent
  have hfront := hall.front text
  simp only [List.length_append, ← List.drop_drop] at hfront
  simp only [spelling, leading, List.length_append, ← List.drop_drop]
  exact hfront

theorem spelling_leading_cons {c : Char} {text : List Char}
    (h : (leading (c :: text)).whole ≠ []) :
    c :: (leading (c :: text)).spelling.tail = (leading (c :: text)).spelling := by
  have htext := spelling_leading (c :: text)
  cases hspelling : (leading (c :: text)).spelling with
  | nil =>
    simp only [spelling, List.append_eq_nil_iff] at hspelling
    exact absurd hspelling.1.1.2 h
  | cons d tail =>
    rw [hspelling] at htext
    rw [(List.cons.inj htext).1, List.tail_cons]

theorem leading_whole_more {text : List Char} (more : List Char) (h : (leading text).whole ≠ []) :
    (leading (text ++ more)).whole ≠ [] := by
  cases text with
  | nil => contradiction
  | cons c text =>
    have hsign : leadingSign (c :: text ++ more) = leadingSign (c :: text) := rfl
    have hlength := congrArg List.length (scans_leadingSign.front (c :: text))
    rw [List.length_append] at hlength
    change leadingDigits ((c :: text ++ more).drop _) ≠ []
    rw [hsign, List.drop_append_of_le_length (by omega)]
    exact leadingDigits_more more h

theorem leading_stable {n : Numeral} {more back : List Char}
    (h : leading (n.spelling ++ (more ++ back)) = n) : leading (n.spelling ++ more) = n := by
  obtain ⟨sign, whole, fraction, exponent⟩ := n
  simp only [leading, spelling, List.append_assoc, Numeral.mk.injEq] at h ⊢
  obtain ⟨hsign, hwhole, hfraction, hexponent⟩ := h
  rw [hsign, List.drop_left] at hwhole
  rw [hsign, List.drop_left, hwhole, List.drop_left] at hfraction
  rw [hsign, List.drop_left, hwhole, List.drop_left, hfraction, List.drop_left] at hexponent
  have hsign' := scans_leadingSign.stable sign (whole ++ (fraction ++ (exponent ++ more))) back
    (by simpa using hsign)
  have hwhole' := scans_leadingDigits.stable whole (fraction ++ (exponent ++ more)) back
    (by simpa using hwhole)
  have hfraction' := scans_leadingFraction.stable fraction (exponent ++ more) back
    (by simpa using hfraction)
  have hexponent' := scans_leadingExponent.stable exponent more back hexponent
  simp only [hsign', hwhole', hfraction', hexponent', List.drop_left, and_self]

end Numeral

namespace Token

variable {here there : Position} {c : Char} {letters text more back : List Char} {t : Token}

/-- How a token is read at the front of a text, when one is. -/
inductive Munches (c : Char) (text : List Char) : Token → List Char → Prop
  | comment (hdashes : c = '-' ∧ text.head? = some '-') : Munches c text
    (.comment (String.ofList (text.tail.takeWhile (!isLineBreak ·))))
    ('-' :: text.tail.takeWhile (!isLineBreak ·))
  | string (hquote : c = '\'')
    (hclosed : (text.drop (text.takeWhile isQuotable).length).head? = some '\'') :
    Munches c text (.string (String.ofList (text.takeWhile isQuotable)))
      (text.takeWhile isQuotable ++ ['\''])
  | numeral {t : Token} (hdashes : ¬(c = '-' ∧ text.head? = some '-')) (hquote : c ≠ '\'')
    (hwhole : (Numeral.leading (c :: text)).whole ≠ [])
    (ht : (Numeral.leading (c :: text)).token? = some t) :
    Munches c text t (Numeral.leading (c :: text)).spelling.tail
  | word (hdashes : ¬(c = '-' ∧ text.head? = some '-')) (hquote : c ≠ '\'')
    (hwhole : (Numeral.leading (c :: text)).whole = []) (hc : startsWord c = true) :
    Munches c text (.word (String.ofList (c :: text.takeWhile continuesWord)))
      (text.takeWhile continuesWord)
  | mark {m : Mark} (hdashes : ¬(c = '-' ∧ text.head? = some '-')) (hquote : c ≠ '\'')
    (hwhole : (Numeral.leading (c :: text)).whole = []) (hc : startsWord c = false)
    (hm : Mark.ofChar? c = some m) : Munches c text (.mark m) []

theorem munches_of_munch (h : munch here c text = .ok (t, letters)) : Munches c text t letters := by
  simp only [munch] at h
  split at h
  · rename_i hdashes
    cases h
    exact .comment hdashes
  · rename_i hdashes
    split at h
    · rename_i hquote
      split at h
      · contradiction
      · rename_i hdrop
        cases h
        exact .string hquote (by rw [hdrop]; rfl)
      · contradiction
    · rename_i hquote
      split at h
      · rename_i hwhole
        split at h
        · rename_i ht
          cases h
          exact .numeral hdashes hquote hwhole ht
        · contradiction
      · rename_i hwhole
        replace hwhole := Decidable.not_not.mp hwhole
        split at h
        · rename_i hc
          cases h
          exact .word hdashes hquote hwhole hc
        · rename_i hc
          split at h
          · rename_i hm
            cases h
            exact .mark hdashes hquote hwhole (Bool.eq_false_iff.mpr hc) hm
          · contradiction

theorem Munches.munch (h : Munches c text t letters) (here : Position) :
    munch here c text = .ok (t, letters) := by
  cases h with
  | comment hdashes => simp [Token.munch, hdashes]
  | string hquote hclosed =>
    obtain ⟨rest, hrest⟩ := List.head?_eq_some_iff.mp hclosed
    simp [Token.munch, hquote, hrest]
  | numeral hdashes hquote hwhole ht => simp [Token.munch, hdashes, hquote, hwhole, ht]
  | word hdashes hquote hwhole hc => simp [Token.munch, hdashes, hquote, hwhole, hc]
  | mark hdashes hquote hwhole hc hm => simp [Token.munch, hdashes, hquote, hwhole, hc, hm]

theorem Munches.front (h : Munches c text t letters) :
    letters ++ text.drop letters.length = text := by
  cases h with
  | comment hdashes =>
    obtain ⟨rest, rfl⟩ := List.head?_eq_some_iff.mp hdashes.2
    exact congrArg ('-' :: ·) ((Scans.takeWhile (!isLineBreak ·)).front rest)
  | string hquote hclosed =>
    obtain ⟨rest, hrest⟩ := List.head?_eq_some_iff.mp hclosed
    have htext := (Scans.takeWhile isQuotable).front text
    rw [hrest] at htext
    rw [List.length_append, ← List.drop_drop, hrest, List.append_assoc]
    exact htext
  | numeral hdashes hquote hwhole ht =>
    have htext := Numeral.spelling_leading (c :: text)
    rw [← Numeral.spelling_leading_cons hwhole] at htext
    exact (List.cons.inj htext).2
  | word hdashes hquote hwhole hc => exact (Scans.takeWhile continuesWord).front text
  | mark => rfl

/-- A token stays where it is read when the text is cut behind it. -/
theorem Munches.stable (h : Munches c text t letters) (htext : text = letters ++ (more ++ back)) :
    Munches c (letters ++ more) t letters := by
  -- what rules out the earlier branches looks into the text behind, which is cut now
  have hnodashes : ¬(c = '-' ∧ text.head? = some '-') →
      ¬(c = '-' ∧ (letters ++ more).head? = some '-') := by
    intro h hdashes
    apply h
    refine ⟨hdashes.1, ?_⟩
    rw [htext, ← List.append_assoc, List.head?_append, hdashes.2]
    rfl
  have hnowhole : (Numeral.leading (c :: text)).whole = [] →
      (Numeral.leading (c :: (letters ++ more))).whole = [] := by
    intro h
    apply Decidable.byContradiction
    intro hwhole
    apply Numeral.leading_whole_more back hwhole
    rwa [List.cons_append, List.append_assoc, ← htext]
  cases h with
  | comment hdashes =>
    -- the letters get a name, since they are taken from the text that is rewritten
    generalize hcontent : text.tail.takeWhile (!isLineBreak ·) = content at htext ⊢
    rw [htext] at hcontent
    have hcut := (Scans.takeWhile (!isLineBreak ·)).stable content more back hcontent
    have h : Munches c ('-' :: content ++ more) _ _ := .comment ⟨hdashes.1, rfl⟩
    rwa [List.cons_append, List.tail_cons, hcut] at h
  | string hquote hclosed =>
    generalize hcontent : text.takeWhile isQuotable = content at htext ⊢
    rw [htext, List.append_assoc] at hcontent
    have hcut := (Scans.takeWhile isQuotable).stable content (['\''] ++ more) back
      (by rwa [List.append_assoc])
    rw [List.append_assoc]
    have h : Munches c (content ++ (['\''] ++ more)) _ _ :=
      .string hquote (by rw [hcut, List.drop_left]; rfl)
    rwa [hcut] at h
  | numeral hdashes hquote hwhole ht =>
    have hspelling := Numeral.spelling_leading_cons hwhole
    generalize hn : Numeral.leading (c :: text) = n at hwhole ht htext hnodashes hspelling ⊢
    have hcut : Numeral.leading (c :: (n.spelling.tail ++ more)) = n := by
      rw [← List.cons_append, hspelling]
      apply @Numeral.leading_stable n more back
      rw [← hspelling, List.cons_append, ← htext, hn]
    have h : Munches c (n.spelling.tail ++ more) t _ :=
      .numeral (hnodashes hdashes) hquote (by rwa [hcut]) (by rwa [hcut])
    rwa [hcut] at h
  | word hdashes hquote hwhole hc =>
    generalize hword : text.takeWhile continuesWord = word at htext hnodashes hnowhole ⊢
    have hcut := (Scans.takeWhile continuesWord).stable word more back (by rwa [← htext])
    have h : Munches c (word ++ more) _ _ :=
      .word (hnodashes hdashes) hquote (hnowhole hwhole) hc
    rwa [hcut] at h
  | mark hdashes hquote hwhole hc hm =>
    exact .mark (hnodashes hdashes) hquote (hnowhole hwhole) hc hm

end Token

end KarelKit
