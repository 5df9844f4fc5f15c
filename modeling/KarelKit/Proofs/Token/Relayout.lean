import KarelKit.Proofs.Token.Blanks
import KarelKit.Proofs.Token.Slicing

namespace KarelKit

/-- The lexemes `u` of `text`, which begins at `here` with the first of them, stand in `text'` with
other blanks behind each. What is apart stays apart, and a comment goes up to the end of its line. -/
inductive Relaid : Position → List Lexeme → List Char → List Char → Prop
  | nil {here : Position} : Relaid here [] [] []
  | cons {here : Position} {l : Lexeme} {u : List Lexeme} {letters gap gap' text text' : List Char}
    (hl : l.range = ⟨here, here.after letters⟩)
    (hgap : ∀ b ∈ gap, Text.isBlank b = true) (hgap' : ∀ b ∈ gap', Text.isBlank b = true)
    (hapart : gap ≠ [] → gap' ≠ [])
    (hcomment : l.node.isComment = true → ∀ b ∈ gap'.head?, Token.isLineBreak b = true)
    (h : Relaid ((here.after letters).after gap) u text text') :
    Relaid here (l :: u) (letters ++ (gap ++ text)) (letters ++ (gap' ++ text'))

/-- `source'` has the lexemes `u` of `source` in another layout. Any blanks may stand in front of the
first one. -/
def Relayout (source : String) (u : List Lexeme) (source' : String) : Prop :=
  ∃ gap gap' text text', source.toList = gap ++ text ∧ source'.toList = gap' ++ text' ∧
    (∀ b ∈ gap, Text.isBlank b = true) ∧ (∀ b ∈ gap', Text.isBlank b = true) ∧
    Relaid (Position.first.after gap) u text text'

theorem Position.eq_of_after_eq {here : Position} {front front' text : List Char}
    (h : front <+: text) (h' : front' <+: text) (heq : here.after front = here.after front') :
    front = front' := by
  have hmore {front more : List Char} (h : here.after front = here.after (front ++ more)) :
      more = [] := by
    cases more with
    | nil => rfl
    | cons c more =>
      rw [after_append] at h
      have hlt := lt_after_cons (here.after front) c more
      rw [← h] at hlt
      exact absurd hlt (lt_irrefl _)
  rcases List.prefix_or_prefix_of_prefix h h' with ⟨more, rfl⟩ | ⟨more, rfl⟩
  · rw [hmore heq, List.append_nil]
  · rw [hmore heq.symm, List.append_nil]

namespace Token

variable {here : Position} {gap letters text text' : List Char} {l : Lexeme} {u : List Lexeme}

namespace Lexes

theorem blanks (hgap : ∀ b ∈ gap, Text.isBlank b = true) (h : Lexes (here.after gap) text u) :
    Lexes here (gap ++ text) u := by
  induction gap generalizing here with
  | nil => exact h
  | cons b gap ih =>
    exact .blank (hgap b (List.mem_cons_self ..)) (ih (fun d hd => hgap d (.tail b hd)) h)

theorem of_blanks (hgap : ∀ b ∈ gap, Text.isBlank b = true) (h : Lexes here (gap ++ text) u) :
    Lexes (here.after gap) text u := by
  induction gap generalizing here with
  | nil => exact h
  | cons b gap ih =>
    have hb := hgap b (List.mem_cons_self ..)
    generalize hfull : b :: gap ++ text = full at h
    cases h with
    | nil => contradiction
    | blank hc h =>
      cases hfull
      exact ih (fun d hd => hgap d (.tail b hd)) h
    | token hc ht h =>
      cases (List.cons.inj hfull).1
      rw [hb] at hc
      contradiction

/-- The first lexeme, where it is known which characters it stands on. -/
theorem first (h : Lexes here (letters ++ text) (l :: u))
    (hl : l.range = ⟨here, here.after letters⟩) : ∃ c more, letters = c :: more ∧
      Text.isBlank c = false ∧ Munches c (more ++ text) l.node more ∧
      Lexes (here.after letters) text u := by
  generalize hfull : letters ++ text = full at h
  cases h with
  | @blank _ c _ _ hc h =>
    -- no lexeme starts on a blank
    have hstart := h.rising.2 l (List.mem_cons_self ..)
    rw [hl] at hstart
    exact absurd (Position.lt_next here c) (Position.not_lt_of_le hstart)
  | @token _ c more rest t _ hc ht h =>
    have hstop : here.after letters = here.after (c :: more) := (congrArg Range.stop hl).symm
    have hletters : letters = c :: more :=
      Position.eq_of_after_eq ⟨text, hfull⟩ ⟨rest, rfl⟩ hstop
    subst hletters
    obtain rfl := List.append_cancel_left hfull
    exact ⟨c, more, rfl, hc, ht, h⟩

end Lexes

/-- Behind a comment the line ends, or the text. -/
theorem Munches.lineBreak_of_isComment {c : Char} {t : Token}
    (h : Munches c (letters ++ text) t letters) (ht : t.isComment = true) :
    ∀ b ∈ text.head?, isLineBreak b = true := by
  cases t with
  | comment content =>
    have hwritten : c :: letters = '-' :: '-' :: content.toList := h.writtenAs
    cases hwritten
    have hmunch := h.munch .first
    simp only [Token.munch, List.cons_append, List.head?_cons, true_and, if_true,
      List.tail_cons] at hmunch
    have hcontent : (content.toList ++ text).takeWhile (!isLineBreak ·) = content.toList := by
      simpa using (Prod.mk.inj (Except.ok.inj hmunch)).2
    have hlegible : ∀ d ∈ content.toList, isLineBreak d = false := h.legible
    rw [List.takeWhile_append_of_pos (by simpa using hlegible),
      List.append_right_eq_self] at hcontent
    intro b hb
    obtain ⟨rest, rfl⟩ := List.head?_eq_some_iff.mp hb
    simpa using List.takeWhile_eq_nil_iff.mp hcontent (by simp)
  | _ => contradiction

end Token

namespace Relaid

variable {here : Position} {text text' : List Char} {u : List Lexeme}

/-- Both texts begin alike, up to a gap in the second one. -/
theorem front (h : Relaid here u text text') : ∃ front back back', text = front ++ back ∧
    text' = front ++ back' ∧ ∀ b ∈ back'.head?, Text.isBlank b = true := by
  induction h with
  | nil => exact ⟨[], [], [], rfl, rfl, by simp⟩
  | @cons here l u letters gap gap' text text' hl hgap hgap' hapart hcomment h ih =>
    cases gap' with
    | nil =>
      have hnil : gap = [] := Decidable.byContradiction fun hne => hapart hne rfl
      obtain ⟨front, back, back', rfl, rfl, hback⟩ := ih
      subst hnil
      exact ⟨letters ++ front, back, back', by simp, by simp, hback⟩
    | cons b gap' =>
      exact ⟨letters, gap ++ text, b :: gap' ++ text', rfl, rfl,
        by simpa using hgap' b (List.mem_cons_self ..)⟩

end Relaid

namespace Token

/-- Other blanks behind a token, and behind those that follow it, leave it as it is read. -/
theorem Munches.relaid {here : Position} {c : Char} {t : Token} {letters gap gap' : List Char}
    (ht : Munches c (letters ++ (gap ++ text)) t letters)
    (hgap' : ∀ b ∈ gap', Text.isBlank b = true) (hapart : gap ≠ [] → gap' ≠ [])
    (hcomment : t.isComment = true → ∀ b ∈ gap'.head?, isLineBreak b = true)
    (hlexes : Lexes here text u) (h : Relaid here u text text') :
    Munches c (letters ++ (gap' ++ text')) t letters := by
  cases gap' with
  | cons b gap' =>
    have hcut : Munches c (letters ++ []) t letters := ht.stable (by rw [List.nil_append])
    rw [List.append_nil] at hcut
    exact hcut.extend (by simpa using hgap' b (List.mem_cons_self ..)) hcomment
  | nil =>
    have hnil : gap = [] := Decidable.byContradiction fun hne => hapart hne rfl
    subst hnil
    simp only [List.nil_append] at ht ⊢
    by_cases hc : t.isComment = true
    · cases h with
      | nil => exact ht
      | cons hl =>
        -- a comment goes on over anything that could begin a token
        obtain ⟨d, more, rfl, hd, -⟩ := hlexes.first hl
        have hblank := isBlank_of_isLineBreak (ht.lineBreak_of_isComment hc d rfl)
        rw [hd] at hblank
        exact absurd hblank Bool.false_ne_true
    · obtain ⟨front, back, back', rfl, rfl, hback⟩ := h.front
      rw [← List.append_assoc]
      exact (ht.stable rfl).extend hback fun h => absurd h hc

theorem Lexes.relaid (hlexes : Lexes here text u) (h : Relaid here u text text')
    (there : Position) :
    ∃ u', Lexes there text' u' ∧ u'.map (·.node) = u.map (·.node) := by
  induction h generalizing there with
  | nil => exact ⟨[], .nil, rfl⟩
  | @cons here l u letters gap gap' text text' hl hgap hgap' hapart hcomment h ih =>
    obtain ⟨c, more, rfl, hc, ht, hrest⟩ := hlexes.first hl
    replace hrest := hrest.of_blanks hgap
    obtain ⟨u', hu', hnodes⟩ := ih hrest ((there.after (c :: more)).after gap')
    have ht' := ht.relaid hgap' hapart hcomment hrest h
    refine ⟨_, .token hc ht' (hu'.blanks hgap'), ?_⟩
    rw [List.map_cons, List.map_cons, hnodes]

end Token

theorem lex_relayout {source source' : String} {text : Lexed} (hlex : lex source = .ok text)
    (h : Relayout source text.lexemes source') : ∃ text', lex source' = .ok text' ∧
      text'.lexemes.map (·.node) = text.lexemes.map (·.node) := by
  have hlexes := Token.lexes_of_lex hlex
  obtain ⟨gap, gap', body, body', hsource, hsource', hgap, hgap', hrelaid⟩ := h
  rw [hsource] at hlexes
  obtain ⟨u', hu', hnodes⟩ := (hlexes.of_blanks hgap).relaid hrelaid (Position.first.after gap')
  have hlexes' := hu'.blanks hgap'
  rw [← hsource'] at hlexes'
  exact ⟨_, lex_of_lexes hlexes', hnodes⟩

end KarelKit
