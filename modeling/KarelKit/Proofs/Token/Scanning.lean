import KarelKit.Proofs.Token.MaximalMunch
import Mathlib.Logic.Relation

namespace KarelKit

open Relation (ReflTransGen)
open Token (Longest Fails Failure)

/-- A text in reading: the characters that have been read, the lexemes in them, and the rest. -/
structure Scan where
  read : List Char
  lexemes : List Lexeme
  rest : List Char

namespace Scan

variable {source : String} {s s' : Scan}

/-- Where the rest begins. -/
def here (s : Scan) : Position := Position.first.after s.read

/-- A token starts here. -/
def AtToken (s : Scan) : Prop := ∃ c text, s.rest = c :: text ∧ Text.isBlank c = false

/-- A blank is passed over, and anything else is read as the longest token there. Integers out of
range are read like others. -/
inductive Step (s : Scan) : Scan → Prop
  | blank {c : Char} {rest : List Char} (hrest : s.rest = c :: rest)
    (hc : Text.isBlank c = true) : Step s ⟨s.read ++ [c], s.lexemes, rest⟩
  | token {letters rest : List Char} {t : Token} (hs : s.AtToken) (hrest : s.rest = letters ++ rest)
    (ht : Longest s.rest letters t) :
    Step s ⟨s.read ++ letters, s.lexemes ++ [⟨t, ⟨s.here, s.here.after letters⟩⟩], rest⟩

def Steps : Scan → Scan → Prop := ReflTransGen Step

/-- What the steps from the beginning of a text come to. -/
def Reached (source : String) (s : Scan) : Prop := Steps ⟨[], [], source.toList⟩ s

theorem AtToken.longest_unique (h : s.AtToken) {letters letters' : List Char} {t t' : Token}
    (hl : Longest s.rest letters t) (hl' : Longest s.rest letters' t') :
    t = t' ∧ letters = letters' := by
  obtain ⟨c, text, hrest, -⟩ := h
  rw [hrest] at hl hl'
  exact hl.unique hl'

theorem Step.unique : Relator.RightUnique Step := by
  intro s s₁ s₂ h₁ h₂
  -- a blank starts no token, so the kind of step is settled by the next character
  have hclash {c : Char} {rest : List Char} (hrest : s.rest = c :: rest)
      (hc : Text.isBlank c = true) (hs : s.AtToken) : False := by
    obtain ⟨d, text, hrest', hd⟩ := hs
    rw [hrest] at hrest'
    cases hrest'
    rw [hc] at hd
    contradiction
  cases h₁ with
  | blank hrest hc =>
    cases h₂ with
    | blank hrest' =>
      rw [hrest] at hrest'
      cases hrest'
      rfl
    | token hs => exact (hclash hrest hc hs).elim
  | token hs hrest ht =>
    cases h₂ with
    | blank hrest' hc => exact (hclash hrest' hc hs).elim
    | token _ hrest' ht' =>
      obtain ⟨rfl, rfl⟩ := hs.longest_unique ht ht'
      rw [hrest, List.append_cancel_left_eq] at hrest'
      rw [hrest']

theorem Step.grows (h : Step s s') : s.lexemes <+: s'.lexemes ∧ s.read <+: s'.read := by
  cases h with
  | blank => exact ⟨List.prefix_rfl, List.prefix_append ..⟩
  | token => exact ⟨List.prefix_append .., List.prefix_append ..⟩

theorem Steps.grows (h : Steps s s') : s.lexemes <+: s'.lexemes ∧ s.read <+: s'.read := by
  induction h with
  | refl => exact ⟨List.prefix_rfl, List.prefix_rfl⟩
  | tail _ hstep ih => exact ⟨ih.1.trans hstep.grows.1, ih.2.trans hstep.grows.2⟩

/-- Of two places that are reached, one lies on the way to the other. -/
theorem Step.text (h : Step s s') : s'.read ++ s'.rest = s.read ++ s.rest := by
  cases h with
  | blank hrest _ => rw [hrest, List.append_assoc, List.singleton_append]
  | token _ hrest _ => rw [hrest, List.append_assoc]

theorem Reached.text (h : Reached source s) : s.read ++ s.rest = source.toList := by
  induction h with
  | refl => rfl
  | tail _ hstep ih => exact hstep.text.trans ih

theorem Reached.total (h : Reached source s) (h' : Reached source s') :
    Steps s s' ∨ Steps s' s := ReflTransGen.total_of_right_unique Step.unique h h'

/-- From a place where a token starts, the next step reads the token. -/
theorem Steps.first (h : Steps s s') (hs : s.AtToken) :
    s' = s ∨ ∃ letters t, Longest s.rest letters t ∧
      s.lexemes ++ [⟨t, ⟨s.here, s.here.after letters⟩⟩] <+: s'.lexemes := by
  cases h using ReflTransGen.head_induction_on with
  | refl => exact Or.inl rfl
  | head hstep hrest =>
    right
    cases hstep with
    | blank hblank hc =>
      obtain ⟨d, text, hrest', hd⟩ := hs
      rw [hblank] at hrest'
      cases hrest'
      rw [hc] at hd
      contradiction
    | token _ _ ht => exact ⟨_, _, ht, (Steps.grows hrest).1⟩

/-- No steps lead over a failure but those that read an integer out of range. -/
theorem Steps.over_failure (h : Steps s s') (hs : s.AtToken) (hfails : Fails s.rest) :
    s' = s ∨ ∃ l ∈ s'.lexemes, ¬l.node.InRange := by
  rcases h.first hs with heq | ⟨letters, t, ht, hlexemes⟩
  · exact Or.inl heq
  · right
    have hmem := hlexemes.subset (List.mem_append_right _ (List.mem_singleton_self _))
    rcases hfails with hno | ⟨letters', t', ht', hrange⟩
    · exact absurd ht.spells (hno _ _ ht.front)
    · obtain ⟨rfl, rfl⟩ := hs.longest_unique ht ht'
      exact ⟨_, hmem, hrange⟩

theorem Step.of_munch {c : Char} {letters text : List Char} {t : Token}
    (hrest : s.rest = c :: text) (hc : Text.isBlank c = false)
    (h : Token.munch s.here c text = .ok (t, letters)) :
    Step s ⟨s.read ++ c :: letters,
      s.lexemes ++ [⟨t, ⟨s.here, s.here.after (c :: letters)⟩⟩], text.drop letters.length⟩ := by
  have hlongest := (Token.longest_of_munch h).1
  have htext := (Token.munches_of_munch h).front
  refine .token ⟨c, text, hrest, hc⟩ ?_ (hrest ▸ hlongest)
  rw [hrest, List.cons_append, htext]

/-- What is read of the rest is read by steps. -/
theorem steps_of_lexFrom {u : List Lexeme} (h : Token.lexFrom s.here s.rest = .ok u) :
    Steps s ⟨s.read ++ s.rest, s.lexemes ++ u, []⟩ := by
  generalize hhere : s.here = here at h
  generalize hrest : s.rest = rest at h ⊢
  fun_induction Token.lexFrom here rest generalizing s u
  case case1 here =>
    cases h
    rw [List.append_nil, List.append_nil, ← hrest]
    exact .refl
  case case2 here c text hblank ih =>
    have hsteps := ih (s := ⟨s.read ++ [c], s.lexemes, text⟩)
      (by rw [← hhere]; exact Position.after_append ..) rfl h
    rw [List.append_assoc] at hsteps
    exact .head (.blank hrest hblank) hsteps
  case case3 here c text hblank e hmunch => contradiction
  case case4 here c text hblank t letters hmunch stop ih =>
    subst hhere
    have hstep := Step.of_munch hrest (Bool.eq_false_iff.mpr hblank) hmunch
    have htext := (Token.munches_of_munch hmunch).front
    cases hlex : Token.lexFrom stop (text.drop letters.length) with
    | error e =>
      rw [hlex] at h
      contradiction
    | ok v =>
      rw [hlex] at h
      cases h
      have hsteps := ih (s := ⟨s.read ++ c :: letters, s.lexemes ++ [⟨t, ⟨s.here, stop⟩⟩],
        text.drop letters.length⟩) (Position.after_append ..) rfl hlex
      rw [List.append_assoc, List.append_assoc, List.cons_append, htext] at hsteps
      exact .head hstep hsteps

/-- An error in the rest is that of a failure which steps come to, past no integer out of range. -/
theorem exists_failure {e : ParseError} (h : Token.lexFrom s.here s.rest = .error e) :
    ∃ s', Steps s s' ∧ (∀ l ∈ s'.lexemes, l ∈ s.lexemes ∨ l.node.InRange) ∧ s'.AtToken ∧
      Failure s'.here s'.rest e := by
  generalize hhere : s.here = here at h
  generalize hrest : s.rest = rest at h
  fun_induction Token.lexFrom here rest generalizing s
  case case1 here => contradiction
  case case2 here c text hblank ih =>
    have hstep := Step.blank hrest hblank
    obtain ⟨s', hsteps, hlexemes, hs'⟩ := ih (s := ⟨s.read ++ [c], s.lexemes, text⟩)
      (by rw [← hhere]; exact Position.after_append ..) rfl h
    exact ⟨s', .head hstep hsteps, hlexemes, hs'⟩
  case case3 here c text hblank e' hmunch =>
    cases h
    subst hhere
    refine ⟨s, .refl, fun l hl => Or.inl hl, ⟨c, text, hrest, Bool.eq_false_iff.mpr hblank⟩, ?_⟩
    rw [hrest]
    exact Token.failure_of_munch hmunch
  case case4 here c text hblank t letters hmunch stop ih =>
    subst hhere
    have hstep := Step.of_munch hrest (Bool.eq_false_iff.mpr hblank) hmunch
    -- a token that is read is in range, and what is wrong comes later
    have hinRange := (Token.longest_of_munch hmunch).2
    have hrest' : Token.lexFrom stop (text.drop letters.length) = .error e := by
      cases hlex : Token.lexFrom stop (text.drop letters.length) with
      | error e' =>
        rw [hlex] at h
        exact h
      | ok rest =>
        rw [hlex] at h
        contradiction
    obtain ⟨s', hsteps, hlexemes, hs'⟩ := ih (s := ⟨s.read ++ c :: letters, _, _⟩)
      (Position.after_append ..) rfl hrest'
    refine ⟨s', .head hstep hsteps, ?_, hs'⟩
    intro l hl
    rcases hlexemes l hl with hl | hl
    · rcases List.mem_append.mp hl with hl | hl
      · exact Or.inl hl
      · right
        rwa [List.mem_singleton.mp hl]
    · exact Or.inr hl

theorem Steps.eq_of_end (h : Steps s s') (hs : s.rest = []) : s' = s := by
  cases h using ReflTransGen.head_induction_on with
  | refl => rfl
  | head hstep _ =>
    cases hstep with
    | blank hrest =>
      rw [hs] at hrest
      contradiction
    | token htoken =>
      obtain ⟨c, text, hrest, -⟩ := htoken
      rw [hs] at hrest
      contradiction

variable {text : Lexed} {e : ParseError}

theorem reached_end (h : lex source = .ok text) :
    Reached source ⟨source.toList, text.lexemes, []⟩ :=
  steps_of_lexFrom (s := ⟨[], [], source.toList⟩) (Token.lexFrom_of_lex h).1

/-- In a text that is read, the lexeme at a token's start is the longest token there. -/
theorem Reached.lexeme (hs : Reached source s) (h : lex source = .ok text) (htoken : s.AtToken) :
    ∃ letters t, Longest s.rest letters t ∧ t.InRange ∧
      s.lexemes ++ [⟨t, ⟨s.here, s.here.after letters⟩⟩] <+: text.lexemes := by
  -- a token still starts here, so the text is not at its end
  have hne : ⟨source.toList, text.lexemes, []⟩ ≠ s := by
    rintro rfl
    obtain ⟨c, rest, hrest, -⟩ := htoken
    contradiction
  have hsteps : Steps s ⟨source.toList, text.lexemes, []⟩ := by
    rcases hs.total (reached_end h) with hsteps | hsteps
    · exact hsteps
    · exact absurd (hsteps.eq_of_end rfl).symm hne
  rcases hsteps.first htoken with heq | ⟨letters, t, ht, hlexemes⟩
  · exact absurd heq hne
  · have hmem := hlexemes.subset (List.mem_append_right _ (List.mem_singleton_self _))
    exact ⟨letters, t, ht, (Token.legible_of_lex h _ hmem).inRange, hlexemes⟩

/-- A text with a failing token start is not read. -/
theorem Reached.lex_ne_ok (hs : Reached source s) (htoken : s.AtToken) (hfails : Fails s.rest) :
    lex source ≠ .ok text := by
  intro h
  obtain ⟨letters, t, ht, hrange, -⟩ := hs.lexeme h htoken
  rcases hfails with hno | ⟨letters', t', ht', hrange'⟩
  · exact hno _ _ ht.front ht.spells
  · obtain ⟨rfl, -⟩ := htoken.longest_unique ht ht'
    exact hrange' hrange

/-- The error of a text is that of its first failing token start. -/
theorem exists_first_failure (h : lex source = .error e) :
    ∃ s, Reached source s ∧ s.AtToken ∧ Failure s.here s.rest e ∧
      ∀ s', Reached source s' → s'.AtToken → Fails s'.rest → s.read.length ≤ s'.read.length := by
  have hlexFrom : Token.lexFrom .first source.toList = .error e := by
    unfold lex at h
    cases hlex : Token.lexFrom .first source.toList with
    | error e' =>
      rw [hlex] at h
      cases h
      rfl
    | ok lexemes =>
      rw [hlex] at h
      contradiction
  obtain ⟨s, hs, hrange, htoken, hfailure⟩ :=
    exists_failure (s := ⟨[], [], source.toList⟩) hlexFrom
  refine ⟨s, hs, htoken, hfailure, fun s' hs' htoken' hfails' => ?_⟩
  rcases Reached.total hs hs' with hsteps | hsteps
  · exact hsteps.grows.2.length_le
  · -- what is read before the failure is in range, so the other start is this one
    rcases hsteps.over_failure htoken' hfails' with rfl | ⟨l, hl, hout⟩
    · exact Nat.le_refl _
    · rcases hrange l hl with hnil | hin
      · contradiction
      · exact absurd hin hout

end Scan

/-- An error is reported at the token start where it arises, or behind characters from there on. -/
theorem Token.Failure.position {here : Position} {text : List Char} {e : ParseError}
    (h : Failure here text e) : ∃ front, front <+: text ∧ e.position = here.after front := by
  cases h with
  | @unclosed content rest _ _ _ _ =>
    exact ⟨'\'' :: content, List.prefix_append ('\'' :: content) rest, rfl⟩
  | stray _ _ => exact ⟨[], List.nil_prefix, rfl⟩
  | outOfRange _ _ => exact ⟨[], List.nil_prefix, rfl⟩

theorem exists_offset_of_lex_error {source : String} {e : ParseError} (h : lex source = .error e) :
    ∃ offset ≤ source.length, e.position = Position.atOffset source.toList offset := by
  obtain ⟨s, hs, -, hfailure, -⟩ := Scan.exists_first_failure h
  obtain ⟨front, ⟨back, hback⟩, hposition⟩ := hfailure.position
  have htext := hs.text
  rw [← hback, ← List.append_assoc] at htext
  refine ⟨(s.read ++ front).length, ?_, ?_⟩
  · rw [← String.length_toList, ← htext]
    simp
  · rw [← htext, Position.atOffset_append, hposition, Position.after_append]
    rfl

open Scan (Reached)

/-- The literal of a real, as its token keeps it, is read as the same real. -/
theorem Token.Spells.lex_literal {letters : List Char} {literal : String}
    (h : Spells letters (.real literal)) :
    ∃ text, lex literal = .ok text ∧ text.lexemes.map (·.node) = [.real literal] := by
  have hlegible : (Token.real literal).Legible := by
    generalize ht : Token.real literal = t at h
    cases h with
    | @real n hn h =>
      cases ht
      rw [← hn.spelling_normalize]
      refine ⟨n.normalize, hn.normalize, h.imp_right fun he => ?_, String.toList_ofList⟩
      simpa [Numeral.normalize] using he
    | _ => contradiction
  have hcloses : Closes [] (.real literal) := by simp [Closes, Numeral.Closes]
  have hreads := Reads.token hlegible hcloses .nil
  rw [List.append_nil] at hreads
  exact lex_of_reads hreads

/-- Texts are read by longest tokens. Each token start of a text that is read has its lexeme, which
is the longest token there; a text is not read if and only if some token start fails, and the error
is that of the first one. -/
theorem lex_maximal_munch (source : String) :
    (∀ text, lex source = .ok text → Reached source ⟨source.toList, text.lexemes, []⟩ ∧
      ∀ s, Reached source s → s.AtToken → ∃ letters t, Longest s.rest letters t ∧ t.InRange ∧
        s.lexemes ++ [⟨t, ⟨s.here, s.here.after letters⟩⟩] <+: text.lexemes) ∧
    ((∃ e, lex source = .error e) ↔ ∃ s, Reached source s ∧ s.AtToken ∧ Fails s.rest) ∧
    (∀ e, lex source = .error e →
      ∃ s, Reached source s ∧ s.AtToken ∧ Failure s.here s.rest e ∧
        ∀ s', Reached source s' → s'.AtToken → Fails s'.rest → s.read.length ≤ s'.read.length) ∧
    ∀ letters literal, Token.Spells letters (.real literal) →
      ∃ text, lex literal = .ok text ∧ text.lexemes.map (·.node) = [.real literal] := by
  refine ⟨fun text h => ⟨Scan.reached_end h, fun s hs htoken => hs.lexeme h htoken⟩, ⟨?_, ?_⟩,
    fun e h => Scan.exists_first_failure h, fun _ _ h => h.lex_literal⟩
  · intro h
    obtain ⟨e, he⟩ := h
    obtain ⟨s, hs, htoken, hfailure, -⟩ := Scan.exists_first_failure he
    exact ⟨s, hs, htoken, hfailure.fails⟩
  · intro h
    obtain ⟨s, hs, htoken, hfails⟩ := h
    cases hlex : lex source with
    | error e => exact ⟨e, rfl⟩
    | ok text => exact absurd hlex (hs.lex_ne_ok htoken hfails)

end KarelKit
