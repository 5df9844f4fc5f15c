import KarelKit.Proofs.Token.Blanks
import KarelKit.Proofs.Token.Slicing

namespace KarelKit

/-- The place `lines` lines further down. -/
def Position.down (lines : Nat) (p : Position) : Position := ⟨p.line + lines, p.column⟩

def Range.down (lines : Nat) (range : Range) : Range :=
  ⟨range.start.down lines, range.stop.down lines⟩

def Lexeme.down (lines : Nat) (l : Lexeme) : Lexeme := ⟨l.node, l.range.down lines⟩

namespace Position

variable {lines : Nat} {p q : Position}

theorem down_le_down : p.down lines ≤ q.down lines ↔ p ≤ q := by
  simp only [le_iff, down]
  omega

theorem le_down : p ≤ p.down lines := by
  simp only [le_iff, down]
  omega

theorem next_down (p : Position) (c : Char) : (p.down lines).next c = (p.next c).down lines := by
  simp only [next, down]
  split
  · rw [mk.injEq]
    exact ⟨Nat.add_right_comm .., rfl⟩
  · rfl

theorem after_down (p : Position) (text : List Char) :
    (p.down lines).after text = (p.after text).down lines := by
  induction text generalizing p with
  | nil => rfl
  | cons c text ih => rw [after_cons, next_down, ih, after_cons]

theorem line_after (p : Position) (text : List Char) :
    (p.after text).line = p.line + text.count '\n' := by
  induction text generalizing p with
  | nil => rfl
  | cons c text ih =>
    rw [after_cons, ih, next]
    by_cases hc : c = '\n'
    · subst hc
      rw [if_pos rfl, List.count_cons_self]
      dsimp only
      omega
    · rw [if_neg hc, List.count_cons_of_ne hc]

/-- A new line behind a text begins as the text does, below all its lines. -/
theorem newline_after (text : List Char) :
    (first.after text).next '\n' = first.down (1 + text.count '\n') := by
  rw [next, if_pos rfl, line_after, down, mk.injEq]
  refine ⟨?_, rfl⟩
  omega

end Position

theorem Range.between_down (lines : Nat) (start stop : Position) :
    between (start.down lines) (stop.down lines) = (between start stop).down lines := by
  simp only [between, down, Position.down_le_down]
  split <;> rfl

namespace Token.Lexes

variable {here : Position} {text text' : List Char} {u v : List Lexeme} {b : Char}

theorem down (h : Lexes here text u) (lines : Nat) :
    Lexes (here.down lines) text (u.map (·.down lines)) := by
  induction h with
  | nil => exact .nil
  | blank hc h ih =>
    rw [← Position.next_down] at ih
    exact .blank hc ih
  | @token here c letters text t u hc ht h ih =>
    rw [← Position.after_down] at ih
    have htoken := token hc ht ih
    rw [Position.after_down] at htoken
    exact htoken

/-- The end of a line ends the last token, whatever comes on the next line. -/
theorem append_lineBreak (hb : isLineBreak b = true) (h : Lexes here text u)
    (h' : Lexes ((here.after text).next b) text' v) :
    Lexes here (text ++ b :: text') (u ++ v) := by
  have hbreak : ∀ d ∈ (b :: text').head?, isLineBreak d = true := by simpa using hb
  have hblank : ∀ d ∈ (b :: text').head?, Text.isBlank d = true :=
    fun d hd => isBlank_of_isLineBreak (hbreak d hd)
  induction h with
  | nil => exact .blank (isBlank_of_isLineBreak hb) h'
  | blank hc h ih => exact .blank hc (ih h')
  | @token here c letters text t u hc ht h ih =>
    have hmore := ht.extend hblank fun _ => hbreak
    rw [List.append_assoc] at hmore
    rw [List.cons_append, List.append_assoc]
    refine .token hc hmore (ih ?_)
    rwa [← Position.after_append]

end Token.Lexes

theorem lex_joined {a b : String} {text text' : Lexed} (h : lex a = .ok text)
    (h' : lex b = .ok text') : ∃ stop, lex (a ++ "\n" ++ b) = .ok
      ⟨text.lexemes ++ text'.lexemes.map (·.down (1 + a.toList.count '\n')), stop⟩ := by
  have hmoved := (Token.lexes_of_lex h').down (1 + a.toList.count '\n')
  rw [← Position.newline_after] at hmoved
  have hjoined := (Token.lexes_of_lex h).append_lineBreak (by decide) hmoved
  have hsource : (a ++ "\n" ++ b).toList = a.toList ++ '\n' :: b.toList := by
    simp
  rw [← hsource] at hjoined
  exact ⟨_, lex_of_lexes hjoined⟩

end KarelKit
