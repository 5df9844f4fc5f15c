import KarelKit.Proofs.Rule.Repetition

namespace KarelKit

open KarelKit.Language (Outlined)

variable {α : Type}

/-- A text of which comments may stand first and last. -/
def Language.whole (L : Language α) : Language α := comments >>= fun _ => trailed L

protected theorem Language.Outlined.whole {L : Language α} {o : Outline} (h : L.Outlined o)
    (ho : o.empty = false) (hcomment : .comment ∉ o.first) :
    L.whole.Outlined ⟨false, .comment :: o.first, .comment :: o.next⟩ := by
  apply (Outlined.comments.bind (fun _ => h.trailed ho) _).mono
  · simp [Outline.Within, Outline.andThen]
  · intro x hx
    rwa [List.mem_singleton.mp hx]

/-- The outcome of reading a whole text by a rule whose sentences are those of `W`. -/
inductive Rule.Settles (W : Language α) (text : Lexed) : Except ParseError α → Prop
  | ok {a : α} (sentence : W text.lexemes a) : Settles W text (.ok a)
  | error {u : List Lexeme} {expected : List Expectation} {c : Cursor}
    (past : (Cursor.start text).Past u c) (halts : W.Halts u c) (viable : W.Viable u)
    (rejects : c.ahead = [] → ∀ a, ¬W u a) : Settles W text (.error (c.unexpected expected))

/-- What reading comes to if nothing may be ahead after it. -/
def Outcome.finish (expected : List Expectation) : Outcome α → Except ParseError α
  | ok a c => if c.ahead.isEmpty then .ok a else .error (c.unexpected expected)
  | error e _ => .error e

namespace Rule

theorem skipComments_apply (c : Cursor) : skipComments c = .ok () c.skipComments := rfl

theorem settles_finish {W : Language α} {text : Lexed} {rc : Outcome α}
    (h : rc.Follows W (.start text)) (expected : List Expectation) :
    Settles W text (rc.finish expected) := by
  cases h with
  | @ok u a c past halts sentence =>
    have hahead := past.ahead
    rw [Outcome.finish]
    cases hrest : c.ahead with
    | nil =>
      rw [hrest, List.append_nil] at hahead
      apply Settles.ok
      change W (Cursor.start text).ahead a
      rwa [hahead]
    | cons l rest =>
      -- a sentence has been read, and the lexeme ahead is too much
      apply Settles.error past halts (Language.viable_of_sentence sentence)
      intro hnil
      rw [hnil] at hrest
      contradiction
  | error past halts viable rejects => exact .error past halts viable fun _ => rejects

theorem readAll_eq (r : Rule α) (text : Lexed) :
    readAll r text = Outcome.finish [.endOfInput]
      ((skipComments >>= fun _ => r >>= fun a => skipComments >>= fun _ => pure a)
        (.start text)) := by
  change (match (match r (Cursor.start text).skipComments with
      | .ok a c => _
      | .error e c => .error e c : Outcome α) with
    | .ok a _ => .ok a
    | .error e _ => .error e) = Outcome.finish _ (match r (Cursor.start text).skipComments with
      | .ok a c => .ok a c.skipComments
      | .error e c => .error e c)
  cases r (Cursor.start text).skipComments with
  | ok a c =>
    change (match (lookahead _ _ >>= fun _ => pure a) c.skipComments with
      | .ok a _ => .ok a
      | .error e _ => .error e) = Outcome.finish _ (.ok a c.skipComments)
    rw [bind_apply]
    rw [Outcome.finish]
    unfold lookahead
    by_cases hempty : c.skipComments.ahead.isEmpty = true
    · rw [if_pos hempty, if_pos hempty]
      rfl
    · rw [if_neg hempty, if_neg hempty]
      rfl
  | error e c => rfl

theorem readAll_settles {r : Rule α} {L : Language α} {o : Outline} (h : ∀ n, r.Parses L o n)
    (ho : o.empty = false) (hcomment : .comment ∉ o.first) (text : Lexed) :
    Settles L.whole text (readAll r text) := by
  rw [readAll_eq]
  apply settles_finish
  apply (Parses.skipComments.bind (fun _ => (h _).trailed ho) _).follows (Nat.lt_succ_self _)
  intro x hx
  rwa [List.mem_singleton.mp hx]

/-- Only sentences are read, and each of them is. -/
theorem Settles.ok_iff {W : Language α} {o : Outline} (hW : W.Outlined o) {text : Lexed}
    {result : Except ParseError α} (h : Settles W text result) {a : α} :
    result = .ok a ↔ W text.lexemes a := by
  cases h with
  | @ok b sentence =>
    constructor
    · intro hb
      cases hb
      exact sentence
    · intro ha
      rw [hW.functional sentence ha]
  | @error u expected c past halts viable rejects =>
    constructor
    · intro hb
      contradiction
    · intro ha
      have hahead : text.lexemes = u ++ c.ahead := past.ahead
      rw [hahead] at ha
      cases hrest : c.ahead with
      | nil =>
        rw [hrest, List.append_nil] at ha
        exact absurd ha (rejects hrest a)
      | cons l rest =>
        -- no sentence begins with `u` and `l`, so the text is none
        refine absurd ⟨rest, a, ?_⟩ (halts l (by rw [hrest]; rfl))
        rwa [hrest, ← List.singleton_append, ← List.append_assoc] at ha

end Rule
end KarelKit
