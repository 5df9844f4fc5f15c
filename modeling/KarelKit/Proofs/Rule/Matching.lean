import KarelKit.Proofs.Rule.Whole
import KarelKit.Proofs.Token.Matching
import KarelKit.Rule.Lexical
import Mathlib.Data.List.Forall2

namespace KarelKit

/-- What matches in two texts: names, lexemes, the places where lexemes start and stop, and the
ranges between such places. -/
structure Matching where
  name : String → String → Prop
  lexeme : Lexeme → Lexeme → Prop
  start : Position → Position → Prop
  stop : Position → Position → Prop
  range : Range → Range → Prop
  token_of {l l' : Lexeme} (h : lexeme l l') : l.node.Matches name l'.node
  start_of {l l' : Lexeme} (h : lexeme l l') : start l.range.start l'.range.start
  stop_of {l l' : Lexeme} (h : lexeme l l') : stop l.range.stop l'.range.stop
  between {s s' e e' : Position} (hs : start s s') (he : stop e e') :
    range (.between s e) (.between s' e')

/-- What stands in place of what was expected matches, and both are the end or neither. -/
inductive Found.Matches (names : String → String → Prop) : Found → Found → Prop
  | token {t t' : Token} (h : t.Matches names t') : Matches names (.token t) (.token t')
  | endOfInput : Matches names .endOfInput .endOfInput

variable {m : Matching} {α β : Type} {V : α → α → Prop} {W : β → β → Prop}

structure ParseError.Matches (m : Matching) (e e' : ParseError) : Prop where
  position : m.start e.position e'.position
  expected : e'.expected = e.expected
  found : e.found.Matches m.name e'.found

structure Cursor.Matches (m : Matching) (c c' : Cursor) : Prop where
  ahead : List.Forall₂ m.lexeme c.ahead c'.ahead
  lastEnd : m.stop c.lastEnd c'.lastEnd
  stop : m.start c.stop c'.stop

namespace Cursor.Matches

variable {c c' : Cursor}

theorem size (h : c.Matches m c') : c'.size = c.size := by
  rw [c.size_eq, c'.size_eq, h.ahead.length_eq]

theorem here (h : c.Matches m c') : m.start c.here c'.here := by
  have hahead := h.ahead
  unfold Cursor.here
  generalize c.ahead = u at hahead ⊢
  generalize c'.ahead = u' at hahead ⊢
  cases hahead with
  | nil => exact h.stop
  | cons hl _ => exact m.start_of hl

theorem unexpected (h : c.Matches m c') (expected : List Expectation) :
    (c.unexpected expected).Matches m (c'.unexpected expected) := by
  refine ⟨h.here, rfl, ?_⟩
  have hahead := h.ahead
  simp only [Cursor.unexpected, Cursor.found]
  generalize c.ahead = u at hahead ⊢
  generalize c'.ahead = u' at hahead ⊢
  cases hahead with
  | nil => exact .endOfInput
  | cons hl _ => exact .token (m.token_of hl)

theorem take (h : c.Matches m c') : c.take.Matches m c'.take := by
  have hahead := h.ahead
  have hlastEnd := h.lastEnd
  refine ⟨?_, ?_, h.stop⟩
  · simp only [Cursor.take]
    generalize c.ahead = u at hahead ⊢
    generalize c'.ahead = u' at hahead ⊢
    cases hahead with
    | nil => exact .nil
    | cons _ htail => exact htail
  · simp only [Cursor.take]
    generalize c.ahead = u at hahead ⊢
    generalize c'.ahead = u' at hahead ⊢
    cases hahead with
    | nil => exact hlastEnd
    | cons hl _ => exact m.stop_of hl

theorem skipComments (h : c.Matches m c') : c.skipComments.Matches m c'.skipComments := by
  refine ⟨?_, h.lastEnd, h.stop⟩
  rw [c.ahead_skipComments, c'.ahead_skipComments]
  generalize c.ahead = u, c'.ahead = u', h.ahead = hahead
  induction hahead with
  | nil => exact .nil
  | @cons l l' u u' hl htail ih =>
    rw [List.dropWhile_cons, List.dropWhile_cons, (m.token_of hl).isComment]
    split
    · exact ih
    · exact .cons hl htail

end Cursor.Matches

inductive Outcome.Matches (m : Matching) (V : α → α → Prop) : Outcome α → Outcome α → Prop
  | ok {a a' : α} {c c' : Cursor} (value : V a a') (cursor : c.Matches m c') :
    Matches m V (.ok a c) (.ok a' c')
  | error {e e' : ParseError} {c c' : Cursor} (error : e.Matches m e') (cursor : c.Matches m c') :
    Matches m V (.error e c) (.error e' c')

/-- Where cursors match, the outcomes of the two rules match; values do so by `V`. -/
structure Rule.Keeps (m : Matching) (V : α → α → Prop) (r r' : Rule α) : Prop where
  outcome {c c' : Cursor} (h : c.Matches m c') : (r c).Matches m V (r' c')

namespace Rule.Keeps

variable {r r' s s' : Rule α} {f f' : α → Rule β}

protected theorem pure {a a' : α} (h : V a a') : Keeps m V (pure a) (pure a') :=
  ⟨fun hc => .ok h hc⟩

protected theorem fail (expected : List Expectation) :
    Keeps m V (fail expected) (fail expected) :=
  ⟨fun hc => .error (hc.unexpected expected) hc⟩

protected theorem bind (hr : Keeps m V r r') (hf : ∀ a a', V a a' → Keeps m W (f a) (f' a')) :
    Keeps m W (r >>= f) (r' >>= f') := by
  refine ⟨fun {c c'} hc => ?_⟩
  have h := hr.outcome hc
  rw [bind_apply, bind_apply]
  generalize r c = rc at h ⊢
  generalize r' c' = rc' at h ⊢
  cases h with
  | ok value cursor => exact (hf _ _ value).outcome cursor
  | error error cursor => exact .error error cursor

protected theorem map {g g' : α → β} (hr : Keeps m V r r') (hg : ∀ a a', V a a' → W (g a) (g' a')) :
    Keeps m W (r >>= fun a => pure (g a)) (r' >>= fun a => pure (g' a)) :=
  hr.bind fun a a' h => Keeps.pure (hg a a' h)

protected theorem accept {read : Token → Option α} (expected : Expectation)
    (hread : ∀ {t t'}, t.Matches m.name t' → Option.Rel V (read t) (read t')) :
    Keeps m V (accept expected read) (accept expected read) := by
  refine ⟨fun {c c'} hc => ?_⟩
  have hahead : Option.Rel V (c.ahead.head?.bind fun l => read l.node)
      (c'.ahead.head?.bind fun l => read l.node) := by
    generalize c.ahead = u, c'.ahead = u', hc.ahead = hahead
    cases hahead with
    | nil => exact .none
    | cons hl _ => exact hread (m.token_of hl)
  unfold accept
  generalize (c.ahead.head?.bind fun l => read l.node) = a at hahead ⊢
  generalize (c'.ahead.head?.bind fun l => read l.node) = a' at hahead ⊢
  cases hahead with
  | none => exact (Keeps.fail [expected]).outcome hc
  | some h => exact .ok h hc.take

protected theorem skipComments : Keeps m Eq skipComments skipComments :=
  ⟨fun hc => .ok rfl hc.skipComments⟩

protected theorem here : Keeps m m.start here here := ⟨fun hc => .ok hc.here hc⟩

protected theorem lastEnd : Keeps m m.stop lastEnd lastEnd :=
  ⟨fun hc => .ok hc.lastEnd hc⟩

protected theorem lookahead {p : List Lexeme → Bool} (expected : List Expectation)
    (hp : ∀ {u u'}, List.Forall₂ m.lexeme u u' → p u' = p u) :
    Keeps m Eq (lookahead expected p) (lookahead expected p) := by
  refine ⟨fun {c c'} hc => ?_⟩
  unfold lookahead
  rw [hp hc.ahead]
  split
  · exact .ok rfl hc
  · exact (Keeps.fail expected).outcome hc

/-- Both rules refuse or neither does, and then the others are tried where the first were. -/
protected theorem orElse (hr : Keeps m V r r') (hs : Keeps m V s s') :
    Keeps m V (r <|> s) (r' <|> s') := by
  refine ⟨fun {c c'} hc => ?_⟩
  change (Rule.orElse r s c).Matches m V (Rule.orElse r' s' c')
  have h := hr.outcome hc
  unfold Rule.orElse
  generalize r c = rc at h ⊢
  generalize r' c' = rc' at h ⊢
  cases h with
  | ok value cursor => exact .ok value cursor
  | @error e e' d d' error cursor =>
    simp only [cursor.size, hc.size]
    split
    · have h := hs.outcome cursor
      generalize s d = sd at h ⊢
      generalize s' d' = sd' at h ⊢
      cases h with
      | ok value cursor => exact .ok value cursor
      | error error' cursor' =>
        simp only [cursor'.size]
        split
        · refine .error ⟨error'.position, ?_, error'.found⟩ cursor'
          rw [error.expected, error'.expected]
        · exact .error error' cursor'
    · exact .error error cursor

protected theorem optional (hr : Keeps m V r r') :
    Keeps m (Option.Rel V) (optional r) (optional r') := by
  refine ⟨fun {c c'} hc => ?_⟩
  have h := hr.outcome hc
  unfold optional
  generalize r c = rc at h ⊢
  generalize r' c' = rc' at h ⊢
  cases h with
  | ok value cursor => exact .ok (.some value) cursor
  | error error cursor =>
    simp only [cursor.size, hc.size]
    split
    · exact .ok .none cursor
    · exact .error error cursor

protected theorem many (hr : Keeps m V r r') :
    Keeps m (List.Forall₂ V) (many r) (many r') := by
  refine ⟨fun {c c'} hc => ?_⟩
  unfold many
  -- both repetitions go on as long, since as many tokens are left in both texts
  induction hn : c.size using Nat.strongRecOn generalizing c c' with
  | ind n ih =>
    subst hn
    have h := hr.outcome hc
    rw [repeatFrom.eq_1 r c, repeatFrom.eq_1 r' c']
    generalize r c = rc at h ⊢
    generalize r' c' = rc' at h ⊢
    cases h with
    | @ok a a' d d' value cursor =>
      simp only [cursor.size, hc.size]
      split
      · rename_i hsize
        have h := ih d.size hsize cursor rfl
        generalize repeatFrom r d = tail at h ⊢
        generalize repeatFrom r' d' = tail' at h ⊢
        cases h with
        | ok values cursor => exact .ok (.cons value values) cursor
        | error error cursor => exact .error error cursor
      · exact .ok (.cons value .nil) cursor
    | error error cursor =>
      simp only [cursor.size, hc.size]
      split
      · exact .ok .nil cursor
      · exact .error error cursor

protected theorem atLeastOne (hr : Keeps m V r r') :
    Keeps m (List.Forall₂ V) (atLeastOne r) (atLeastOne r') :=
  hr.bind fun _ _ h => hr.many.map fun _ _ h' => .cons h h'

protected theorem separated {separator : Rule Unit} (hr : Keeps m V r r')
    (hs : Keeps m Eq separator separator) :
    Keeps m (List.Forall₂ V) (separated r separator) (separated r' separator) := by
  refine hr.optional.bind fun item item' h => ?_
  cases h with
  | none => exact Keeps.pure .nil
  | some h => exact (hs.bind fun _ _ _ => hr).many.map fun _ _ h' => .cons h h'

/-- A rule reads by itself only where fewer tokens are ahead, so this goes by their number. -/
protected theorem recursive {f : Rule α → Rule α}
    (hf : ∀ {r}, Keeps m V r r → Keeps m V (f r) (f r)) :
    Keeps m V (recursive f) (recursive f) := by
  refine ⟨fun {c c'} hc => ?_⟩
  unfold recursive
  induction hn : c.size using Nat.strongRecOn generalizing c c' with
  | ind n ih =>
    subst hn
    rw [recursiveFrom.eq_1 f c, recursiveFrom.eq_1 f c', hc.size]
    refine (hf ⟨fun {d d'} hd => ?_⟩).outcome hc
    simp only [hd.size]
    split
    · rename_i hsize
      exact ih d.size hsize hd rfl
    · exact (Keeps.fail []).outcome hd

protected theorem keyword (k : Keyword) : Keeps m Eq (keyword k) (keyword k) := by
  refine (Keeps.accept (V := Eq) _ fun ht => ?_).bind fun _ _ _ => Keeps.skipComments
  rw [ht.isKeyword]
  split
  · exact .some rfl
  · exact .none

protected theorem mark (x : Mark) : Keeps m Eq (mark x) (mark x) := by
  refine (Keeps.accept (V := Eq) _ fun ht => ?_).bind fun _ _ _ => Keeps.skipComments
  simp only [ht.eq_mark_iff]
  split
  · exact .some rfl
  · exact .none

protected theorem name : Keeps m m.name name name := Keeps.accept _ fun ht => ht.name?

protected theorem typeName : Keeps m m.name typeName typeName :=
  Keeps.accept _ fun ht => ht.typeName?

protected theorem unsigned : Keeps m Eq unsigned unsigned := by
  refine Keeps.accept _ fun ht => ?_
  cases ht with
  | integer value =>
    split
    · split
      · exact .some rfl
      · exact .none
    · exact .none
  | _ => exact .none

protected theorem bracketed (hr : Keeps m V r r') : Keeps m V (bracketed r) (bracketed r') :=
  (Keeps.mark _).bind fun _ _ _ => hr.bind fun _ _ h => (Keeps.mark _).bind fun _ _ _ =>
    Keeps.pure h

end Rule.Keeps

theorem isEmpty_matches {u u' : List Lexeme} (h : List.Forall₂ m.lexeme u u') :
    u'.isEmpty = u.isEmpty := by
  cases h <;> rfl

/-- Matching results of two readings: two values or two errors. -/
def ResultsMatch (m : Matching) (V : α → α → Prop) (result result' : Except ParseError α) : Prop :=
  (∃ a a', result = .ok a ∧ result' = .ok a' ∧ V a a') ∨
    ∃ e e', result = .error e ∧ result' = .error e' ∧ e.Matches m e'

theorem Outcome.Matches.finish {rc rc' : Outcome α} (h : rc.Matches m V rc')
    (expected : List Expectation) : ResultsMatch m V (rc.finish expected) (rc'.finish expected) := by
  cases h with
  | @ok a a' c c' value cursor =>
    simp only [Outcome.finish, isEmpty_matches cursor.ahead]
    split
    · exact Or.inl ⟨a, a', rfl, rfl, value⟩
    · exact Or.inr ⟨_, _, rfl, rfl, cursor.unexpected expected⟩
  | error error _ => exact Or.inr ⟨_, _, rfl, rfl, error⟩

theorem Rule.Keeps.readAll {r r' : Rule α} (hr : Keeps m V r r') {text text' : Lexed}
    (h : (Cursor.start text).Matches m (.start text')) :
    ResultsMatch m V (readAll r text) (readAll r' text') := by
  rw [readAll_eq, readAll_eq]
  exact ((Keeps.skipComments.bind fun _ _ _ => hr.bind fun _ _ h =>
    Keeps.skipComments.map fun _ _ _ => h).outcome h).finish _

end KarelKit
