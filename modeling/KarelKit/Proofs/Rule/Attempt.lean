import KarelKit.Proofs.Grammar.Lexical
import KarelKit.Proofs.Rule.Whole
import Mathlib.Data.List.DropRight

namespace KarelKit.Rule

variable {α β : Type} {r : Rule α} {f : α → Rule β} {L : Language α} {o : Outline} {c : Cursor}
  {n : Nat}

/-- The token ahead. -/
def peek : Rule (Option Token) := fun c => .ok (c.ahead.head?.map (·.node)) c

/-- Comments may stand after `r`. -/
def trailed (r : Rule α) : Rule α := do
  let a ← r
  skipComments
  return a

/-- Hands on the error of a rule that refuses. -/
def attempt (r : Rule α) : Rule (Except ParseError α) := fun c =>
  match r c with
  | .ok a c' => .ok (.ok a) c'
  | .error e c' => if c'.size = c.size then .ok (.error e) c' else .error e c'

/-- Goes on from the error of a rule that refuses. -/
def recover (r : Rule α) (f : ParseError → Rule α) : Rule α := do
  match ← attempt r with
  | .ok a => return a
  | .error e => f e

/-- Names what else was expected where `r` refuses. -/
def naming (expected : List Expectation) (r : Rule α) : Rule α := fun c =>
  match r c with
  | .ok a c' => .ok a c'
  | .error e c' =>
    if c'.size = c.size then .error { e with expected := expected ++ e.expected } c'
    else .error e c'

/-- With fewer than `n` tokens ahead, a failure tells where reading has come to, and the first token
taken until then, if there is one, is no comment. -/
structure FailsCleanly (r : Rule α) (n : Nat) : Prop where
  error {c c' : Cursor} {e : ParseError} (hc : c.size < n) (h : r c = .error e c') :
    ∃ u, c.Past u c' ∧ (∀ l ∈ u.head?, l.node.isComment = false) ∧ e = c'.unexpected e.expected

/-- With fewer than `n` tokens ahead, a value is read from at least one of them. -/
structure Advances (r : Rule α) (n : Nat) : Prop where
  ok {c c' : Cursor} {a : α} (hc : c.size < n) (h : r c = .ok a c') : c'.size < c.size

/-- No comment stands ahead where a value has been read. -/
structure EndsClear (r : Rule α) : Prop where
  ok {c c' : Cursor} {a : α} (h : r c = .ok a c') : c'.skipComments = c'

theorem Parses.failsCleanly (h : r.Parses L o n) (hcomment : .comment ∉ o.first) :
    r.FailsCleanly n := by
  refine ⟨fun {c c' e} hc he => ?_⟩
  have hfollows := h.follows hc
  rw [he] at hfollows
  cases hfollows with
  | @error u expected _ past halts viable rejects =>
    refine ⟨u, past, fun l hl => ?_, rfl⟩
    obtain ⟨v, rfl⟩ := List.head?_eq_some_iff.mp hl
    obtain ⟨tail, a, ha, -⟩ := viable
    exact h.outlined.isComment_of_begins hcomment ⟨v ++ tail, a, ha⟩

theorem Parses.advances (h : r.Parses L o n) (ho : o.empty = false) : r.Advances n := by
  refine ⟨fun {c c' a} hc ha => ?_⟩
  have hfollows := h.follows hc
  rw [ha] at hfollows
  cases hfollows with
  | ok past halts sentence =>
    have hlength := List.length_pos_iff.mpr (h.outlined.ne_nil ho sentence)
    have hsize := past.size
    omega

theorem exists_of_bind {b : β} {c'' : Cursor} (h : (r >>= f) c = .ok b c'') :
    ∃ a c', r c = .ok a c' ∧ f a c' = .ok b c'' := by
  rw [bind_apply] at h
  cases hr : r c with
  | ok a c' =>
    rw [hr] at h
    exact ⟨a, c', rfl, h⟩
  | error e c' =>
    rw [hr] at h
    contradiction

theorem bind_assoc {γ : Type} (r : Rule α) (f : α → Rule β) (g : β → Rule γ) :
    (r >>= f) >>= g = r >>= fun a => f a >>= g := by
  funext c
  simp only [bind_apply]
  cases r c <;> rfl

theorem skipComments_skipComments (c : Cursor) : c.skipComments.skipComments = c.skipComments := by
  apply Cursor.ext
  · rw [Cursor.ahead_skipComments, c.ahead_skipComments]
    exact List.dropWhile_idempotent _ _
  · rfl
  · rfl

theorem trailed_endsClear (r : Rule α) : (trailed r).EndsClear := by
  refine ⟨fun {c c' a} h => ?_⟩
  obtain ⟨b, c'', -, hpure⟩ := exists_of_bind h
  obtain ⟨_, _, hskip, hpure⟩ := exists_of_bind hpure
  cases hskip
  cases hpure
  exact skipComments_skipComments c''

theorem accept_refuses {expected : Expectation} {read : Token → Option α}
    (h : (c.ahead.head?.map (·.node)).bind read = none) :
    accept expected read c = .error (c.unexpected [expected]) c := by
  rw [Option.bind_map] at h
  unfold accept
  rw [show (c.ahead.head?.bind fun l => read l.node) = none from h]
  rfl

theorem accept_takes {expected : Expectation} {read : Token → Option α} {a : α}
    (h : (c.ahead.head?.map (·.node)).bind read = some a) :
    accept expected read c = .ok a c.take := by
  rw [Option.bind_map] at h
  unfold accept
  rw [show (c.ahead.head?.bind fun l => read l.node) = some a from h]

theorem keyword_refuses {k : Keyword} {t : Option Token} (ht : c.ahead.head?.map (·.node) = t)
    (h : t.any (·.isKeyword k) = false) :
    keyword k c = .error (c.unexpected [.keyword k]) c := by
  unfold keyword
  rw [bind_apply, accept_refuses]
  rw [ht]
  cases t with
  | none => rfl
  | some t => exact if_neg (by simpa using h)

theorem keyword_takes {k : Keyword} {t : Option Token} (ht : c.ahead.head?.map (·.node) = t)
    (h : t.any (·.isKeyword k) = true) : keyword k c = .ok () c.take.skipComments := by
  unfold keyword
  rw [bind_apply, accept_takes (a := ())]
  · rfl
  · rw [ht]
    cases t with
    | none => contradiction
    | some t => exact if_pos h

theorem mark_refuses {m : Mark} (h : c.ahead.head?.map (·.node) ≠ some (.mark m)) :
    mark m c = .error (c.unexpected [.mark m]) c := by
  unfold mark
  rw [bind_apply, accept_refuses]
  cases ht : c.ahead.head?.map (·.node) with
  | none => rfl
  | some t =>
    rw [ht] at h
    exact if_neg fun hm => h (congrArg some hm)

theorem mark_takes {m : Mark} (h : c.ahead.head?.map (·.node) = some (.mark m)) :
    mark m c = .ok () c.take.skipComments := by
  unfold mark
  rw [bind_apply, accept_takes (a := ())]
  · rfl
  · rw [h]
    exact if_pos rfl

theorem keyword_endsClear (k : Keyword) : (keyword k).EndsClear := by
  refine ⟨fun {c c' a} h => ?_⟩
  obtain ⟨_, c'', -, hskip⟩ := exists_of_bind h
  cases hskip
  exact skipComments_skipComments c''

theorem attempt_ok {c' : Cursor} {a : α} (h : r c = .ok a c') : attempt r c = .ok (.ok a) c' := by
  unfold attempt
  rw [h]

theorem attempt_refused {c' : Cursor} {e : ParseError} (h : r c = .error e c')
    (hsize : c'.size = c.size) : attempt r c = .ok (.error e) c' := by
  unfold attempt
  rw [h]
  exact if_pos hsize

theorem attempt_failed {c' : Cursor} {e : ParseError} (h : r c = .error e c')
    (hsize : c'.size ≠ c.size) : attempt r c = .error e c' := by
  unfold attempt
  rw [h]
  exact if_neg hsize

theorem attempt_cases {x : Except ParseError α} {c' : Cursor} (h : attempt r c = .ok x c') :
    (∃ a, x = .ok a ∧ r c = .ok a c') ∨
      ∃ e, x = .error e ∧ r c = .error e c' ∧ c'.size = c.size := by
  unfold attempt at h
  cases hr : r c with
  | ok a c'' =>
    rw [hr] at h
    cases h
    exact Or.inl ⟨a, rfl, rfl⟩
  | error e c'' =>
    rw [hr] at h
    by_cases hsize : c''.size = c.size
    · simp only [if_pos hsize] at h
      cases h
      exact Or.inr ⟨e, rfl, rfl, hsize⟩
    · simp only [if_neg hsize] at h
      contradiction

theorem orElse_of_moved {s : Rule α} (h : ∀ {e c'}, r c = .error e c' → c'.size ≠ c.size) :
    (r <|> s) c = r c := by
  change orElse r s c = r c
  unfold orElse
  cases hr : r c with
  | ok a c' => rfl
  | error e c' => exact if_neg (h hr)

theorem orElse_of_refused {s : Rule α} {e : ParseError} (hr : r c = .error e c)
    (h : ∀ {e c'}, s c = .error e c' → c'.size ≠ c.size) : (r <|> s) c = s c := by
  change orElse r s c = s c
  unfold orElse
  rw [hr]
  simp only [if_true]
  cases hs : s c with
  | ok a c' => rfl
  | error e' c' => exact if_neg (h hs)

theorem orElse_refused {s : Rule α} {expected expected' : List Expectation}
    (hr : r c = .error (c.unexpected expected) c) (hs : s c = .error (c.unexpected expected') c) :
    (r <|> s) c = .error (c.unexpected (expected ++ expected')) c := by
  change orElse r s c = _
  unfold orElse
  rw [hr]
  simp only [if_true, hs]
  rfl

theorem optional_eq (r : Rule α) :
    optional r = (attempt r >>= fun x => pure x.toOption) := by
  funext c
  unfold optional
  rw [bind_apply]
  unfold attempt
  cases r c with
  | ok a c' => rfl
  | error e c' =>
    simp only
    split <;> rfl

theorem many_apply (hr : r.Advances n) (hc : c.size < n) :
    many r c = (attempt r >>= fun
      | .ok a => many r >>= fun items => pure (a :: items)
      | .error _ => pure []) c := by
  rw [bind_apply]
  change repeatFrom r c = _
  rw [repeatFrom.eq_1]
  unfold attempt
  cases h : r c with
  | ok a c' =>
    simp only [if_pos (hr.ok hc h)]
    generalize hrest : repeatFrom r c' = rest
    rw [bind_apply, show many r c' = rest from hrest]
    cases rest <;> rfl
  | error e c' =>
    simp only
    split <;> rfl

theorem naming_nil (r : Rule α) : naming [] r = r := by
  funext c
  unfold naming
  cases r c with
  | ok a c' => rfl
  | error e c' => exact ite_self _

/-- Whatever is tried next is to name what this rule has expected too. -/
theorem naming_orElse (expected : List Expectation) (r s : Rule α) :
    naming expected (r <|> s) = r.recover fun e => naming (expected ++ e.expected) s := by
  funext c
  unfold recover
  rw [bind_apply]
  change naming expected (orElse r s) c = _
  unfold naming orElse attempt
  cases r c with
  | ok a c' => rfl
  | error e c' =>
    by_cases hsize : c'.size = c.size
    · simp only [if_pos hsize]
      cases s c' with
      | ok a c'' => rfl
      | error e' c'' =>
        rw [← hsize]
        by_cases hsize' : c''.size = c'.size
        · simp only [if_pos hsize', List.append_assoc]
        · simp only [if_neg hsize']
    · simp only [if_neg hsize]

/-- Where nothing else is tried, all that was expected is named at the same place. -/
theorem naming_apply (hr : r.FailsCleanly n) (expected : List Expectation) (hc : c.size < n) :
    naming expected r c = (r.recover fun e => fail (expected ++ e.expected)) c := by
  unfold recover
  rw [bind_apply]
  unfold naming attempt
  cases h : r c with
  | ok a c' => rfl
  | error e c' =>
    obtain ⟨u, past, -, he⟩ := hr.error hc h
    by_cases hsize : c'.size = c.size
    · simp only [if_pos hsize]
      rw [he]
      rfl
    · simp only [if_neg hsize]

end KarelKit.Rule
