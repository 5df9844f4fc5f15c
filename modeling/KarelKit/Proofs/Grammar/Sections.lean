import KarelKit.Proofs.Grammar.Joining
import KarelKit.Proofs.Rule.Rounds

namespace KarelKit

open Rule

variable {α β : Type} {c : Cursor}

/-- The rule refuses where the keyword does not stand ahead, goes on to its end where it does, and
leaves no comment ahead. -/
structure Rule.OpensWith (r : Rule α) (k : Keyword) : Prop where
  refuses {c : Cursor} (h : (c.ahead.head?.map (·.node)).any (·.isKeyword k) = false) :
    r c = .error (c.unexpected [.keyword k]) c
  moves {c c' : Cursor} {e : ParseError}
    (h : (c.ahead.head?.map (·.node)).any (·.isKeyword k) = true) (he : r c = .error e c') :
    c'.size ≠ c.size
  endsClear : r.EndsClear

namespace Grammar

theorem items_openWith {r : Rule α} (k : Keyword) (hr : ∀ n, (trailed r).FailsCleanly n)
    (hitems : ∀ n, (many (trailed r)).FailsCleanly n) (hadvance : ∀ n, (trailed r).Advances n)
    (f : List α → β) :
    (keyword k >>= fun _ => many (trailed r) >>= fun items => pure (f items)).OpensWith k where
  refuses h := by rw [bind_apply, keyword_refuses rfl h]
  moves {c c' e} h he := by
    have htakes := keyword_takes rfl h
    have hsize := ((Parses.keyword k).advances rfl).ok (Nat.lt_succ_self _) htakes
    rw [bind_apply, htakes] at he
    simp only [bind_apply] at he
    cases hmany : many (trailed r) c.take.skipComments with
    | ok items c'' =>
      rw [hmany] at he
      contradiction
    | error e' c'' =>
      rw [hmany] at he
      cases he
      obtain ⟨u, past, -, -⟩ := (hitems _).error (Nat.lt_succ_self _) hmany
      have hle := Parses.size_le past
      omega
  endsClear := by
    refine ⟨fun {c c' b} h => ?_⟩
    obtain ⟨_, c₁, hk, h⟩ := exists_of_bind h
    obtain ⟨items, c₂, hmany, h⟩ := exists_of_bind h
    cases h
    exact many_trailed_clear (hadvance _) (hr _) (Nat.lt_succ_self _)
      ((keyword_endsClear k).ok hk) hmany

theorem typeSection_opensWith : typeSection.OpensWith .TYPE := by
  have hitem := fun n => (typeDeclaration_parses.located (n := n) rfl (by decide)).trailed rfl
  have hitems := fun n => (hitem n).many rfl (by decide) (by decide)
  exact items_openWith .TYPE (fun n => (hitem n).failsCleanly (by decide))
    (fun n => (hitems n).failsCleanly (by decide)) (fun n => (hitem n).advances rfl)
    fun types => Declarations.mk types []

theorem constantSection_opensWith : constantSection.OpensWith .CONST := by
  have hitem := fun n => (constant_parses.located (n := n) rfl (by decide)).trailed rfl
  have hitems := fun n => (hitem n).many rfl (by decide) (by decide)
  exact items_openWith .CONST (fun n => (hitem n).failsCleanly (by decide))
    (fun n => (hitems n).failsCleanly (by decide)) (fun n => (hitem n).advances rfl)
    (Declarations.mk [])

theorem declarations_apply (c : Cursor) :
    declarations c =
      (attempt (typeSection <|> constantSection) >>= fun
        | .ok s => declarations >>= fun d => pure (s ++ d)
        | .error _ => lookahead [.keyword .TYPE, .keyword .CONST, .endOfInput] List.isEmpty >>=
          fun _ => pure ∅) c := by
  have hadvance := (typeSection_parses.orElse constantSection_parses rfl rfl
    (by decide)).advances (n := c.size + 1) rfl
  unfold declarations
  rw [bind_apply, many_apply hadvance (Nat.lt_succ_self _), bind_apply, bind_apply]
  cases attempt (typeSection <|> constantSection) c with
  | error e c' => rfl
  | ok x c' =>
    cases x with
    | error e => rfl
    | ok s =>
      simp only [bind_apply]
      cases many (typeSection <|> constantSection) c' with
      | error e c'' => rfl
      | ok sections c'' =>
        simp only [pure_apply, Declarations.join_cons]
        cases lookahead [.keyword .TYPE, .keyword .CONST, .endOfInput] List.isEmpty c'' <;> rfl

/-- One more section, by the token it begins with, or all of them at the end of the text. -/
def nextSection (d : Declarations) (next : Option Token) : Rule (Declarations ⊕ Declarations) :=
  if next.any (·.isKeyword .TYPE) then do return .inl (d ++ (← typeSection))
  else if next.any (·.isKeyword .CONST) then do return .inl (d ++ (← constantSection))
  else if next = none then return .inr d
  else fail [.keyword .TYPE, .keyword .CONST, .endOfInput]

def sectionRound (d : Declarations) : Rule (Declarations ⊕ Declarations) := do
  skipComments
  nextSection d (← peek)

/-- The sections read so far and all that follow. -/
def sectionsFrom (d : Declarations) : Rule Declarations := do
  skipComments
  return d ++ (← declarations)

/-- One section is read in a round, and the others are read after it. -/
theorem section_unroll {s : Rule Declarations} {k : Keyword} (hs : s.OpensWith k)
    (hk : (c.ahead.head?.map (·.node)).any (·.isKeyword k) = true)
    (hfirst : (typeSection <|> constantSection) c = s c) (d : Declarations) :
    (declarations >>= fun e => pure (d ++ e)) c =
      ((s >>= fun e => pure (Sum.inl (d ++ e))) >>= Sum.elim sectionsFrom pure) c := by
  rw [bind_apply, declarations_apply, bind_apply, bind_assoc, bind_apply]
  cases hsection : s c with
  | ok e c' =>
    rw [attempt_ok (hfirst.trans hsection)]
    simp only [bind_apply, pure_apply, Sum.elim_inl, sectionsFrom, skipComments_apply,
      hs.endsClear.ok hsection]
    cases declarations c' with
    | ok e' c'' => simp only [Declarations.append_assoc]
    | error e' c'' => rfl
  | error e c' => rw [attempt_failed (hfirst.trans hsection) (hs.moves hk hsection)]

/-- At the end of the text no section is left, and before anything else reading fails. -/
theorem nextSection_unroll (d : Declarations) (c : Cursor) :
    (declarations >>= fun e => pure (d ++ e)) c =
      (nextSection d (c.ahead.head?.map (·.node)) >>= Sum.elim sectionsFrom pure) c := by
  unfold nextSection
  -- the next token decides which section is read, or that none is left
  cases htype : (c.ahead.head?.map (·.node)).any (·.isKeyword .TYPE) with
  | true =>
    rw [if_pos rfl]
    exact section_unroll typeSection_opensWith htype
      (orElse_of_moved (typeSection_opensWith.moves htype)) d
  | false =>
    cases hconst : (c.ahead.head?.map (·.node)).any (·.isKeyword .CONST) with
    | true =>
      rw [if_neg Bool.false_ne_true, if_pos rfl]
      exact section_unroll constantSection_opensWith hconst
        (orElse_of_refused (typeSection_opensWith.refuses htype)
          (constantSection_opensWith.moves hconst)) d
    | false =>
      have hrefused : (typeSection <|> constantSection) c =
          .error (c.unexpected [.keyword .TYPE, .keyword .CONST]) c :=
        orElse_refused (typeSection_opensWith.refuses htype)
          (constantSection_opensWith.refuses hconst)
      rw [if_neg Bool.false_ne_true, if_neg Bool.false_ne_true, bind_apply, declarations_apply,
        bind_apply, attempt_refused hrefused rfl]
      simp only [bind_apply, lookahead]
      cases hahead : c.ahead with
      | nil =>
        have hempty : d ++ ∅ = d := congrArg₂ Declarations.mk (List.append_nil _) (List.append_nil _)
        simp only [List.isEmpty_nil, if_true, pure_apply, List.head?_nil, Option.map_none, hempty]
        rfl
      | cons l tail => rfl

theorem section_progress {s : Rule Declarations} {d d' : Declarations} {c c' : Cursor}
    (hs : s.Advances (c.size + 1))
    (h : (s >>= fun e => pure (Sum.inl (d ++ e)) : Rule (Declarations ⊕ Declarations)) c =
      .ok (.inl d') c') : c'.size < c.size := by
  obtain ⟨e, c'', hsection, h⟩ := exists_of_bind h
  cases h
  exact hs.ok (Nat.lt_succ_self _) hsection

theorem sections_unroll {n : Nat} : Unrolls sectionRound sectionsFrom n where
  unroll {d c} _ := nextSection_unroll d c.skipComments
  progress {d d' c c'} _ h := by
    have hskip : c.skipComments.size ≤ c.size := Nat.sub_le ..
    refine Nat.lt_of_lt_of_le ?_ hskip
    obtain ⟨_, _, hcomments, h⟩ := exists_of_bind h
    cases hcomments
    obtain ⟨_, _, hpeek, h⟩ := exists_of_bind h
    cases hpeek
    unfold nextSection at h
    split at h
    · exact section_progress (typeSection_parses.advances rfl) h
    · split at h
      · exact section_progress (constantSection_parses.advances rfl) h
      · split at h <;> cases h

end Grammar
end KarelKit
