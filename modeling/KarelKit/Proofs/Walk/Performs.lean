import KarelKit.Proofs.Rule.Rounds
import KarelKit.Proofs.Walk.Outcome

namespace KarelKit.Walk

variable {α β σ : Type} {r : Walk α} {f : α → Walk β} {s s' : Rule α} {g : α → Rule β} {n : Nat}
  {text : Lexed} {w w' : Walker}

/-- A clean failure is told soundly: with nothing changed if nothing was taken, and otherwise with a
token taken that is no comment. -/
theorem sound_failed (hs : s.FailsCleanly n) (hw : w.index ≤ text.last)
    (hn : (text.cursor w).size < n) (hw' : w'.index ≤ text.last) {e : ParseError}
    (h : s (text.cursor w) = .error e (text.cursor w')) : (Event.failed w w' e).Sound text := by
  obtain ⟨u, past, hcomment, he⟩ := hs.error hn h
  constructor
  · rw [text.start_look, he]
    rfl
  · cases u with
    | nil => exact Or.inl (Lexed.eq_of_cursor_eq hw' hw past.eq_of_nil)
    | cons l u =>
      right
      have hsize := past.size
      have hhead := text.head?_ahead w
      rw [past.ahead] at hhead
      have hlt : (text.cursor w').size < (text.cursor w).size := by
        rw [hsize, List.length_cons]
        omega
      exact ⟨w.index, l, Nat.le_refl _, Lexed.index_lt_of_size_lt hlt, hhead.symm, hcomment l rfl⟩

/-- An index that has not moved on has changed nothing at all. -/
theorem eq_of_size_eq (hs : s.FailsCleanly n) (hw : w.index ≤ text.last)
    (hn : (text.cursor w).size < n) (hw' : w'.index ≤ text.last) {e : ParseError}
    (h : s (text.cursor w) = .error e (text.cursor w'))
    (hsize : (text.cursor w').size = (text.cursor w).size) : w' = w := by
  obtain ⟨u, past, -, -⟩ := hs.error hn h
  obtain rfl := past.size_eq_iff.mp hsize
  exact Lexed.eq_of_cursor_eq hw' hw past.eq_of_nil

protected theorem Gives.required (hr : r.Gives text w (s (text.cursor w)))
    (hs : s.FailsCleanly n) (hw : w.index ≤ text.last) (hn : (text.cursor w).size < n) :
    (required r).Gives text w (s (text.cursor w)) := by
  cases h : s (text.cursor w) with
  | ok a c =>
    rw [h] at hr
    refine hr.heard_ok.bind_ok fun hc _ _ => ?_
    rw [hc]
    exact Gives.pure a
  | error e c =>
    rw [h] at hr
    refine (hr.heard_error fun hc hlast => ?_).bind_ok fun hc _ _ => ?_
    · rw [hc] at h
      exact sound_failed hs hw hn (hlast hw) h
    · rw [hc]
      exact Gives.fail e

/-- Where the index tells that nothing was taken, nothing was. -/
protected theorem Gives.attempt (hr : r.Gives text w (s (text.cursor w)))
    (hs : s.FailsCleanly n) (hw : w.index ≤ text.last) (hn : (text.cursor w).size < n) :
    (attempt r).Gives text w (s.attempt (text.cursor w)) := by
  apply Gives.walker_bind
  cases h : s (text.cursor w) with
  | ok a c =>
    rw [Rule.attempt_ok h]
    rw [h] at hr
    refine hr.heard_ok.bind_ok fun hc _ _ => ?_
    rw [hc]
    exact Gives.pure _
  | error e c =>
    rw [h] at hr
    have hsound : ∀ {w'}, c = text.cursor w' → (w.index ≤ text.last → w'.index ≤ text.last) →
        (Event.failed w w' e).Sound text := by
      intro w' hc hlast
      rw [hc] at h
      exact sound_failed hs hw hn (hlast hw) h
    refine (hr.heard_error hsound).bind_ok fun {w'} hc hle hlast => Gives.walker_bind ?_
    subst hc
    -- the walk compares indices, the rule the numbers of tokens left
    by_cases hindex : w'.index = w.index
    · have hsize : (text.cursor w').size = (text.cursor w).size := by
        simp only [Lexed.cursor, hindex]
      obtain rfl := eq_of_size_eq hs hw hn (hlast hw) h hsize
      rw [if_pos rfl, Rule.attempt_refused h rfl]
      exact Gives.note_bind rfl rfl (Nat.le_refl _) rfl (Gives.pure _)
    · have hlt : w.index < w'.index := by omega
      have hlast' : w'.index ≤ text.lexemes.length := hlast hw
      have hsize : (text.cursor w').size ≠ (text.cursor w).size := by
        simp only [Lexed.cursor]
        omega
      rw [if_neg hindex, Rule.attempt_failed h hsize]
      exact Gives.fail e

namespace Performs

theorem mono {m : Nat} (h : r.Performs s n) (hmn : m ≤ n) : r.Performs s m :=
  ⟨fun hw hm => h.gives hw (Nat.lt_of_lt_of_le hm hmn)⟩

theorem congr (h : r.Performs s n) (hs : ∀ {c : Cursor}, c.size < n → s' c = s c) :
    r.Performs s' n := by
  refine ⟨fun hw hn => ?_⟩
  rw [hs hn]
  exact h.gives hw hn

protected theorem pure (a : α) : (pure a : Walk α).Performs (pure a) n :=
  ⟨fun _ _ => Gives.pure a⟩

protected theorem bind (hr : r.Performs s n) (hf : ∀ a, (f a).Performs (g a) n) :
    (r >>= f).Performs (s >>= g) n := by
  refine ⟨fun {text w} hw hn => (hr.gives hw hn).bind hw fun {a w'} _ hle hw' => ?_⟩
  exact (hf a).gives hw' (Nat.lt_of_le_of_lt (Lexed.size_le_of_index_le hle) hn)

/-- After a first part that takes tokens, the second one has fewer to take. -/
theorem bind_advancing (hr : r.Performs s (n + 1)) (hs : s.Advances (n + 1))
    (hf : ∀ a, (f a).Performs (g a) n) : (r >>= f).Performs (s >>= g) (n + 1) := by
  refine ⟨fun {text w} hw hn => (hr.gives hw hn).bind hw fun {a w'} hs' _ hw' => ?_⟩
  have hadvance := hs.ok hn hs'
  exact (hf a).gives hw' (by omega)

/-- After a first part that leaves no comment ahead, the second one may pass over comments. -/
theorem bind_clear (hr : r.Performs s n) (hs : s.EndsClear)
    (hf : ∀ a, (f a).Performs (Rule.skipComments >>= fun _ => g a) n) :
    (r >>= f).Performs (s >>= g) n := by
  refine ⟨fun {text w} hw hn => (hr.gives hw hn).bind hw fun {a w'} hs' hle hw' => ?_⟩
  have h := (hf a).gives hw' (Nat.lt_of_le_of_lt (Lexed.size_le_of_index_le hle) hn)
  rwa [Rule.bind_apply, Rule.skipComments_apply, hs.ok hs'] at h

protected theorem map (hr : r.Performs s n) (h : α → β) :
    (r >>= fun a => pure (h a)).Performs (s >>= fun a => pure (h a)) n :=
  hr.bind fun a => Performs.pure (h a)

theorem look_bind {f : Located (Option Token) → Walk β} {g : Option Token → Rule β}
    (hf : ∀ l, (f l).Performs (g l.node) n) :
    (look >>= f).Performs (Rule.peek >>= g) n := by
  refine ⟨fun {text w} hw hn => Gives.look_bind hw ?_⟩
  have h := (hf (text.look w.index)).gives hw hn
  rwa [text.node_look_eq] at h

protected theorem unexpected (expected : List Expectation) :
    (unexpected expected : Walk α).Performs (Rule.fail expected) n := by
  refine ⟨fun {text w} hw _ => Gives.look_bind hw ?_⟩
  rw [text.start_look, text.foundAt_look]
  exact Gives.fail _

protected theorem accept (expected : Expectation) (read : Token → Option α) :
    (accept expected read).Performs (Rule.accept expected read) n := by
  refine ⟨fun {text w} hw hn => Gives.look_bind hw ?_⟩
  have hnode := text.node_look_eq w
  cases hread : (text.look w.index).node.bind read with
  | none =>
    rw [hnode] at hread
    rw [Rule.accept_refuses hread]
    exact (Performs.unexpected [expected]).gives hw hn
  | some a =>
    have htake := hread
    rw [hnode] at htake
    obtain ⟨t, ht, -⟩ := Option.bind_eq_some_iff.mp hread
    rw [text.node_look] at ht
    obtain ⟨l, hl, rfl⟩ := Option.map_eq_some_iff.mp ht
    rw [Rule.accept_takes htake, Lexed.take_cursor hl]
    exact Gives.take_bind hl (Gives.pure a)

/-- Where no comment stands ahead the loop is at its end. It goes round once for each comment. -/
protected theorem passComments : passComments.Performs Rule.skipComments n := by
  refine ⟨fun {text w} hw hn => ?_⟩
  -- each round passes a comment, so fewer lexemes are left
  induction hsize : (text.cursor w).size using Nat.strong_induction_on generalizing w with
  | _ size ih =>
    rw [Rule.skipComments_apply]
    cases hcomment : (text.look w.index).node.any Token.isComment with
    | false =>
      rw [Lexed.skipComments_clear hcomment]
      apply Gives.loop_done
      apply Gives.look_bind hw
      rw [if_neg (Bool.eq_false_iff.mp hcomment)]
      exact Gives.pure _
    | true =>
      obtain ⟨t, ht, htcomment⟩ := (Option.any_eq_true ..).mp hcomment
      rw [text.node_look] at ht
      obtain ⟨l, hl, rfl⟩ := Option.map_eq_some_iff.mp ht
      have hlt : w.index < text.lexemes.length := Lexed.lt_last_of_lexeme hl
      have hpass : (text.cursor ⟨w.index + 1, w.lastEnd⟩).size < (text.cursor w).size := by
        simp only [Lexed.cursor]
        omega
      rw [Lexed.skipComments_comment hl htcomment]
      apply Gives.loop_again (y := ()) _ hpass
      · intro w' hc hlast
        rw [hc]
        rw [hc] at hpass
        exact ih _ (by omega) (hlast hw) (by omega) rfl
      · apply Gives.look_bind hw
        rw [if_pos hcomment]
        exact Gives.pass_bind hl htcomment (Gives.pure _)

protected theorem keyword (k : Keyword) : (keyword k).Performs (Rule.keyword k) n :=
  (Performs.accept _ _).bind fun _ => Performs.passComments

protected theorem mark (m : Mark) : (mark m).Performs (Rule.mark m) n :=
  (Performs.accept _ _).bind fun _ => Performs.passComments

protected theorem bracketed (hr : r.Performs s n) :
    (bracketed r).Performs (Rule.bracketed s) n :=
  (Performs.mark _).bind fun _ => hr.bind fun a => (Performs.mark _).map fun _ => a

protected theorem located (hr : r.Performs s n) : (located r).Performs (Rule.located s) n := by
  refine ⟨fun {text w} hw hn => Gives.look_bind hw ?_⟩
  rw [Rule.Parses.located_apply, text.start_look]
  refine (hr.gives hw hn).bind hw fun {a w'} _ _ _ => Gives.walker_bind ?_
  exact Gives.pure _

protected theorem required (hr : r.Performs s n) (hs : s.FailsCleanly n) :
    (required r).Performs s n :=
  ⟨fun hw hn => (hr.gives hw hn).required hs hw hn⟩

protected theorem attempt (hr : r.Performs s n) (hs : s.FailsCleanly n) :
    (attempt r).Performs s.attempt n :=
  ⟨fun hw hn => (hr.gives hw hn).attempt hs hw hn⟩

protected theorem optional (hr : r.Performs s n) (hs : s.FailsCleanly n) :
    (optional r).Performs s.optional n := by
  rw [Rule.optional_eq]
  refine (hr.attempt hs).bind fun x => ?_
  cases x with
  | ok a => exact Performs.pure (some a)
  | error e => exact Performs.pure none

theorem alternatives_recover {rules : List (Walk α)} {g : ParseError → Rule α}
    (hr : r.Performs s n) (hs : s.FailsCleanly n) {expected : List Expectation}
    (hrules : ∀ e, (alternatives (expected ++ e.expected) rules).Performs (g e) n) :
    (alternatives expected (r :: rules)).Performs (s.recover g) n := by
  refine (hr.attempt hs).bind fun x => ?_
  cases x with
  | ok a => exact Performs.pure a
  | error e => exact hrules e

theorem alternatives_last (hr : r.Performs s n) (hs : s.FailsCleanly n)
    (expected : List Expectation) :
    (alternatives expected [r]).Performs (s.naming expected) n := by
  have h : (alternatives expected [r]).Performs
      (s.recover fun e => Rule.fail (expected ++ e.expected)) n :=
    hr.alternatives_recover hs fun e => Performs.unexpected (expected ++ e.expected)
  exact h.congr fun hc => Rule.naming_apply hs expected hc

theorem alternatives_cons {rules : List (Walk α)} (hr : r.Performs s n) (hs : s.FailsCleanly n)
    (hrules : ∀ expected, (alternatives expected rules).Performs (s'.naming expected) n)
    (expected : List Expectation) :
    (alternatives expected (r :: rules)).Performs ((s <|> s').naming expected) n := by
  rw [Rule.naming_orElse]
  exact hr.alternatives_recover hs fun e => hrules (expected ++ e.expected)

theorem choice_of_alternatives {rules : List (Walk α)}
    (h : ∀ expected, (alternatives expected rules).Performs (s.naming expected) n) :
    (choice rules).Performs s n := by
  rw [← Rule.naming_nil s]
  exact h []

/-- A loop performs a rule that goes round as it does. -/
protected theorem loop {body : σ → Walk (σ ⊕ α)} {round : σ → Rule (σ ⊕ α)} {whole : σ → Rule α}
    (hbody : ∀ x, (body x).Performs (round x) n) (hwhole : Rule.Unrolls round whole n) (x : σ) :
    (loop body x).Performs (whole x) n := by
  refine ⟨fun {text w} hw hn => ?_⟩
  induction hsize : (text.cursor w).size using Nat.strong_induction_on generalizing x w with
  | _ size ih =>
    have hgives := (hbody x).gives hw hn
    rw [hwhole.unroll hn, Rule.bind_apply]
    cases hround : round x (text.cursor w) with
    | error e c =>
      rw [hround] at hgives
      exact hgives.loop_failed
    | ok y c =>
      rw [hround] at hgives
      cases y with
      | inr a => exact hgives.loop_done
      | inl y =>
        have hlt := hwhole.progress hn hround
        refine hgives.loop_again hlt fun {w'} hc hlast => ?_
        subst hc
        exact ih _ (by omega) y (hlast hw) (by omega) rfl

end Performs

end KarelKit.Walk
