import KarelKit.Proofs.Language.Repetition
import KarelKit.Rule.Basic

namespace KarelKit

open KarelKit.Language (Outlined)

variable {α β : Type}

/-- At `c'` exactly `u` has been taken since `c`. -/
structure Cursor.Past (c : Cursor) (u : List Lexeme) (c' : Cursor) : Prop where
  ahead : c.ahead = u ++ c'.ahead
  lastEnd : c'.lastEnd = Language.lastEnd u c.lastEnd
  stop : c'.stop = c.stop

namespace Cursor.Past

theorem refl (c : Cursor) : c.Past [] c := ⟨rfl, rfl, rfl⟩

theorem trans {c c' c'' : Cursor} {u v : List Lexeme} (h : c.Past u c') (h' : c'.Past v c'') :
    c.Past (u ++ v) c'' where
  ahead := by rw [h.ahead, h'.ahead, List.append_assoc]
  lastEnd := by rw [h'.lastEnd, h.lastEnd, Language.lastEnd_append]
  stop := h'.stop.trans h.stop

theorem eq_of_nil {c c' : Cursor} (h : c.Past [] c') : c' = c :=
  Cursor.ext h.ahead.symm h.lastEnd h.stop

theorem size {c c' : Cursor} {u : List Lexeme} (h : c.Past u c') :
    c.size = u.length + c'.size := by
  rw [c.size_eq, h.ahead, List.length_append, c'.size_eq]

theorem size_eq_iff {c c' : Cursor} {u : List Lexeme} (h : c.Past u c') :
    c'.size = c.size ↔ u = [] := by
  rw [h.size, ← List.length_eq_zero_iff]
  omega

theorem take {c : Cursor} {l : Lexeme} {tail : List Lexeme} (h : c.ahead = l :: tail)
    (hl : l.node.isComment = false) : c.Past [l] c.take where
  ahead := by simp [Cursor.take, h]
  lastEnd := by simp [Cursor.take, h, Language.lastEnd, hl]
  stop := rfl

theorem skipComments (c : Cursor) :
    c.Past (c.ahead.takeWhile (·.node.isComment)) c.skipComments where
  ahead := by rw [c.ahead_skipComments, List.takeWhile_append_dropWhile]
  lastEnd := by
    rw [Language.lastEnd_comments (Language.takeWhile_comments _)]
    rfl
  stop := rfl

end Cursor.Past

/-- No sentence that begins with `u` goes on with the lexeme ahead. -/
def Language.Halts (L : Language α) (u : List Lexeme) (c : Cursor) : Prop :=
  ∀ l ∈ c.ahead.head?, ¬L.Begins (u ++ [l])

/-- What begins a sentence and stands ahead has been taken where reading has come to a halt. -/
theorem Cursor.Past.begins_of_halts {L : Language α} {c c' : Cursor} {u b r : List Lexeme}
    (past : c.Past u c') (halts : L.Halts u c') (hb : L.Begins b) (hahead : b ++ r = c.ahead) :
    ∃ w, u = b ++ w := by
  rw [past.ahead] at hahead
  rcases List.append_eq_append_iff.mp hahead with ⟨w, rfl, -⟩ | ⟨w, rfl, hw⟩
  · exact ⟨w, rfl⟩
  · cases w with
    | nil => exact ⟨[], by simp⟩
    | cons l w =>
      refine absurd ?_ (halts l (by rw [hw]; rfl))
      apply Language.Begins.of_append (v := w)
      rwa [List.append_assoc, List.singleton_append]

/-- The outcome at `c` of reading as far as sentences of `L` go. -/
inductive Outcome.Follows (L : Language α) (c : Cursor) : Outcome α → Prop
  | ok {u : List Lexeme} {a : α} {c' : Cursor} (past : c.Past u c') (halts : L.Halts u c')
    (sentence : L u a) : Follows L c (.ok a c')
  | error {u : List Lexeme} {expected : List Expectation} {c' : Cursor} (past : c.Past u c')
    (halts : L.Halts u c') (viable : L.Viable u) (rejects : ∀ a, ¬L u a) :
    Follows L c (.error (c'.unexpected expected) c')

/-- With fewer than `n` tokens ahead, the rule reads as far as sentences of `L` go. -/
structure Rule.Parses (r : Rule α) (L : Language α) (o : Outline) (n : Nat) : Prop where
  outlined : L.Outlined o
  follows {c : Cursor} (h : c.size < n) : (r c).Follows L c

namespace Rule.Parses

variable {r s : Rule α} {f : α → Rule β} {L L' : Language α} {M : α → Language β}
  {o p : Outline} {c : Cursor} {n : Nat}

theorem mono (h : r.Parses L o n) (hop : o.Within p) : r.Parses L p n :=
  ⟨h.outlined.mono hop, h.follows⟩

protected theorem pure (a : α) : (pure a : Rule α).Parses (pure a) ⟨true, [], []⟩ n := by
  refine ⟨Outlined.pure a, fun {c} _ => ?_⟩
  apply Outcome.Follows.ok (.refl c) _ ⟨rfl, rfl⟩
  intro l _ hbegins
  obtain ⟨v, b, hv, -⟩ := hbegins
  contradiction

protected theorem accept {expected : Expectation} {read : Token → Option α} {first : List Terminal}
    (hfirst : ∀ t a, read t = some a → t.terminal ∈ first)
    (hread : ∃ t a, t.Legible ∧ read t = some a) (hcomment : .comment ∉ first) :
    (accept expected read).Parses (Language.one read) ⟨false, first, []⟩ n := by
  have hone := Outlined.one hfirst hread
  refine ⟨hone, fun {c} _ => ?_⟩
  unfold Rule.accept
  cases hahead : c.ahead.head?.bind fun l => read l.node with
  | none =>
    -- nothing is taken, and the lexeme ahead is the first of no sentence
    apply Outcome.Follows.error (.refl c) _ hone.viable
    · intro a ha
      obtain ⟨l, hl, -⟩ := ha
      contradiction
    · intro l hl hbegins
      obtain ⟨v, a, m, hm, ha⟩ := hbegins
      cases hm
      rw [Option.mem_def.mp hl, Option.bind_some, ha] at hahead
      contradiction
  | some a =>
    obtain ⟨l, hl, ha⟩ := Option.bind_eq_some_iff.mp hahead
    obtain ⟨tail, htail⟩ := List.head?_eq_some_iff.mp hl
    have hl' : l.node.isComment = false := by
      rw [Bool.eq_false_iff]
      intro hl'
      apply hcomment
      rw [← Token.isComment_iff.mp hl']
      exact hfirst _ a ha
    -- a sentence of one lexeme has no longer one
    apply Outcome.Follows.ok (.take htail hl') _ ⟨l, rfl, ha⟩
    intro m _ hbegins
    obtain ⟨v, b, m', hm', -⟩ := hbegins
    cases hm'

protected theorem skipComments :
    skipComments.Parses Language.comments ⟨true, [.comment], [.comment]⟩ n := by
  refine ⟨Outlined.comments, fun {c} _ => ?_⟩
  apply Outcome.Follows.ok (.skipComments c)
  · intro l hl hbegins
    obtain ⟨v, a, h⟩ := hbegins
    rw [c.ahead_skipComments] at hl
    have hno := List.head?_dropWhile_not (·.node.isComment) c.ahead
    rw [Option.mem_def.mp hl] at hno
    have hyes := h l (by simp)
    simp [hyes] at hno
  · exact Language.takeWhile_comments _

theorem bind_follows (hr : r.Parses L o n) (hM : ∀ a, (M a).Outlined p) (hop : o.Apart p)
    (hf : ∀ {u a c'}, L u a → c.Past u c' → (f a c').Follows (M a) c') (hc : c.size < n) :
    ((r >>= f) c).Follows (L >>= M) c := by
  have hL := hr.outlined
  have hLM := hL.apart hM hop
  have hrc := hr.follows hc
  rw [bind_apply]
  generalize r c = rc at hrc
  cases hrc with
  | @ok u a c' past halts sentence =>
    have hfc := hf sentence past
    simp only
    -- no sentence of the whole goes on where the second part has come to a halt
    have hhalts : ∀ {v c''}, (M a).Begins v → c'.Past v c'' → (M a).Halts v c'' →
        (L >>= M).Halts (u ++ v) c'' := by
      intro v c'' hv past' halts' l hl hbegins
      rcases Outlined.bind_next hL hLM sentence hv hbegins with hl' | ⟨rfl, hl'⟩
      · exact halts' l hl hl'
      · rw [past'.eq_of_nil] at hl
        exact halts l hl hl'
    generalize f a c' = fc at hfc
    cases hfc with
    | ok past' halts' sentence' =>
      apply Outcome.Follows.ok (past.trans past')
      · exact hhalts (Language.viable_of_sentence sentence').begins past' halts'
      · exact Language.bind_intro sentence sentence'
    | error past' halts' viable rejects =>
      apply Outcome.Follows.error (past.trans past')
      · exact hhalts viable.begins past' halts'
      · obtain ⟨w, b, hw, hwl⟩ := viable
        refine ⟨w, b, ?_, hwl⟩
        rw [List.append_assoc]
        exact Language.bind_intro sentence hw
      · intro b
        exact Outlined.bind_rejects hL hLM sentence viable.begins (rejects b)
  | @error u expected c' past halts viable rejects =>
    -- the second part is never reached: the first neither ends nor goes on here
    apply Outcome.Follows.error past
    · intro l hl hbegins
      obtain ⟨v, b, hv⟩ := hbegins
      rw [List.append_assoc] at hv
      refine Outlined.bind_stuck hLM viable.begins rejects ?_ hv
      intro m hm
      cases hm
      exact halts l hl
    · obtain ⟨v, a, hv, hvl⟩ := viable
      obtain ⟨w, b, hw, hwl⟩ := (hM a).viable
      refine ⟨v ++ w, b, ?_, ?_⟩
      · rw [← List.append_assoc]
        exact Language.bind_intro hv hw
      · intro l hl
        exact (List.mem_append.mp hl).elim (hvl l) (hwl l)
    · intro b hb
      rw [← List.append_nil u] at hb
      refine Outlined.bind_stuck hLM viable.begins rejects ?_ hb
      intro l hl
      contradiction

theorem size_le {c' : Cursor} {u : List Lexeme} (h : c.Past u c') : c'.size ≤ c.size := by
  rw [h.size]
  omega

protected theorem bind (hr : r.Parses L o n) (hf : ∀ a, (f a).Parses (M a) p n)
    (hop : o.Apart p) : (r >>= f).Parses (L >>= M) (o.andThen p) n := by
  refine ⟨hr.outlined.bind (fun a => (hf a).outlined) hop, fun {c} hc => ?_⟩
  apply hr.bind_follows (fun a => (hf a).outlined) hop _ hc
  intro u a c' _ past
  exact (hf a).follows (Nat.lt_of_le_of_lt (size_le past) hc)

/-- After a part that is never empty, the next one has fewer tokens to read. -/
theorem bind_solid (hr : r.Parses L o (n + 1)) (ho : o.empty = false)
    (hf : ∀ a, (f a).Parses (M a) p n) (hop : o.Apart p) :
    (r >>= f).Parses (L >>= M) (o.andThen p) (n + 1) := by
  refine ⟨hr.outlined.bind (fun a => (hf a).outlined) hop, fun {c} hc => ?_⟩
  apply hr.bind_follows (fun a => (hf a).outlined) hop _ hc
  intro u a c' hu past
  have hlength := List.length_pos_iff.mpr (hr.outlined.ne_nil ho hu)
  have hsize := past.size
  exact (hf a).follows (by omega)

protected theorem map (hr : r.Parses L o n) (f : α → β) :
    (r >>= fun a => pure (f a)).Parses (L >>= fun a => pure (f a)) o n := by
  refine ⟨hr.outlined.map f, ?_⟩
  exact (hr.bind (fun a => Parses.pure (f a)) fun _ _ hx => by contradiction).follows

/-- A rule has refused, or has read something and follows any choice in which no other part begins
with the same tokens. -/
theorem refused_or_chosen (hr : r.Parses L o n) (hL' : L'.Outlined p) (ho : o.empty = false)
    (hop : ∀ x ∈ o.first, x ∉ p.first) (hc : c.size < n) :
    (L.Halts [] c ∧ ∃ expected, r c = .error (c.unexpected expected) c) ∨
      ((r c).Follows (L <|> L') c ∧ ∀ e c', r c = .error e c' → c'.size ≠ c.size) := by
  have hL := hr.outlined
  have hrc := hr.follows hc
  have hhalts : ∀ {u c'}, u ≠ [] → L.Begins u → L.Halts u c' → (L <|> L').Halts u c' := by
    intro u c' hu hbegins halts l hl hl'
    rcases Language.begins_orElse hl' with hl' | hl'
    · exact halts l hl hl'
    · exact hL.not_begins hL' hop hu hbegins hl'
  generalize r c = rc at hrc
  cases hrc with
  | @ok u a c' past halts sentence =>
    right
    have hu := hL.ne_nil ho sentence
    constructor
    · apply Outcome.Follows.ok past _ (Or.inl sentence)
      exact hhalts hu (Language.viable_of_sentence sentence).begins halts
    · intro e c'' h
      contradiction
  | @error u expected c' past halts viable rejects =>
    -- only without a token taken is the failure a refusal
    by_cases hu : u = []
    · left
      subst hu
      obtain rfl := past.eq_of_nil
      exact ⟨halts, expected, rfl⟩
    · right
      constructor
      · apply Outcome.Follows.error past (hhalts hu viable.begins halts)
        · obtain ⟨v, a, hv, hvl⟩ := viable
          exact ⟨v, a, Or.inl hv, hvl⟩
        · intro a ha
          rcases ha with ha | ha
          · exact rejects a ha
          · rw [← List.append_nil u] at ha
            exact hL.not_begins hL' hop hu viable.begins (Language.viable_of_sentence ha).begins
      · intro e c'' h
        cases h
        rwa [Ne, past.size_eq_iff]

/-- A rule that refuses leaves the choice to the other one. -/
theorem orElse_of_refused {expected : List Expectation}
    (hr : r c = .error (c.unexpected expected) c) (hs : (s c).Follows L c) :
    ((r <|> s) c).Follows L c := by
  change (Rule.orElse r s c).Follows L c
  unfold Rule.orElse
  rw [hr]
  simp only [if_true]
  generalize s c = sc at hs
  cases hs with
  | ok past halts sentence => exact .ok past halts sentence
  | error past halts viable rejects =>
    simp only
    split
    · exact .error past halts viable rejects
    · exact .error past halts viable rejects

theorem orElse_of_moved (hr : (r c).Follows L c)
    (hmoved : ∀ e c', r c = .error e c' → c'.size ≠ c.size) : ((r <|> s) c).Follows L c := by
  change (Rule.orElse r s c).Follows L c
  unfold Rule.orElse
  generalize r c = rc at hr hmoved
  cases rc with
  | ok a c' => exact hr
  | error e c' =>
    simp only [if_neg (hmoved e c' rfl)]
    exact hr

protected theorem orElse (hr : r.Parses L o n) (hs : s.Parses L' p n) (ho : o.empty = false)
    (hp : p.empty = false) (hop : ∀ x ∈ o.first, x ∉ p.first) :
    (r <|> s).Parses (L <|> L') (o.either p) n := by
  have hL := hr.outlined.orElse hs.outlined ho hp hop
  have hpo : ∀ x ∈ p.first, x ∉ o.first := fun x hx hx' => hop x hx' hx
  refine ⟨hL, fun {c} hc => ?_⟩
  rcases hr.refused_or_chosen hs.outlined ho hop hc with ⟨halts, expected, hrc⟩ | ⟨hrc, hmoved⟩
  · apply orElse_of_refused hrc
    rcases hs.refused_or_chosen hr.outlined hp hpo hc with ⟨halts', expected', hsc⟩ | ⟨hsc, -⟩
    · -- both refuse, and the error is for the choice
      rw [hsc]
      apply Outcome.Follows.error (.refl c) _ hL.viable
      · intro a ha
        exact ha.elim (hr.outlined.solid ho) (hs.outlined.solid hp)
      · intro l hl hbegins
        exact (Language.begins_orElse hbegins).elim (halts l hl) (halts' l hl)
    · rwa [Language.orElse_comm]
  · exact orElse_of_moved hrc hmoved

protected theorem optional (hr : r.Parses L o n) (ho : o.empty = false)
    (hcomment : .comment ∉ o.first) :
    (optional r).Parses (Language.optional L) o.some n := by
  refine ⟨hr.outlined.optional ho hcomment, fun {c} hc => ?_⟩
  have hrc := hr.follows hc
  unfold Rule.optional
  generalize r c = rc at hrc
  cases hrc with
  | @ok u a c' past halts sentence =>
    apply Outcome.Follows.ok (a := some a) past _ sentence
    intro l hl hbegins
    exact halts l hl (Outlined.begins_of_optional (by simp) hbegins)
  | @error u expected c' past halts viable rejects =>
    have hhalts : (Language.optional L).Halts u c' := by
      intro l hl hbegins
      exact halts l hl (Outlined.begins_of_optional (by simp) hbegins)
    simp only [past.size_eq_iff]
    by_cases hu : u = []
    · -- nothing read is a sentence of its own here
      rw [if_pos hu]
      exact .ok past hhalts hu
    · rw [if_neg hu]
      apply Outcome.Follows.error past hhalts
      · obtain ⟨v, a, hv, hvl⟩ := viable
        exact ⟨v, some a, hv, hvl⟩
      · intro a ha
        cases a with
        | none => exact hu ha
        | some a => exact rejects a ha

end Rule.Parses
end KarelKit
