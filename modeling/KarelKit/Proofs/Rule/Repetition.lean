import KarelKit.Proofs.Rule.Follows
import KarelKit.Rule.Lexical

namespace KarelKit.Rule.Parses

open KarelKit.Language (Outlined)

variable {α β : Type} {r : Rule α} {L : Language α} {o p : Outline} {c : Cursor} {n : Nat}

theorem many_eq_optional (hr : r.Parses L o (n + 1)) (ho : o.empty = false)
    (hmany : (many r).Parses (Language.many L) o.some n) (hc : c.size < n + 1) :
    many r c = (optional (atLeastOne r) >>= fun items => pure (items.getD [])) c := by
  have hrc := hr.follows hc
  rw [many, repeatFrom.eq_1, bind_apply]
  unfold optional atLeastOne
  rw [bind_apply]
  generalize r c = rc at hrc
  cases hrc with
  | @ok u a c' past halts sentence =>
    have hu := List.length_pos_iff.mpr (hr.outlined.ne_nil ho sentence)
    have hsize := past.size
    have htail := hmany.follows (c := c') (by omega)
    unfold many at htail
    simp only [if_pos (show c'.size < c.size by omega)]
    rw [bind_apply]
    unfold many
    generalize repeatFrom r c' = tail at htail
    cases htail with
    | ok past' halts' sentence' => rfl
    | @error v expected c'' past' halts' viable rejects =>
      have hsize' := past'.size
      simp only [if_neg (show c''.size ≠ c.size by omega)]
  | @error u expected c' past halts viable rejects =>
    simp only
    split <;> rfl

protected theorem many (hr : r.Parses L o n) (ho : o.empty = false) (hoo : o.Apart o)
    (hcomment : .comment ∉ o.first) : (many r).Parses (Language.many L) o.some n := by
  have houtlined := hr.outlined.many ho hoo hcomment
  induction n with
  | zero => exact ⟨houtlined, fun h => absurd h (Nat.not_lt_zero _)⟩
  | succ n ih =>
    have hmany := ih ⟨hr.outlined, fun h => hr.follows (Nat.lt_succ_of_lt h)⟩
    have hitems : (atLeastOne r).Parses (Language.atLeastOne L) _ (n + 1) :=
      hr.bind_solid ho (fun a => hmany.map (a :: ·)) hoo
    have hempty : (o.andThen o.some).empty = false := by simp [Outline.andThen, ho]
    refine ⟨houtlined, fun {c} hc => ?_⟩
    rw [many_eq_optional hr ho hmany hc, Outlined.many_eq_optional]
    apply ((hitems.optional hempty _).map _).follows hc
    simpa [Outline.andThen, ho] using hcomment

protected theorem atLeastOne (hr : r.Parses L o n) (ho : o.empty = false) (hoo : o.Apart o)
    (hcomment : .comment ∉ o.first) :
    (atLeastOne r).Parses (Language.atLeastOne L) ⟨false, o.first, o.next ++ o.first⟩ n := by
  have hmany := hr.many ho hoo hcomment
  have hitems : (atLeastOne r).Parses (Language.atLeastOne L) (o.andThen o.some) n :=
    hr.bind (fun a => hmany.map (a :: ·)) hoo
  apply hitems.mono
  refine ⟨?_, ?_, ?_⟩
  · simp [Outline.andThen, ho]
  · simp [Outline.andThen, ho]
  · intro x hx
    simp only [Outline.andThen, Outline.some, if_true, List.mem_append] at hx ⊢
    rcases hx with hx | hx
    · exact hx
    · exact Or.inl hx

protected theorem separated {separator : Rule Unit} {S : Language Unit} (hr : r.Parses L o n)
    (ho : o.empty = false) (hcomment : .comment ∉ o.first) (hs : separator.Parses S p n)
    (hp : p.empty = false) (hpcomment : .comment ∉ p.first) (hpo : p.Apart o) (hop : o.Apart p)
    (hfirst : ∀ x ∈ o.first, x ∉ p.first) :
    (separated r separator).Parses (Language.separated L S)
      ⟨true, o.first ++ p.first, o.next ++ (o.first ++ p.first)⟩ n := by
  have hitem : (separator >>= fun _ => r).Parses (S >>= fun _ => L) ⟨false, p.first, o.next⟩ n :=
    (hs.bind (fun _ => hr) hpo).mono (by simp [Outline.Within, Outline.andThen, hp, ho])
  have hmany := hitem.many rfl hop hpcomment
  -- neither what goes on in an item nor what begins one can be a separator
  have hapart : o.some.Apart ⟨true, p.first, o.next ++ p.first⟩ := by
    intro x hx
    rcases List.mem_append.mp hx with hx | hx
    · exact hop x hx
    · exact hfirst x hx
  refine ((hr.optional ho hcomment).bind (fun item => ?rest) hapart).mono ?within
  case rest =>
    cases item with
    | none => exact (Parses.pure []).mono (by simp [Outline.Within])
    | some item => exact hmany.map (item :: ·)
  case within =>
    refine ⟨fun _ => rfl, ?_, ?_⟩
    · intro x hx
      simpa [Outline.andThen, Outline.some] using hx
    · intro x hx
      simp only [Outline.andThen, Outline.some, if_true, List.mem_append] at hx ⊢
      grind

theorem between_eq_span {c c' : Cursor} {u : List Lexeme} (past : c.Past u c') (hu : u ≠ [])
    (hcomment : ∀ l ∈ u.head?, l.node.isComment = false) :
    Range.between c.here c'.lastEnd = Language.span u := by
  obtain ⟨l, u, rfl⟩ := List.exists_cons_of_ne_nil hu
  have hl := hcomment l rfl
  have hhere : c.here = l.range.start := by
    unfold Cursor.here
    rw [past.ahead, List.cons_append]
  rw [hhere, past.lastEnd, Language.span]
  simp [Language.lastEnd, hl]

theorem located_apply (r : Rule α) (c : Cursor) : located r c =
    (r >>= fun a => lastEnd >>= fun stop => pure ⟨a, .between c.here stop⟩) c := rfl

protected theorem located (hr : r.Parses L o n) (ho : o.empty = false)
    (hcomment : .comment ∉ o.first) : (located r).Parses (Language.located L) o n := by
  refine ⟨hr.outlined.located ho, fun {c} hc => ?_⟩
  have hrc := hr.follows hc
  have hL := hr.outlined
  -- the range is made from what has been read, so it keeps nothing from following
  have hhalts : ∀ {u c'}, L.Halts u c' → (Language.located L).Halts u c' := by
    intro u c' halts l hl hbegins
    obtain ⟨v, a, ha, -⟩ := hbegins
    exact halts l hl ⟨v, a.node, ha⟩
  generalize heq : r c = rc at hrc
  cases hrc with
  | @ok u a c' past halts sentence =>
    have hlocated : located r c = .ok ⟨a, .between c.here c'.lastEnd⟩ c' := by
      rw [located_apply, bind_apply, heq]
      rfl
    rw [hlocated]
    apply Outcome.Follows.ok past (hhalts halts) ⟨sentence, _⟩
    apply between_eq_span past (hL.ne_nil ho sentence)
    intro l hl
    obtain ⟨tail, rfl⟩ := List.head?_eq_some_iff.mp hl
    exact hL.isComment_of_begins hcomment ⟨tail, a, sentence⟩
  | @error u expected c' past halts viable rejects =>
    have hlocated : located r c = .error (c'.unexpected expected) c' := by
      rw [located_apply, bind_apply, heq]
    rw [hlocated]
    apply Outcome.Follows.error past (hhalts halts)
    · obtain ⟨v, a, hv, hvl⟩ := viable
      exact ⟨v, ⟨a, Language.span _⟩, ⟨hv, rfl⟩, hvl⟩
    · intro a ha
      exact rejects a.node ha.1

protected theorem trailed (hr : r.Parses L o n) (ho : o.empty = false) :
    (r >>= fun a => skipComments >>= fun _ => pure a).Parses (Language.trailed L)
      ⟨false, o.first, .comment :: o.next⟩ n := by
  refine ⟨hr.outlined.trailed ho, fun {c} hc => ?_⟩
  have hrc := hr.follows hc
  have hL := hr.outlined
  rw [bind_apply]
  generalize r c = rc at hrc
  cases hrc with
  | @ok u a c' past halts sentence =>
    change (Outcome.ok a c'.skipComments).Follows _ _
    have past' := Cursor.Past.skipComments c'
    apply Outcome.Follows.ok (past.trans past')
    · intro l hl hbegins
      have hl' : l.node.isComment = false := by
        rw [c'.ahead_skipComments] at hl
        have hno := List.head?_dropWhile_not (·.node.isComment) c'.ahead
        rw [Option.mem_def.mp hl] at hno
        simpa using hno
      -- the sentence itself would go on with what stands first after it
      have hbegins' := Outlined.begins_of_trailed hl' hbegins
      obtain ⟨tail, htail⟩ := List.head?_eq_some_iff.mp hl
      have hahead := past'.ahead
      rw [htail] at hahead
      generalize c'.ahead.takeWhile (·.node.isComment) = w at hbegins' hahead
      cases w with
      | nil =>
        rw [List.append_nil] at hbegins'
        exact halts l (by rw [hahead]; rfl) hbegins'
      | cons m w =>
        apply halts m (by rw [hahead]; rfl)
        apply Language.Begins.of_append (v := w ++ [l])
        simpa using hbegins'
    · exact Outlined.trailed_iff.mpr ⟨u, _, rfl, sentence, Language.takeWhile_comments _⟩
  | @error u expected c' past halts viable rejects =>
    change (Outcome.error (c'.unexpected expected) c').Follows _ _
    apply Outcome.Follows.error past
    · intro l hl hbegins
      obtain ⟨v, a, hv⟩ := hbegins
      rw [List.append_assoc] at hv
      refine hL.trailed_stuck rejects viable.begins ?_ hv
      intro m hm
      cases hm
      exact halts l hl
    · obtain ⟨v, a, hv, hvl⟩ := viable
      exact ⟨v, a, Outlined.trailed_iff.mpr ⟨_, [], (List.append_nil _).symm, hv, by simp⟩, hvl⟩
    · intro a ha
      rw [← List.append_nil u] at ha
      exact hL.trailed_stuck rejects viable.begins (by simp) ha

/-- A rule that reads by itself only where it has taken a token follows its language, if one step
carries this from fewer tokens to one more. -/
protected theorem recursive {f : Rule α → Rule α}
    (hf : ∀ r n, r.Parses L o n → (f r).Parses L o (n + 1)) (hL : L.Outlined o) :
    (recursive f).Parses L o n := by
  refine ⟨hL, ?_⟩
  intro c hc
  clear hc
  unfold Rule.recursive
  fun_induction recursiveFrom f c with
  | case1 c ih =>
    apply (hf _ c.size ⟨hL, fun {c'} hc' => ?_⟩).follows (Nat.lt_succ_self _)
    rw [if_pos hc']
    exact ih c' hc'

end KarelKit.Rule.Parses
