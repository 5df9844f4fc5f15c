import KarelKit.Proofs.Language.Basic

namespace KarelKit

/-- Bounds from above, by classes of tokens. -/
structure Outline where
  empty : Bool
  first : List Terminal
  next : List Terminal

namespace Outline

/-- One part after the other. -/
def andThen (o p : Outline) : Outline :=
  ⟨o.empty && p.empty, o.first ++ (if o.empty then p.first else []),
    p.next ++ (if p.empty then o.next else [])⟩

/-- One part or the other. -/
def either (o p : Outline) : Outline := ⟨o.empty || p.empty, o.first ++ p.first, o.next ++ p.next⟩

/-- One part or none, or any number of them. -/
def some (o : Outline) : Outline := ⟨true, o.first, o.next ++ o.first⟩

/-- What may follow a part is no beginning of the next one. -/
def Apart (o p : Outline) : Prop := ∀ x ∈ o.next, x ∉ p.first

def Within (o p : Outline) : Prop :=
  (o.empty = true → p.empty = true) ∧ (∀ x ∈ o.first, x ∈ p.first) ∧ ∀ x ∈ o.next, x ∈ p.next

instance (o p : Outline) : Decidable (o.Apart p) :=
  inferInstanceAs (Decidable (∀ x ∈ o.next, x ∉ p.first))

instance (o p : Outline) : Decidable (o.Within p) :=
  inferInstanceAs (Decidable ((o.empty = true → p.empty = true) ∧
    (∀ x ∈ o.first, x ∈ p.first) ∧ ∀ x ∈ o.next, x ∈ p.next))

end Outline

namespace Language

variable {α β : Type}

structure Outlined (L : Language α) (o : Outline) : Prop where
  functional {u : List Lexeme} {a b : α} : L u a → L u b → a = b
  viable : L.Viable []
  empty {a : α} : L [] a → o.empty = true
  first {l : Lexeme} : L.Begins [l] → l.node.terminal ∈ o.first
  next {u : List Lexeme} {a : α} {l : Lexeme} :
    L u a → L.Begins (u ++ [l]) → l.node.terminal ∈ o.next
  /-- A comment that may follow a sentence belongs to it. -/
  absorbs {u : List Lexeme} {a : α} {l : Lexeme} :
    L u a → l.node.isComment = true → L.Begins (u ++ [l]) → L (u ++ [l]) a

namespace Outlined

theorem mono {L : Language α} {o p : Outline} (h : L.Outlined o) (hop : o.Within p) :
    L.Outlined p where
  functional := h.functional
  viable := h.viable
  empty ha := hop.1 (h.empty ha)
  first hl := hop.2.1 _ (h.first hl)
  next hu hl := hop.2.2 _ (h.next hu hl)
  absorbs := h.absorbs

theorem solid {L : Language α} {o : Outline} (h : L.Outlined o) (ho : o.empty = false) {a : α} :
    ¬L [] a := by
  intro ha
  rw [h.empty ha] at ho
  contradiction

theorem apart {L : Language α} {M : α → Language β} {o p : Outline} (hL : L.Outlined o)
    (hM : ∀ a, (M a).Outlined p) (hop : o.Apart p) : Apart L M := by
  intro u a l b hu hl hb
  exact hop _ (hL.next hu hl) ((hM b).first hb)

protected theorem pure (a : α) : (pure a : Language α).Outlined ⟨true, [], []⟩ where
  functional := by
    intro u b c h h'
    obtain ⟨-, rfl⟩ := h
    obtain ⟨-, rfl⟩ := h'
    rfl
  viable := viable_of_sentence ⟨rfl, rfl⟩
  empty _ := rfl
  first := by
    intro l h
    obtain ⟨v, b, hv, -⟩ := h
    contradiction
  next := by
    intro u b l h h'
    obtain ⟨rfl, -⟩ := h
    obtain ⟨v, c, hv, -⟩ := h'
    contradiction
  absorbs := by
    intro u b l h _ h'
    obtain ⟨rfl, -⟩ := h
    obtain ⟨v, c, hv, -⟩ := h'
    contradiction

/-- A language of one lexeme, whose tokens are of the classes `first`. -/
protected theorem one {read : Token → Option α} {first : List Terminal}
    (hfirst : ∀ t a, read t = Option.some a → t.terminal ∈ first)
    (hread : ∃ t a, t.Legible ∧ read t = Option.some a) :
    (one read).Outlined ⟨false, first, []⟩ where
  functional := by
    intro u a b h h'
    obtain ⟨l, rfl, ha⟩ := h
    obtain ⟨m, hm, hb⟩ := h'
    cases hm
    exact Option.some.inj (ha.symm.trans hb)
  viable := by
    obtain ⟨t, a, ht, ha⟩ := hread
    refine ⟨[⟨t, .between .first .first⟩], a, ⟨_, rfl, ha⟩, ?_⟩
    intro l hl
    rw [List.mem_singleton.mp hl]
    exact ht
  empty := by
    intro a h
    obtain ⟨l, hl, -⟩ := h
    contradiction
  first := by
    intro l h
    obtain ⟨v, a, m, hm, ha⟩ := h
    cases hm
    exact hfirst _ _ ha
  next := by
    intro u a l h h'
    obtain ⟨m, rfl, -⟩ := h
    obtain ⟨v, b, m', hm', -⟩ := h'
    cases hm'
  absorbs := by
    intro u a l h _ h'
    obtain ⟨m, rfl, -⟩ := h
    obtain ⟨v, b, m', hm', -⟩ := h'
    cases hm'

protected theorem comments : comments.Outlined ⟨true, [.comment], [.comment]⟩ where
  functional _ _ := rfl
  viable := by
    refine viable_of_sentence (a := ()) ?_
    intro l hl
    contradiction
  empty _ := rfl
  first := by
    intro l h'
    obtain ⟨v, a, h⟩ := h'
    have hl := Token.isComment_iff.mp (h l (by simp))
    simp [hl]
  next := by
    intro u a l _ h'
    obtain ⟨v, b, h⟩ := h'
    have hl := Token.isComment_iff.mp (h l (by simp))
    simp [hl]
  absorbs := by
    intro u a l hu hl _ m hm
    rcases List.mem_append.mp hm with hm | hm
    · exact hu m hm
    · rw [List.mem_singleton.mp hm]
      exact hl

section bind

variable {L : Language α} {M : α → Language β} {o p : Outline}

/-- Where the second part begins, the first cannot go on. -/
theorem stops (hLM : Apart L M) {u v : List Lexeme} {a : α} (hu : L u a) (hv : (M a).Begins v) :
    ∀ l ∈ v.head?, ¬L.Begins (u ++ [l]) := by
  intro l hl hbegins
  obtain ⟨tail, rfl⟩ := List.head?_eq_some_iff.mp hl
  exact hLM u a l a hu hbegins (Begins.of_append (v := tail) hv)

/-- A sentence with one more lexeme, of which another sentence begins, goes on in its second part;
or the second part is empty and the first goes on. -/
theorem bind_next (hL : L.Outlined o) (hLM : Apart L M) {v w : List Lexeme} {a : α} {l : Lexeme}
    (hv : L v a) (hw : (M a).Begins w) (hl : (L >>= M).Begins (v ++ w ++ [l])) :
    (M a).Begins (w ++ [l]) ∨ w = [] ∧ L.Begins (v ++ [l]) := by
  obtain ⟨s, b', w₁, w₂, a', heq, hw₁, hw₂⟩ := hl
  have heq' : v ++ (w ++ l :: s) = w₁ ++ w₂ := by
    rw [← heq]
    simp
  -- either the longer sentence is cut behind `v` too, or `v` itself goes on into it
  by_cases hr : ∀ m ∈ (w ++ l :: s).head?, ¬L.Begins (v ++ [m])
  · left
    obtain ⟨rfl, rfl⟩ := hLM.split (viable_of_sentence hv).begins hr heq' hw₁ hw₂
    obtain rfl := hL.functional hv hw₁
    exact ⟨s, b', by rwa [List.append_assoc]⟩
  · right
    cases w with
    | nil =>
      refine ⟨rfl, Classical.byContradiction fun hno => hr ?_⟩
      intro m hm
      cases hm
      exact hno
    | cons m w =>
      -- `m` begins the second part, so the first does not go on with it
      exact absurd (stops hLM hv hw) hr

/-- What is no sentence of the second part after one of the first is none of the whole. -/
theorem bind_rejects (hL : L.Outlined o) (hLM : Apart L M) {v w : List Lexeme} {a : α} {b : β}
    (hv : L v a) (hw : (M a).Begins w) (hno : ¬M a w b) : ¬(L >>= M) (v ++ w) b := by
  intro h
  obtain ⟨w₁, w₂, a', heq, hw₁, hw₂⟩ := h
  obtain ⟨rfl, rfl⟩ := hLM.split (viable_of_sentence hv).begins (stops hLM hv hw) heq hw₁ hw₂
  obtain rfl := hL.functional hv hw₁
  exact hno hw₂

/-- Where the first part can neither end nor go on, the whole has no sentence. -/
theorem bind_stuck (hLM : Apart L M) {u r : List Lexeme} {b : β} (hu : L.Begins u)
    (hno : ∀ a, ¬L u a) (hr : ∀ l ∈ r.head?, ¬L.Begins (u ++ [l])) : ¬(L >>= M) (u ++ r) b := by
  intro h
  obtain ⟨w₁, w₂, a, heq, hw₁, hw₂⟩ := h
  obtain ⟨rfl, -⟩ := hLM.split hu hr heq hw₁ hw₂
  exact hno a hw₁

protected theorem bind (hL : L.Outlined o) (hM : ∀ a, (M a).Outlined p) (hop : o.Apart p) :
    (L >>= M).Outlined (o.andThen p) where
  functional := by
    intro u b c h h'
    obtain ⟨v, w, a, rfl, hv, hw⟩ := h
    obtain ⟨v', w', a', heq, hv', hw'⟩ := h'
    -- both sentences are cut in the same place
    have hLM := hL.apart hM hop
    have hr := stops hLM hv (viable_of_sentence hw).begins
    obtain ⟨rfl, rfl⟩ := hLM.split (viable_of_sentence hv).begins hr heq hv' hw'
    obtain rfl := hL.functional hv hv'
    exact (hM a).functional hw hw'
  viable := by
    obtain ⟨v, a, hv, hvl⟩ := hL.viable
    obtain ⟨w, b, hw, hwl⟩ := (hM a).viable
    refine ⟨v ++ w, b, ⟨v, w, a, rfl, hv, hw⟩, ?_⟩
    intro l hl
    exact (List.mem_append.mp hl).elim (hvl l) (hwl l)
  empty := by
    intro b h
    obtain ⟨v, w, a, heq, hv, hw⟩ := h
    obtain ⟨rfl, rfl⟩ := List.append_eq_nil_iff.mp heq.symm
    simp [Outline.andThen, hL.empty hv, (hM a).empty hw]
  first := by
    intro l h
    obtain ⟨s, b, v, w, a, heq, hv, hw⟩ := h
    cases v with
    | nil =>
      have hl := (hM a).first ⟨s, b, by rwa [heq]⟩
      simp [Outline.andThen, hL.empty hv, hl]
    | cons m v =>
      cases heq
      exact List.mem_append_left _ (hL.first ⟨v, a, hv⟩)
  next := by
    intro u b l h hl
    obtain ⟨v, w, a, rfl, hv, hw⟩ := h
    rcases hL.bind_next (hL.apart hM hop) hv (viable_of_sentence hw).begins hl with hl' | ⟨rfl, hl'⟩
    · exact List.mem_append_left _ ((hM a).next hw hl')
    · simp [Outline.andThen, (hM a).empty hw, hL.next hv hl']
  absorbs := by
    intro u b l h hcomment hl
    obtain ⟨v, w, a, rfl, hv, hw⟩ := h
    rcases hL.bind_next (hL.apart hM hop) hv (viable_of_sentence hw).begins hl with hl' | ⟨rfl, hl'⟩
    · rw [List.append_assoc]
      exact bind_intro hv ((hM a).absorbs hw hcomment hl')
    · rw [List.append_nil]
      exact ⟨v ++ [l], [], a, (List.append_nil _).symm, hL.absorbs hv hcomment hl', hw⟩

end bind

protected theorem map {L : Language α} {o : Outline} (h : L.Outlined o) (f : α → β) :
    (L >>= fun a => pure (f a)).Outlined o :=
  (h.bind (fun a => Outlined.pure (f a)) fun _ _ hx => by contradiction).mono (by
    refine ⟨?_, ?_, ?_⟩ <;> simp [Outline.andThen])

/-- What begins a sentence of one language begins none of another that has other first tokens. -/
theorem not_begins {L : Language α} {M : Language β} {o p : Outline} (hL : L.Outlined o)
    (hM : M.Outlined p) (hop : ∀ x ∈ o.first, x ∉ p.first) {u v : List Lexeme} (hu : u ≠ [])
    (hbegins : L.Begins u) : ¬M.Begins (u ++ v) := by
  intro hbegins'
  obtain ⟨l, tail, rfl⟩ := List.exists_cons_of_ne_nil hu
  have hl : M.Begins [l] := by
    apply Begins.of_append (v := tail ++ v)
    exact hbegins'
  exact hop _ (hL.first (Begins.of_append (v := tail) hbegins)) (hM.first hl)

theorem isComment_of_begins {L : Language α} {o : Outline} (h : L.Outlined o)
    (hcomment : .comment ∉ o.first) {l : Lexeme} (hl : L.Begins [l]) :
    l.node.isComment = false := by
  rw [Bool.eq_false_iff]
  intro hl'
  have hfirst := h.first hl
  rw [Token.isComment_iff.mp hl'] at hfirst
  exact hcomment hfirst

theorem first_of_read {read : Token → Option α} {o : Outline} (h : (one read).Outlined o)
    {t : Token} {a : α} (ht : read t = Option.some a) : t.terminal ∈ o.first :=
  h.first (l := ⟨t, .between .first .first⟩) ⟨[], a, _, rfl, ht⟩

theorem isComment_of_read {read : Token → Option α} {o : Outline} (h : (one read).Outlined o)
    (hcomment : .comment ∉ o.first) {t : Token} {a : α} (ht : read t = Option.some a) :
    t.isComment = false :=
  h.isComment_of_begins hcomment (l := ⟨t, .between .first .first⟩) ⟨[], a, _, rfl, ht⟩

theorem ne_nil {L : Language α} {o : Outline} (h : L.Outlined o) (ho : o.empty = false)
    {u : List Lexeme} {a : α} (hu : L u a) : u ≠ [] := by
  rintro rfl
  exact h.solid ho hu

protected theorem orElse {L M : Language α} {o p : Outline} (hL : L.Outlined o) (hM : M.Outlined p)
    (ho : o.empty = false) (hp : p.empty = false) (hop : ∀ x ∈ o.first, x ∉ p.first) :
    (L <|> M).Outlined (o.either p) := by
  -- the first lexeme tells which of the two a sentence belongs to
  have hpo : ∀ x ∈ p.first, x ∉ o.first := fun x hx hx' => hop x hx' hx
  have hLM : ∀ {u v a}, L u a → ¬M.Begins (u ++ v) := fun hu =>
    hL.not_begins hM hop (hL.ne_nil ho hu) (viable_of_sentence hu).begins
  have hML : ∀ {u v a}, M u a → ¬L.Begins (u ++ v) := fun hu =>
    hM.not_begins hL hpo (hM.ne_nil hp hu) (viable_of_sentence hu).begins
  -- what goes on from a sentence of the one goes on in it
  have hleft : ∀ {u v a}, L u a → (L <|> M).Begins (u ++ v) → L.Begins (u ++ v) := by
    intro u v a ha hbegins
    obtain ⟨w, b, hb | hb⟩ := hbegins
    · exact ⟨w, b, hb⟩
    · exact absurd ⟨w, b, hb⟩ (hLM ha)
  have hright : ∀ {u v a}, M u a → (L <|> M).Begins (u ++ v) → M.Begins (u ++ v) := by
    intro u v a ha hbegins
    obtain ⟨w, b, hb | hb⟩ := hbegins
    · exact absurd ⟨w, b, hb⟩ (hML ha)
    · exact ⟨w, b, hb⟩
  refine ⟨?functional, ?viable, ?empty, ?first, ?next, ?absorbs⟩
  case functional =>
    intro u a b ha hb
    rcases ha with ha | ha
    · rcases hb with hb | hb
      · exact hL.functional ha hb
      · exact absurd (viable_of_sentence hb).begins (List.append_nil u ▸ hLM ha)
    · rcases hb with hb | hb
      · exact absurd (viable_of_sentence hb).begins (List.append_nil u ▸ hML ha)
      · exact hM.functional ha hb
  case viable =>
    obtain ⟨v, a, hv, hvl⟩ := hL.viable
    exact ⟨v, a, Or.inl hv, hvl⟩
  case empty =>
    intro a ha
    rcases ha with ha | ha
    · exact absurd ha (hL.solid ho)
    · exact absurd ha (hM.solid hp)
  case first =>
    intro l hl
    obtain ⟨v, a, ha | ha⟩ := hl
    · exact List.mem_append_left _ (hL.first ⟨v, a, ha⟩)
    · exact List.mem_append_right _ (hM.first ⟨v, a, ha⟩)
  case next =>
    intro u a l ha hl
    rcases ha with ha | ha
    · exact List.mem_append_left _ (hL.next ha (hleft ha hl))
    · exact List.mem_append_right _ (hM.next ha (hright ha hl))
  case absorbs =>
    intro u a l ha hl hbegins
    rcases ha with ha | ha
    · exact Or.inl (hL.absorbs ha hl (hleft ha hbegins))
    · exact Or.inr (hM.absorbs ha hl (hright ha hbegins))

/-- A sentence of `optional L` with lexemes in it is one of `L`. -/
theorem begins_of_optional {L : Language α} {u : List Lexeme} (hu : u ≠ [])
    (h : (optional L).Begins u) : L.Begins u := by
  obtain ⟨v, a, hv⟩ := h
  cases a with
  | none =>
    have hnil : u = [] := (List.append_eq_nil_iff.mp hv).1
    contradiction
  | some a => exact ⟨v, a, hv⟩

protected theorem optional {L : Language α} {o : Outline} (h : L.Outlined o) (ho : o.empty = false)
    (hcomment : .comment ∉ o.first) : (optional L).Outlined o.some where
  functional {u a b} ha hb := by
    cases a with
    | none =>
      cases b with
      | none => rfl
      | some b =>
        obtain rfl : u = [] := ha
        exact absurd hb (h.solid ho)
    | some a =>
      cases b with
      | none =>
        obtain rfl : u = [] := hb
        exact absurd ha (h.solid ho)
      | some b => rw [h.functional ha hb]
  viable := viable_of_sentence (a := none) rfl
  empty _ := rfl
  first hl := h.first (begins_of_optional (List.cons_ne_nil _ _) hl)
  next {u a l} ha hl := by
    have hl' := begins_of_optional (by simp) hl
    cases a with
    | none =>
      obtain rfl : u = [] := ha
      exact List.mem_append_right _ (h.first hl')
    | some a => exact List.mem_append_left _ (h.next ha hl')
  absorbs {u a l} ha hl hbegins := by
    have hl' := begins_of_optional (by simp) hbegins
    cases a with
    | none =>
      obtain rfl : u = [] := ha
      rw [h.isComment_of_begins hcomment hl'] at hl
      contradiction
    | some a => exact h.absorbs (a := a) ha hl hl'

/-- A language that grows by steps keeps the outline of its steps. -/
protected theorem union {L : Nat → Language α} {o : Outline} (h : ∀ n, (L n).Outlined o)
    (hgrows : ∀ {m n u a}, m ≤ n → L m u a → L n u a) :
    Language.Outlined (fun u a => ∃ n, L n u a) o where
  functional := by
    intro u a b ha hb
    obtain ⟨m, ha⟩ := ha
    obtain ⟨n, hb⟩ := hb
    exact (h (max m n)).functional (hgrows (Nat.le_max_left m n) ha)
      (hgrows (Nat.le_max_right m n) hb)
  viable := by
    obtain ⟨v, a, hv, hvl⟩ := (h 0).viable
    exact ⟨v, a, ⟨0, hv⟩, hvl⟩
  empty ha := by
    obtain ⟨n, ha⟩ := ha
    exact (h n).empty ha
  first hl := by
    obtain ⟨v, a, n, hv⟩ := hl
    exact (h n).first ⟨v, a, hv⟩
  next hu hl := by
    obtain ⟨m, hu⟩ := hu
    obtain ⟨v, b, n, hv⟩ := hl
    exact (h (max m n)).next (hgrows (Nat.le_max_left m n) hu)
      ⟨v, b, hgrows (Nat.le_max_right m n) hv⟩
  absorbs hu hl hbegins := by
    obtain ⟨m, hu⟩ := hu
    obtain ⟨v, b, n, hv⟩ := hbegins
    exact ⟨max m n, (h (max m n)).absorbs (hgrows (Nat.le_max_left m n) hu) hl
      ⟨v, b, hgrows (Nat.le_max_right m n) hv⟩⟩

/-- Values told apart by the lexemes they come from, if a comment last makes no difference. -/
protected theorem refine {L : Language α} {o : Outline} (h : L.Outlined o)
    {f : List Lexeme → α → β}
    (hf : ∀ {u a l}, l.node.isComment = true → f (u ++ [l]) a = f u a) :
    Language.Outlined (fun u b => ∃ a, L u a ∧ b = f u a) o where
  functional := by
    intro u a b ha hb
    obtain ⟨a, ha, rfl⟩ := ha
    obtain ⟨b, hb, rfl⟩ := hb
    rw [h.functional ha hb]
  viable := by
    obtain ⟨v, a, hv, hvl⟩ := h.viable
    exact ⟨v, f v a, ⟨a, hv, rfl⟩, hvl⟩
  empty ha := by
    obtain ⟨a, ha, -⟩ := ha
    exact h.empty ha
  first hl := by
    obtain ⟨v, b, a, hv, -⟩ := hl
    exact h.first ⟨v, a, hv⟩
  next hu hl := by
    obtain ⟨a, hu, -⟩ := hu
    obtain ⟨v, b, a', hv, -⟩ := hl
    exact h.next hu ⟨v, a', hv⟩
  absorbs hu hl hbegins := by
    obtain ⟨a, hu, rfl⟩ := hu
    obtain ⟨v, b, a', hv, -⟩ := hbegins
    exact ⟨a, h.absorbs hu hl ⟨v, a', hv⟩, (hf hl).symm⟩

end Outlined
end Language
end KarelKit
