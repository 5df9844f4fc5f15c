import KarelKit.Proofs.Language.Outline

namespace KarelKit.Language.Outlined

variable {α β : Type} {L : Language α} {o : Outline}

theorem cons_of_many {u : List Lexeme} {items : List α} (h : (many L) u items) (hu : u ≠ []) :
    ∃ tail, (L >>= fun _ => many L) u tail := by
  cases h with
  | nil => contradiction
  | cons head tail => exact ⟨_, bind_intro head tail⟩

theorem begins_of_many {u : List Lexeme} (hu : u ≠ []) (h : (many L).Begins u) :
    (L >>= fun _ => many L).Begins u := by
  obtain ⟨v, items, hv⟩ := h
  obtain ⟨tail, htail⟩ := cons_of_many hv (by simp [hu])
  exact ⟨v, tail, htail⟩

theorem many_first (h : L.Outlined o) (ho : o.empty = false) {l : Lexeme}
    (hl : (many L).Begins [l]) : L.Begins [l] := by
  obtain ⟨s, b, v, w, a, heq, hv, hw⟩ := begins_of_many (List.cons_ne_nil l []) hl
  cases v with
  | nil => exact absurd hv (h.solid ho)
  | cons m v =>
    cases heq
    exact ⟨v, a, hv⟩

theorem many_apart (h : L.Outlined o) (ho : o.empty = false) (hoo : o.Apart o) :
    Apart L fun _ : α => many L := by
  intro u a l _ hu hl hmany
  exact hoo _ (h.next hu hl) (h.first (h.many_first ho hmany))

theorem many_next (h : L.Outlined o) (ho : o.empty = false) (hoo : o.Apart o) {u : List Lexeme}
    {items : List α} (hu : (many L) u items) {l : Lexeme}
    (hl : (many L).Begins (u ++ [l])) : l.node.terminal ∈ o.next ++ o.first := by
  induction hu with
  | nil => exact List.mem_append_right _ (h.first (h.many_first ho hl))
  | cons head tail ih =>
    rcases h.bind_next (h.many_apart ho hoo) head (viable_of_sentence tail).begins
      (begins_of_many (by simp) hl) with
      hl' | ⟨-, hl'⟩
    · exact ih hl'
    · exact List.mem_append_left _ (h.next head hl')

theorem many_absorbs (h : L.Outlined o) (ho : o.empty = false) (hoo : o.Apart o)
    (hcomment : .comment ∉ o.first) {u : List Lexeme} {items : List α}
    (hu : (many L) u items) {l : Lexeme} (hl : l.node.isComment = true)
    (hbegins : (many L).Begins (u ++ [l])) : (many L) (u ++ [l]) items := by
  induction hu with
  | nil =>
    rw [h.isComment_of_begins hcomment (h.many_first ho hbegins)] at hl
    contradiction
  | @cons u v a items head tail ih =>
    rcases h.bind_next (h.many_apart ho hoo) head (viable_of_sentence tail).begins
      (begins_of_many (by simp) hbegins) with
      hl' | ⟨rfl, hl'⟩
    · rw [List.append_assoc]
      exact .cons head (ih hl')
    · rw [List.append_nil, ← List.append_nil (u ++ [l])]
      exact .cons (h.absorbs head hl hl') tail

theorem many_functional (h : L.Outlined o) (ho : o.empty = false) (hoo : o.Apart o)
    {u : List Lexeme} {items items' : List α} (hu : (many L) u items)
    (hu' : (many L) u items') : items = items' := by
  induction hu generalizing items' with
  | nil =>
    generalize hnil : ([] : List Lexeme) = u at hu'
    cases hu' with
    | nil => rfl
    | cons head tail =>
      obtain ⟨rfl, -⟩ := List.append_eq_nil_iff.mp hnil.symm
      exact absurd head (h.solid ho)
  | @cons v w a items head tail ih =>
    -- the first items end in the same place, and the rest is by induction
    generalize heq : v ++ w = u at hu'
    cases hu' with
    | nil =>
      obtain ⟨rfl, -⟩ := List.append_eq_nil_iff.mp heq
      exact absurd head (h.solid ho)
    | cons head' tail' =>
      have hLM := h.many_apart ho hoo
      have hr := stops hLM head (viable_of_sentence tail).begins
      obtain ⟨rfl, rfl⟩ := hLM.split (viable_of_sentence head).begins hr heq head' tail'
      rw [h.functional head head', ih tail']

protected theorem many (h : L.Outlined o) (ho : o.empty = false) (hoo : o.Apart o)
    (hcomment : .comment ∉ o.first) : (many L).Outlined o.some where
  functional := h.many_functional ho hoo
  viable := viable_of_sentence .nil
  empty _ := rfl
  first hl := h.first (h.many_first ho hl)
  next hu hl := h.many_next ho hoo hu hl
  absorbs hu hl := h.many_absorbs ho hoo hcomment hu hl

/-- Any number of items is nothing, or at least one. -/
theorem many_eq_optional (L : Language α) :
    many L = (optional (atLeastOne L) >>= fun items => pure (items.getD [])) := by
  funext u items
  apply propext
  rw [bind_pure_iff]
  constructor
  · intro hu
    cases hu with
    | nil => exact ⟨none, rfl, rfl⟩
    | @cons v w a items head tail =>
      exact ⟨some (a :: items), bind_intro head (bind_pure tail), rfl⟩
  · intro hu
    obtain ⟨items', hu, rfl⟩ := hu
    cases items' with
    | none =>
      obtain rfl : u = [] := hu
      exact .nil
    | some items =>
      obtain ⟨v, w, a, rfl, head, hw⟩ := hu
      obtain ⟨tail, htail, rfl⟩ := bind_pure_iff.mp hw
      exact .cons head htail

theorem span_append {u : List Lexeme} (hu : u ≠ []) {l : Lexeme} (hl : l.node.isComment = true) :
    span (u ++ [l]) = span u := by
  cases u with
  | nil => contradiction
  | cons m u =>
    have hend := lastEnd_append (m :: u) [l] m.range.start
    rw [lastEnd_comments (u := [l]) (by simpa using hl)] at hend
    simp only [List.cons_append] at hend
    simp only [span, List.cons_append, hend]

protected theorem located (h : L.Outlined o) (ho : o.empty = false) : (located L).Outlined o where
  functional {u a b} ha hb := by
    obtain ⟨node, range⟩ := a
    obtain ⟨node', range'⟩ := b
    obtain ⟨ha, rfl⟩ := ha
    obtain ⟨hb, rfl⟩ := hb
    obtain rfl : node = node' := h.functional ha hb
    rfl
  viable := by
    obtain ⟨v, a, hv, hvl⟩ := h.viable
    exact ⟨v, ⟨a, span v⟩, ⟨hv, rfl⟩, hvl⟩
  empty ha := h.empty ha.1
  first := by
    intro l h
    obtain ⟨v, a, hv⟩ := h
    exact h.first ⟨v, a.node, hv.1⟩
  next := by
    intro u a l ha h
    obtain ⟨v, b, hb⟩ := h
    exact h.next ha.1 ⟨v, b.node, hb.1⟩
  absorbs := by
    intro u a l h hl h'
    obtain ⟨ha, hrange⟩ := h
    obtain ⟨v, b, hb⟩ := h'
    have hspan := span_append (h.ne_nil ho ha) hl
    exact ⟨h.absorbs ha hl ⟨v, b.node, hb.1⟩, hrange.trans hspan.symm⟩

theorem absorbs_all (h : L.Outlined o) {u v : List Lexeme} {a : α} (hu : L u a)
    (hv : ∀ l ∈ v, l.node.isComment = true) (hbegins : L.Begins (u ++ v)) : L (u ++ v) a := by
  induction v generalizing u with
  | nil => rwa [List.append_nil]
  | cons l v ih =>
    rw [← List.singleton_append, ← List.append_assoc] at hbegins ⊢
    apply ih _ (fun m hm => hv m (List.mem_cons_of_mem l hm)) hbegins
    exact h.absorbs hu (hv l (List.mem_cons_self ..)) hbegins.of_append

/-- With comments after it a sentence is cut in one way only, up to comments that it absorbs. -/
theorem trailed_functional (h : L.Outlined o) {v w v' w' : List Lexeme} {a b : α}
    (hv : L v a) (hw : ∀ l ∈ w, l.node.isComment = true) (hv' : L v' b)
    (hw' : ∀ l ∈ w', l.node.isComment = true) (heq : v ++ w = v' ++ w') : a = b := by
  -- the shorter of the two sentences absorbs the comments up to the end of the longer one
  rcases List.append_eq_append_iff.mp heq with ⟨s, rfl, hs⟩ | ⟨s, rfl, hs⟩
  all_goals subst hs
  · have hs := h.absorbs_all hv (fun l hl => hw l (List.mem_append_left _ hl))
      (viable_of_sentence hv').begins
    exact h.functional hs hv'
  · have hs := h.absorbs_all hv' (fun l hl => hw' l (List.mem_append_left _ hl))
      (viable_of_sentence hv).begins
    exact h.functional hv hs

theorem trailed_iff {u : List Lexeme} {a : α} : trailed L u a ↔
    ∃ v w, u = v ++ w ∧ L v a ∧ ∀ l ∈ w, l.node.isComment = true := by
  constructor
  · intro h
    obtain ⟨v, w, a, rfl, hv, w, x, y, rfl, hw, rfl, rfl⟩ := h
    exact ⟨v, w, by rw [List.append_nil], hv, hw⟩
  · intro h
    obtain ⟨v, w, rfl, hv, hw⟩ := h
    exact ⟨v, w, a, rfl, hv, w, [], (), (List.append_nil w).symm, hw, rfl, rfl⟩

/-- A lexeme that is no comment belongs to the sentence itself. -/
theorem begins_of_trailed {u : List Lexeme} {l : Lexeme} (hl : l.node.isComment = false)
    (h : (trailed L).Begins (u ++ [l])) : L.Begins (u ++ [l]) := by
  obtain ⟨s, a, ha⟩ := h
  obtain ⟨v, w, heq, hv, hw⟩ := trailed_iff.mp ha
  have hmem : l ∉ w := by
    intro hmem
    rw [hw l hmem] at hl
    contradiction
  rw [List.append_assoc, List.singleton_append] at heq
  rcases append_eq_append_cons heq.symm with ⟨t, rfl, -⟩ | ⟨t, -, rfl⟩
  · refine ⟨t, a, ?_⟩
    rwa [List.append_assoc, List.singleton_append]
  · exact absurd (List.mem_append_right _ (List.mem_cons_self ..)) hmem

theorem trailed_stuck (h : L.Outlined o) {u r : List Lexeme} {a : α} (hno : ∀ a, ¬L u a)
    (hbegins : L.Begins u) (hr : ∀ l ∈ r.head?, ¬L.Begins (u ++ [l])) :
    ¬(trailed L) (u ++ r) a := by
  intro ha
  obtain ⟨v, w, heq, hv, hw⟩ := trailed_iff.mp ha
  rcases List.append_eq_append_iff.mp heq with ⟨t, rfl, ht⟩ | ⟨t, rfl, rfl⟩
  · cases t with
    | nil => exact hno a (List.append_nil u ▸ hv)
    | cons l t =>
      subst ht
      apply hr l rfl
      refine ⟨t, a, ?_⟩
      rwa [List.append_assoc, List.singleton_append]
  · apply hno a
    exact h.absorbs_all hv (fun l hl => hw l (List.mem_append_left _ hl)) hbegins

protected theorem trailed (h : L.Outlined o) (ho : o.empty = false) :
    (trailed L).Outlined ⟨false, o.first, .comment :: o.next⟩ where
  functional := by
    intro u a b ha hb
    obtain ⟨v, w, rfl, hv, hw⟩ := trailed_iff.mp ha
    obtain ⟨v', w', heq, hv', hw'⟩ := trailed_iff.mp hb
    exact h.trailed_functional hv hw hv' hw' heq
  viable := by
    obtain ⟨v, a, hv, hvl⟩ := h.viable
    refine ⟨v, a, trailed_iff.mpr ⟨v, [], (List.append_nil v).symm, hv, ?_⟩, hvl⟩
    intro l hl
    contradiction
  empty := by
    intro a ha
    obtain ⟨v, w, heq, hv, -⟩ := trailed_iff.mp ha
    obtain ⟨rfl, -⟩ := List.append_eq_nil_iff.mp heq.symm
    exact absurd hv (h.solid ho)
  first := by
    intro l hl
    obtain ⟨s, a, ha⟩ := hl
    obtain ⟨v, w, heq, hv, -⟩ := trailed_iff.mp ha
    obtain ⟨m, v, rfl⟩ := List.exists_cons_of_ne_nil (h.ne_nil ho hv)
    cases heq
    exact h.first ⟨v, a, hv⟩
  next := by
    intro u a l ha hl
    obtain ⟨v, w, rfl, hv, hw⟩ := trailed_iff.mp ha
    cases hcomment : l.node.isComment with
    | true => simp [Token.isComment_iff.mp hcomment]
    | false =>
      -- the longer sentence takes `l` in, and with it all comments before `l`
      have hlong := begins_of_trailed hcomment hl
      exact List.mem_cons_of_mem _ (h.next (h.absorbs_all hv hw hlong.of_append) hlong)
  absorbs := by
    intro u a l ha hl _
    obtain ⟨v, w, rfl, hv, hw⟩ := trailed_iff.mp ha
    refine trailed_iff.mpr ⟨v, w ++ [l], by rw [List.append_assoc], hv, ?_⟩
    intro m hm
    rcases List.mem_append.mp hm with hm | hm
    · exact hw m hm
    · rw [List.mem_singleton.mp hm]
      exact hl

end KarelKit.Language.Outlined
