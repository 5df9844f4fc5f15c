import KarelKit.Proofs.Rule.Repetition

namespace KarelKit

open KarelKit.Language (Outlined)

/-- What an expectation describes. The expectations on characters describe no token. -/
inductive Expectation.Describes : Expectation → Found → Prop
  | keyword {k : Keyword} {word : String} (h : isKeyword k word = true) :
    Describes (.keyword k) (.token (.word word))
  | mark (m : Mark) : Describes (.mark m) (.token (.mark m))
  | name {word : String} (h : isReserved word = false) : Describes .name (.token (.word word))
  | typeName {word : String} (h : isReserved word = false ∨ isBuiltinType word = true) :
    Describes .typeName (.token (.word word))
  | positionType {word : String} (h : isReserved word = false) :
    Describes .positionType (.token (.word word))
  | sizeLiteral (value : Int) : Describes .arraySize (.token (.integer value))
  | sizeName {word : String} (h : isReserved word = false) :
    Describes .arraySize (.token (.word word))
  | unsignedInteger {value : Nat} (h : value < 0x100000000) :
    Describes .unsignedInteger (.token (.integer value))
  | integer (value : Int) : Describes .number (.token (.integer value))
  | real (literal : String) : Describes .number (.token (.real literal))
  | string (content : String) : Describes .string (.token (.string content))
  | boolean {word : String} (h : isKeyword .TRUE word = true ∨ isKeyword .FALSE word = true) :
    Describes .boolean (.token (.word word))
  | endOfInput : Describes .endOfInput .endOfInput

/-- What can stand in a text. -/
def Found.Legible : Found → Prop
  | token t => t.Legible
  | _ => True

variable {α β : Type}

/-- Tokens are described, and behind `u` a sentence of `L` can go on with each of them. -/
structure Language.Welcomes (L : Language α) (u : List Lexeme) (x : Expectation) : Prop where
  described : ∃ t, x.Describes (.token t) ∧ t.Legible
  viable {l : Lexeme} : x.Describes (.token l.node) → l.node.Legible → L.Viable (u ++ [l])

theorem Language.Welcomes.mono {L : Language α} {M : Language β} {u v : List Lexeme}
    {x : Expectation} (h : L.Welcomes u x) (hM : ∀ l, L.Viable (u ++ [l]) → M.Viable (v ++ [l])) :
    M.Welcomes v x :=
  ⟨h.described, fun hl hlegible => hM _ (h.viable hl hlegible)⟩

/-- The outcome at `c` of reading a sentence of `L`, or of a failure that names only what could have
stood in its place. -/
inductive Outcome.Guides (L : Language α) (c : Cursor) : Outcome α → Prop
  | ok {u : List Lexeme} {a : α} {c' : Cursor} (past : c.Past u c') (sentence : L u a) :
    Guides L c (.ok a c')
  | error {u : List Lexeme} {expected : List Expectation} {c' : Cursor} (past : c.Past u c')
    (named : expected ≠ []) (usable : ∀ x ∈ expected, L.Welcomes u x) :
    Guides L c (.error (c'.unexpected expected) c')

/-- With fewer than `n` tokens ahead, a failure of the rule names what could have stood there. -/
structure Rule.Guides (r : Rule α) (L : Language α) (n : Nat) : Prop where
  viable : L.Viable []
  guides {c : Cursor} (h : c.size < n) : (r c).Guides L c

namespace Language

theorem Viable.left {L : Language α} {M : α → Language β} {u : List Lexeme} (h : L.Viable u)
    (hM : ∀ a, (M a).Viable []) : (L >>= M).Viable u := by
  obtain ⟨v, a, hv, hvl⟩ := h
  obtain ⟨w, b, hw, hwl⟩ := hM a
  refine ⟨v ++ w, b, ?_, fun l hl => (List.mem_append.mp hl).elim (hvl l) (hwl l)⟩
  rw [← List.append_assoc]
  exact bind_intro hv hw

theorem Viable.right {L : Language α} {M : α → Language β} {u v : List Lexeme} {a : α}
    (hu : L u a) (hv : (M a).Viable v) : (L >>= M).Viable (u ++ v) := by
  obtain ⟨w, b, hw, hwl⟩ := hv
  exact ⟨w, b, by rw [List.append_assoc]; exact bind_intro hu hw, hwl⟩

theorem Viable.imp {L : Language α} {M : Language β} {f : α → β} {u : List Lexeme}
    (h : L.Viable u) (hM : ∀ {u a}, L u a → M u (f a)) : M.Viable u := by
  obtain ⟨v, a, hv, hvl⟩ := h
  exact ⟨v, f a, hM hv, hvl⟩

theorem viable_many {L : Language α} {u : List Lexeme} (h : L.Viable u) : (many L).Viable u := by
  apply h.imp (f := fun a => [a])
  intro u a hu
  rw [← List.append_nil u]
  exact .cons hu .nil

theorem Viable.cons_many {L : Language α} {u v : List Lexeme} {a : α}
    (hv : (many L).Viable v) (hu : L u a) : (many L).Viable (u ++ v) := by
  obtain ⟨w, items, hw, hwl⟩ := hv
  exact ⟨w, a :: items, by rw [List.append_assoc]; exact .cons hu hw, hwl⟩

end Language

/-- Where it is known by other means which sentences are read, another language may take what is
welcome. -/
theorem Outcome.Guides.of_follows {L M : Language α} {c : Cursor} {rc : Outcome α}
    (h : rc.Guides L c) (hM : rc.Follows M c) (hLM : ∀ {u}, L.Viable u → M.Viable u) :
    rc.Guides M c := by
  cases h with
  | ok past sentence =>
    cases hM with
    | ok past' _ sentence' => exact .ok past' sentence'
  | error past named usable =>
    exact .error past named fun x hx => (usable x hx).mono fun _ => hLM

namespace Rule.Guides

variable {r s : Rule α} {f : α → Rule β} {L L' : Language α} {M : α → Language β} {o : Outline}
  {c : Cursor} {n : Nat}

protected theorem pure (a : α) : (pure a : Rule α).Guides (pure a) n :=
  ⟨(Outlined.pure a).viable, fun {c} _ => .ok (.refl c) ⟨rfl, rfl⟩⟩

protected theorem accept {x : Expectation} {read : Token → Option α}
    (hcomment : ∀ t a, read t = some a → t.isComment = false)
    (hread : ∀ t, x.Describes (.token t) → ∃ a, read t = some a)
    (hlegible : ∃ t, x.Describes (.token t) ∧ t.Legible) :
    (accept x read).Guides (Language.one read) n := by
  have hwelcomes : (Language.one read).Welcomes [] x := by
    refine ⟨hlegible, fun {l} hl _ => ?_⟩
    obtain ⟨a, ha⟩ := hread l.node hl
    exact Language.viable_of_sentence ⟨l, rfl, ha⟩
  have hviable : (Language.one read).Viable [] := by
    obtain ⟨t, ht, htl⟩ := hlegible
    obtain ⟨a, ha⟩ := hread t ht
    refine ⟨[⟨t, .between .first .first⟩], a, ⟨_, rfl, ha⟩, ?_⟩
    intro l hl
    rwa [List.mem_singleton.mp hl]
  refine ⟨hviable, fun {c} _ => ?_⟩
  unfold Rule.accept
  cases hahead : c.ahead.head?.bind fun l => read l.node with
  | none =>
    apply Outcome.Guides.error (.refl c) (List.cons_ne_nil x [])
    intro y hy
    rwa [List.mem_singleton.mp hy]
  | some a =>
    obtain ⟨l, hl, ha⟩ := Option.bind_eq_some_iff.mp hahead
    obtain ⟨tail, htail⟩ := List.head?_eq_some_iff.mp hl
    exact .ok (.take htail (hcomment _ _ ha)) ⟨l, rfl, ha⟩

protected theorem skipComments : skipComments.Guides Language.comments n :=
  ⟨Outlined.comments.viable, fun {c} _ => .ok (.skipComments c) (Language.takeWhile_comments _)⟩

theorem bind_guides (hr : (r c).Guides L c) (hM : ∀ a, (M a).Viable [])
    (hf : ∀ {u a c'}, L u a → c.Past u c' → (f a c').Guides (M a) c') :
    ((r >>= f) c).Guides (L >>= M) c := by
  rw [bind_apply]
  generalize r c = rc at hr
  cases hr with
  | @ok u a c' past sentence =>
    have hfc := hf sentence past
    simp only
    generalize f a c' = fc at hfc
    cases hfc with
    | ok past' sentence' =>
      exact .ok (past.trans past') (Language.bind_intro sentence sentence')
    | error past' named usable =>
      apply Outcome.Guides.error (past.trans past') named
      intro x hx
      apply (usable x hx).mono
      intro l hl
      rw [List.append_assoc]
      exact Language.Viable.right sentence hl
  | error past named usable =>
    exact .error past named fun x hx => (usable x hx).mono fun _ hl => hl.left hM

protected theorem bind (hr : r.Guides L n) (hf : ∀ a, (f a).Guides (M a) n) :
    (r >>= f).Guides (L >>= M) n := by
  refine ⟨hr.viable.left fun a => (hf a).viable, fun {c} hc => ?_⟩
  apply bind_guides (hr.guides hc) fun a => (hf a).viable
  intro u a c' _ past
  exact (hf a).guides (Nat.lt_of_le_of_lt (Parses.size_le past) hc)

/-- After a part that is never empty, the next one has fewer tokens to read. -/
theorem bind_solid (hr : r.Guides L (n + 1)) (hL : ∀ a, ¬L [] a)
    (hf : ∀ a, (f a).Guides (M a) n) : (r >>= f).Guides (L >>= M) (n + 1) := by
  refine ⟨hr.viable.left fun a => (hf a).viable, fun {c} hc => ?_⟩
  apply bind_guides (hr.guides hc) fun a => (hf a).viable
  intro u a c' hu past
  have hlength : 0 < u.length := by
    apply List.length_pos_iff.mpr
    rintro rfl
    exact hL a hu
  have hsize := past.size
  exact (hf a).guides (by omega)

protected theorem map (hr : r.Guides L n) (f : α → β) :
    (r >>= fun a => pure (f a)).Guides (L >>= fun a => pure (f a)) n :=
  hr.bind fun a => Guides.pure (f a)

/-- A failure is a refusal exactly if no token has been taken. -/
theorem orElse_guides (hr : (r c).Guides L c) (hs : (s c).Guides L' c) :
    ((r <|> s) c).Guides (L <|> L') c := by
  change (Rule.orElse r s c).Guides _ c
  unfold Rule.orElse
  have hleft : ∀ {u}, L.Viable u → (L <|> L').Viable u := fun h => h.imp (f := id) Or.inl
  have hright : ∀ {u}, L'.Viable u → (L <|> L').Viable u := fun h => h.imp (f := id) Or.inr
  generalize r c = rc at hr
  cases hr with
  | ok past sentence => exact .ok past (Or.inl sentence)
  | @error u expected c' past named usable =>
    simp only [past.size_eq_iff]
    by_cases hu : u = []
    · subst hu
      obtain rfl := past.eq_of_nil
      simp only [if_true]
      generalize s c' = sc at hs
      cases hs with
      | ok past' sentence => exact .ok past' (Or.inr sentence)
      | @error v expected' c'' past' named' usable' =>
        simp only [past'.size_eq_iff]
        by_cases hv : v = []
        · -- both have refused, and what either expected is named
          subst hv
          obtain rfl := past'.eq_of_nil
          simp only [if_true]
          apply Outcome.Guides.error past' (List.append_ne_nil_of_left_ne_nil named _)
          intro x hx
          rcases List.mem_append.mp hx with hx | hx
          · exact (usable x hx).mono fun _ => hleft
          · exact (usable' x hx).mono fun _ => hright
        · simp only [if_neg hv]
          exact .error past' named' fun x hx => (usable' x hx).mono fun _ => hright
    · simp only [if_neg hu]
      exact .error past named fun x hx => (usable x hx).mono fun _ => hleft

protected theorem orElse (hr : r.Guides L n) (hs : s.Guides L' n) :
    (r <|> s).Guides (L <|> L') n :=
  ⟨hr.viable.imp (f := id) Or.inl, fun hc => orElse_guides (hr.guides hc) (hs.guides hc)⟩

protected theorem optional (hr : r.Guides L n) : (optional r).Guides (Language.optional L) n := by
  refine ⟨Language.viable_of_sentence (a := none) rfl, fun {c} hc => ?_⟩
  have hrc := hr.guides hc
  unfold Rule.optional
  generalize r c = rc at hrc
  cases hrc with
  | @ok u a c' past sentence => exact .ok (a := some a) past sentence
  | @error u expected c' past named usable =>
    simp only [past.size_eq_iff]
    by_cases hu : u = []
    · rw [if_pos hu]
      exact .ok past hu
    · rw [if_neg hu]
      apply Outcome.Guides.error past named
      intro x hx
      exact (usable x hx).mono fun _ hl => hl.imp (f := some) fun h => h

protected theorem many (hr : r.Guides L n) : (many r).Guides (Language.many L) n := by
  refine ⟨Language.viable_of_sentence .nil, fun {c} hc => ?_⟩
  unfold Rule.many
  fun_induction repeatFrom r c with
  | case1 c e c' h hsize =>
    have hrc := hr.guides hc
    rw [h] at hrc
    cases hrc with
    | error past named usable =>
      obtain rfl := past.size_eq_iff.mp hsize
      exact .ok past .nil
  | case2 c e c' h hsize =>
    have hrc := hr.guides hc
    rw [h] at hrc
    cases hrc with
    | error past named usable =>
      exact .error past named fun x hx => (usable x hx).mono fun _ => Language.viable_many
  | case3 c a c' h hsize items c'' htail ih =>
    have hrc := hr.guides hc
    have hrest := ih (by omega)
    rw [h] at hrc
    rw [htail] at hrest
    cases hrc with
    | ok past sentence =>
      cases hrest with
      | ok past' sentence' => exact .ok (past.trans past') (.cons sentence sentence')
  | case4 c a c' h hsize e c'' htail ih =>
    have hrc := hr.guides hc
    have hrest := ih (by omega)
    rw [h] at hrc
    rw [htail] at hrest
    cases hrc with
    | ok past sentence =>
      cases hrest with
      | error past' named usable =>
        apply Outcome.Guides.error (past.trans past') named
        intro x hx
        apply (usable x hx).mono
        intro l hl
        rw [List.append_assoc]
        exact hl.cons_many sentence
  | case5 c a c' h hsize =>
    have hrc := hr.guides hc
    rw [h] at hrc
    cases hrc with
    | ok past sentence =>
      have hone := Language.many.cons sentence (.nil (L := L))
      rw [List.append_nil] at hone
      exact .ok past hone

protected theorem atLeastOne (hr : r.Guides L n) :
    (atLeastOne r).Guides (Language.atLeastOne L) n :=
  hr.bind fun a => hr.many.map (a :: ·)

protected theorem separated {separator : Rule Unit} {S : Language Unit} (hr : r.Guides L n)
    (hs : separator.Guides S n) :
    (separated r separator).Guides (Language.separated L S) n := by
  refine hr.optional.bind fun item => ?_
  cases item with
  | none => exact Guides.pure []
  | some item => exact (hs.bind fun _ => hr).many.map (item :: ·)

protected theorem located (hr : r.Guides L n) (hL : L.Outlined o) (ho : o.empty = false)
    (hcomment : .comment ∉ o.first) : (located r).Guides (Language.located L) n := by
  have hlocated : ∀ {u}, L.Viable u → (Language.located L).Viable u := by
    intro u h
    obtain ⟨v, a, hv, hvl⟩ := h
    exact ⟨v, ⟨a, Language.span _⟩, ⟨hv, rfl⟩, hvl⟩
  refine ⟨hlocated hr.viable, fun {c} hc => ?_⟩
  have hrc := hr.guides hc
  rw [Parses.located_apply, bind_apply]
  generalize r c = rc at hrc
  cases hrc with
  | @ok u a c' past sentence =>
    refine Outcome.Guides.ok past ⟨sentence, ?_⟩
    apply Parses.between_eq_span past (hL.ne_nil ho sentence)
    intro l hl
    obtain ⟨tail, rfl⟩ := List.head?_eq_some_iff.mp hl
    exact hL.isComment_of_begins hcomment ⟨tail, a, sentence⟩
  | error past named usable =>
    exact .error past named fun x hx => (usable x hx).mono fun _ => hlocated

protected theorem trailed (hr : r.Guides L n) :
    (r >>= fun a => skipComments >>= fun _ => pure a).Guides (Language.trailed L) n :=
  hr.bind fun a => Guides.skipComments.map fun _ => a

protected theorem recursive {f : Rule α → Rule α}
    (hf : ∀ r n, r.Guides L n → (f r).Guides L (n + 1)) (hL : L.Viable []) :
    (recursive f).Guides L n := by
  refine ⟨hL, ?_⟩
  intro c hc
  clear hc
  unfold Rule.recursive
  fun_induction recursiveFrom f c with
  | case1 c ih =>
    apply (hf _ c.size ⟨hL, fun {c'} hc' => ?_⟩).guides (Nat.lt_succ_self _)
    rw [if_pos hc']
    exact ih c' hc'

end Rule.Guides
end KarelKit
