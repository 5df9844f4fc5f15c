import KarelKit.Proofs.Rule.Attempt

namespace KarelKit.Rule

variable {α σ : Type} {r : Rule α} {c : Cursor} {n : Nat}

/-- With fewer than `n` tokens ahead, the whole is one round after another. Each round that is not
the last one takes tokens. -/
structure Unrolls (round : σ → Rule (σ ⊕ α)) (whole : σ → Rule α) (n : Nat) : Prop where
  unroll {x : σ} {c : Cursor} (hc : c.size < n) :
    whole x c = (round x >>= Sum.elim whole pure) c
  progress {x y : σ} {c c' : Cursor} (hc : c.size < n) (h : round x c = .ok (.inl y) c') :
    c'.size < c.size

/-- One more item, or all of them if there is none. -/
def itemRound (r : Rule α) (items : List α) : Rule (List α ⊕ List α) := do
  skipComments
  match ← attempt (trailed r) with
  | .ok a => return .inl (items ++ [a])
  | .error _ => return .inr items

/-- The items read so far and all that follow. -/
def itemsFrom (r : Rule α) (items : List α) : Rule (List α) := do
  skipComments
  return items ++ (← many (trailed r))

theorem items_unroll (hr : (trailed r).Advances n) : Unrolls (itemRound r) (itemsFrom r) n where
  unroll {items c} hc := by
    have hskip : c.skipComments.size < n := Nat.lt_of_le_of_lt (Nat.sub_le ..) hc
    unfold itemsFrom itemRound
    simp only [bind_apply, skipComments_apply]
    rw [many_apply hr hskip, bind_apply]
    cases hitem : attempt (trailed r) c.skipComments with
    | error e c' => rfl
    | ok x c' =>
      obtain ⟨a, rfl, ha⟩ | ⟨e, rfl, -, -⟩ := attempt_cases hitem
      -- no comment is left behind an item, so passing comments again changes nothing
      · simp only [bind_apply, pure_apply, Sum.elim_inl, skipComments_apply,
          (trailed_endsClear r).ok ha]
        cases many (trailed r) c' with
        | ok rest c'' => simp only [List.append_assoc, List.singleton_append]
        | error e c'' => rfl
      · simp only [pure_apply, List.append_nil, Sum.elim_inr]
  progress {items items' c c'} hc h := by
    have hskip : c.skipComments.size ≤ c.size := Nat.sub_le ..
    obtain ⟨_, _, hcomments, h⟩ := exists_of_bind h
    cases hcomments
    obtain ⟨x, c'', hitem, h⟩ := exists_of_bind h
    obtain ⟨a, rfl, ha⟩ | ⟨e, rfl, -, -⟩ := attempt_cases hitem
    · cases h
      exact Nat.lt_of_lt_of_le (hr.ok (Nat.lt_of_le_of_lt hskip hc) ha) hskip
    · cases h

/-- Where no comment stands ahead at first, none does at last. -/
theorem many_trailed_clear (hr : (trailed r).Advances n) (hclean : (trailed r).FailsCleanly n)
    (hc : c.size < n) {c' : Cursor} {items : List α} (hclear : c.skipComments = c)
    (h : many (trailed r) c = .ok items c') : c'.skipComments = c' := by
  induction hsize : c.size using Nat.strong_induction_on generalizing c items with
  | _ size ih =>
    rw [many_apply hr hc] at h
    obtain ⟨x, c'', hitem, hitems⟩ := exists_of_bind h
    obtain ⟨a, rfl, ha⟩ | ⟨e, rfl, he, hrefused⟩ := attempt_cases hitem
    · have hadvance := hr.ok hc ha
      obtain ⟨rest, _, hrest, hpure⟩ := exists_of_bind hitems
      cases hpure
      exact ih c''.size (by omega) (by omega) ((trailed_endsClear r).ok ha) hrest rfl
    · obtain ⟨u, past, -, -⟩ := hclean.error hc he
      obtain rfl := past.size_eq_iff.mp hrefused
      obtain rfl := past.eq_of_nil
      cases hitems
      exact hclear

/-- One more item behind a mark, or all of them if there is no mark. -/
def furtherRound (m : Mark) (r : Rule α) (items : List α) : Rule (List α ⊕ List α) := do
  if (← peek) = some (.mark m) then
    mark m
    let a ← r
    return .inl (items ++ [a])
  else return .inr items

/-- The items read so far and those behind further marks. -/
def furtherFrom (m : Mark) (r : Rule α) (items : List α) : Rule (List α) := do
  return items ++ (← many do mark m; r)

theorem further_unroll {m : Mark} (hr : r.FailsCleanly n)
    (hadvance : (mark m >>= fun _ => r).Advances n) :
    Unrolls (furtherRound m r) (furtherFrom m r) n where
  unroll {items c} hc := by
    unfold furtherFrom furtherRound
    simp only [bind_apply, peek]
    rw [many_apply hadvance hc, bind_apply]
    by_cases hmark : c.ahead.head?.map (·.node) = some (.mark m)
    · have htakes := mark_takes hmark
      have hsize := ((Parses.mark m).advances rfl).ok hc htakes
      simp only [if_pos hmark, bind_apply, htakes]
      have hitem : (mark m >>= fun _ => r) c = r c.take.skipComments := by
        rw [bind_apply, htakes]
      cases hfirst : r c.take.skipComments with
      | ok a c' =>
        rw [attempt_ok (hitem.trans hfirst)]
        simp only [bind_apply, pure_apply, Sum.elim_inl]
        cases many (mark m >>= fun _ => r) c' with
        | ok rest c'' => simp only [List.append_assoc, List.singleton_append]
        | error e c'' => rfl
      | error e c' =>
        -- the mark has been taken, so this is no refusal
        obtain ⟨u, past, -, -⟩ := hr.error (Nat.lt_trans hsize hc) hfirst
        have hle := Parses.size_le past
        rw [attempt_failed (hitem.trans hfirst) (by omega)]
    · have hitem : (mark m >>= fun _ => r) c = .error (c.unexpected [.mark m]) c := by
        rw [bind_apply, mark_refuses hmark]
      rw [attempt_refused hitem rfl, if_neg hmark]
      simp only [pure_apply, List.append_nil, Sum.elim_inr]
  progress {items items' c c'} hc h := by
    obtain ⟨_, _, hpeek, h⟩ := exists_of_bind h
    cases hpeek
    by_cases hmark : c.ahead.head?.map (·.node) = some (.mark m)
    · rw [if_pos hmark] at h
      obtain ⟨_, c₁, hm, h⟩ := exists_of_bind h
      obtain ⟨a, c₂, ha, h⟩ := exists_of_bind h
      cases h
      refine hadvance.ok (a := a) hc ?_
      rw [bind_apply, hm]
      exact ha
    · rw [if_neg hmark] at h
      cases h

/-- Reads by `r` only where fewer than `size` tokens are ahead. -/
def below (size : Nat) (r : Rule α) : Rule α := fun c => if c.size < size then r c else fail [] c

theorem below_apply (hc : c.size < n) : below n r c = r c := if_pos hc

theorem recursive_apply (f : Rule α → Rule α) (c : Cursor) :
    recursive f c = f (below c.size (recursive f)) c := by
  change recursiveFrom f c = _
  rw [recursiveFrom.eq_1]
  rfl

protected theorem Parses.below {L : Language α} {o : Outline} (hr : r.Parses L o n) :
    (below n r).Parses L o n := by
  refine ⟨hr.outlined, fun {c} hc => ?_⟩
  rw [below_apply hc]
  exact hr.follows hc

end KarelKit.Rule
