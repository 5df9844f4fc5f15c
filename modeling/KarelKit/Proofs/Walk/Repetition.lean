import KarelKit.Proofs.Walk.Performs

namespace KarelKit.Walk.Performs

variable {α β : Type} {r : Walk α} {s : Rule α} {n : Nat} {text : Lexed} {w : Walker}

/-- After comments none is left ahead. -/
theorem comments_bind {f : Unit → Walk β} {g : Rule β}
    (hf : ∀ {text w}, w.index ≤ text.last → (text.cursor w).size < n →
      (text.cursor w).skipComments = text.cursor w → (f ()).Gives text w (g (text.cursor w))) :
    (passComments >>= f).Performs (Rule.skipComments >>= fun _ => g) n := by
  refine ⟨fun {text w} hw hn => ?_⟩
  refine (Performs.passComments.gives hw hn).bind hw fun {_ w'} h hle hw' => ?_
  apply hf hw' (Nat.lt_of_le_of_lt (Lexed.size_le_of_index_le hle) hn)
  rw [← (Outcome.ok.inj h).2]
  exact Rule.skipComments_skipComments _

theorem trailing (hr : r.Performs s n) :
    (r >>= fun a => passComments >>= fun _ => pure a).Performs (Rule.trailed s) n :=
  hr.bind fun a => Performs.passComments.map fun _ => a

theorem amidComments_clear (hr : r.Performs s n) (hw : w.index ≤ text.last)
    (hn : (text.cursor w).size < n) (hclear : (text.cursor w).skipComments = text.cursor w) :
    (amidComments r).Gives text w (Rule.trailed s (text.cursor w)) := by
  have h := (Performs.passComments.bind fun _ => hr.trailing).gives hw hn
  rwa [Rule.bind_apply, Rule.skipComments_apply, hclear] at h

protected theorem many (hr : r.Performs s n) (hs : (Rule.trailed s).FailsCleanly n)
    (hadvance : (Rule.trailed s).Advances n) :
    (many (amidComments r)).Performs
      (Rule.skipComments >>= fun _ => Rule.many (Rule.trailed s)) n := by
  have hloop : (many (amidComments r)).Performs (Rule.itemsFrom s []) n := by
    refine Performs.loop (fun items => ?_) (Rule.items_unroll hadvance) []
    refine comments_bind fun {text w} hw hn hclear => ?_
    refine ((amidComments_clear hr hw hn hclear).attempt hs hw hn).bind hw fun {x w'} _ _ _ => ?_
    cases x with
    | ok a => exact Gives.pure (Sum.inl (items ++ [a]))
    | error e => exact Gives.pure (Sum.inr items)
  refine hloop.congr fun {c} _ => ?_
  unfold Rule.itemsFrom
  simp only [Rule.bind_apply, Rule.skipComments_apply]
  cases Rule.many (Rule.trailed s) c.skipComments with
  | ok items c' => rfl
  | error e c' => rfl

protected theorem atLeastOne (hr : r.Performs s n) (hs : (Rule.trailed s).FailsCleanly n)
    (hadvance : (Rule.trailed s).Advances n) :
    (atLeastOne (amidComments r)).Performs
      (Rule.skipComments >>= fun _ => Rule.atLeastOne (Rule.trailed s)) n := by
  refine comments_bind fun {text w} hw hn hclear => ?_
  refine ((amidComments_clear hr hw hn hclear).required hs hw hn).bind hw fun {a w'} h hle hw' => ?_
  have hn' := Nat.lt_of_le_of_lt (Lexed.size_le_of_index_le hle) hn
  have hitems := ((hr.many hs hadvance).map (a :: ·)).gives hw' hn'
  rwa [Rule.bind_assoc, Rule.bind_apply, Rule.skipComments_apply,
    (Rule.trailed_endsClear s).ok h] at hitems

protected theorem continued {m : Mark} (hr : r.Performs s n) (hs : s.FailsCleanly n)
    (hadvance : (Rule.mark m >>= fun _ => s).Advances n) (items : List α) :
    (continued m r items).Performs (Rule.furtherFrom m s items) n := by
  refine Performs.loop (fun items => ?_) (Rule.further_unroll hs hadvance) items
  refine look_bind fun l => ?_
  split
  · exact (Performs.mark m).bind fun _ => hr.map fun a => Sum.inl (items ++ [a])
  · exact Performs.pure _

protected theorem separated {m : Mark} (hr : r.Performs s n) (hs : s.FailsCleanly n)
    (hadvance : (Rule.mark m >>= fun _ => s).Advances n) :
    (separated r m).Performs (Rule.separated s (Rule.mark m)) n := by
  refine (hr.optional hs).bind fun item => ?_
  cases item with
  | none => exact Performs.pure []
  | some a => exact (hr.required hs).continued hs hadvance [a]

end KarelKit.Walk.Performs
