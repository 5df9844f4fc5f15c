import KarelKit.Proofs.Rule.Follows
import KarelKit.Proofs.Walk.Log

namespace KarelKit

variable {α β σ : Type}

def Run.outcome (text : Lexed) (run : Run α) : Outcome α :=
  match run.result with
  | .ok a => .ok a (text.cursor run.walker)
  | .error e => .error e (text.cursor run.walker)

/-- From `w` there is a single run. It ends in the outcome `o`, and its log is in order. -/
def Walk.Gives (r : Walk α) (text : Lexed) (w : Walker) (o : Outcome α) : Prop :=
  ∃ run : Run α, run.outcome text = o ∧ Orderly text w.index run.log run.walker.index ∧
    ∀ run', r text w run' ↔ run' = run

/-- With fewer than `n` tokens ahead the walk gives the outcome of the rule. -/
structure Walk.Performs (r : Walk α) (s : Rule α) (n : Nat) : Prop where
  gives {text : Lexed} {w : Walker} (hw : w.index ≤ text.last) (hn : (text.cursor w).size < n) :
    r.Gives text w (s (text.cursor w))

namespace Walk

variable {r : Walk α} {f : α → Walk β} {s : Rule α} {g : α → Rule β} {text : Lexed} {w w' : Walker}
  {o : Outcome α} {o' : Outcome β} {n : Nat}

theorem bind_ok_iff {log : List Event} {a : α} (h : ∀ run, r text w run ↔ run = ⟨log, .ok a, w'⟩)
    {run : Run β} : (r >>= f) text w run ↔
      ∃ rest, f a text w' rest ∧ run = ⟨log ++ rest.log, rest.result, rest.walker⟩ := by
  constructor
  · intro hrun
    cases hrun with
    | ok first next =>
      have heq := (h _).mp first
      cases heq
      exact ⟨_, next, rfl⟩
    | error first =>
      have heq := (h _).mp first
      cases heq
  · rintro ⟨rest, hrest, rfl⟩
    exact .ok ((h _).mpr rfl) hrest

theorem bind_error_iff {log : List Event} {e : ParseError}
    (h : ∀ run, r text w run ↔ run = ⟨log, .error e, w'⟩) {run : Run β} :
    (r >>= f) text w run ↔ run = ⟨log, .error e, w'⟩ := by
  constructor
  · intro hrun
    cases hrun with
    | ok first next =>
      have heq := (h _).mp first
      cases heq
    | error first =>
      have heq := (h _).mp first
      cases heq
      rfl
  · rintro rfl
    exact .error ((h _).mpr rfl)

theorem loop_iff {body : σ → Walk (σ ⊕ α)} {x : σ} {first : Run (σ ⊕ α)}
    (h : ∀ run, body x text w run ↔ run = first) {run : Run α} :
    loop body x text w run ↔
      (∃ a, first.result = .ok (.inr a) ∧ run = ⟨first.log, .ok a, first.walker⟩) ∨
      (∃ e, first.result = .error e ∧ run = ⟨first.log, .error e, first.walker⟩) ∨
      ∃ y rest, first.result = .ok (.inl y) ∧ loop body y text first.walker rest ∧
        run = ⟨first.log ++ .round w.index first.walker.index :: rest.log, rest.result,
          rest.walker⟩ := by
  have hfirst := (h first).mpr rfl
  obtain ⟨log, result, w'⟩ := first
  -- the first round has one run only, so it decides which constructor made the loop's run
  constructor
  · intro hrun
    cases hrun with
    | done round =>
      have heq := (h _).mp round
      cases heq
      exact Or.inl ⟨_, rfl, rfl⟩
    | failed round =>
      have heq := (h _).mp round
      cases heq
      exact Or.inr (Or.inl ⟨_, rfl, rfl⟩)
    | again round rest =>
      have heq := (h _).mp round
      cases heq
      exact Or.inr (Or.inr ⟨_, _, rfl, rest, rfl⟩)
  · rintro (⟨a, rfl, rfl⟩ | ⟨e, rfl, rfl⟩ | ⟨y, rest, rfl, hrest, rfl⟩)
    · exact .done hfirst
    · exact .failed hfirst
    · exact .again hfirst hrest

namespace Gives

/-- A step alone, as the first part of a walk. -/
theorem step_bind {first : Lexed → Walker → Run α} {log : List Event} {a : α}
    (hfirst : first text w = ⟨log, .ok a, w'⟩) (hlog : Orderly text w.index log w'.index)
    (hf : (f a).Gives text w' o') : (step first >>= f).Gives text w o' := by
  obtain ⟨run, hrun, horder, hunique⟩ := hf
  refine ⟨⟨log ++ run.log, run.result, run.walker⟩, hrun, hlog.append horder, fun run' => ?_⟩
  have hstep : ∀ run, step first text w run ↔ run = ⟨log, .ok a, w'⟩ := by
    intro run
    rw [← hfirst]
    rfl
  simp only [bind_ok_iff hstep, hunique, exists_eq_left]

protected theorem pure (a : α) : (pure a : Walk α).Gives text w (.ok a (text.cursor w)) :=
  ⟨⟨[], .ok a, w⟩, rfl, .nil, fun _ => Iff.rfl⟩

protected theorem fail (e : ParseError) :
    (fail e : Walk α).Gives text w (.error e (text.cursor w)) :=
  ⟨⟨[], .error e, w⟩, rfl, .nil, fun _ => Iff.rfl⟩

theorem walker_bind {f : Walker → Walk β} (hf : (f w).Gives text w o') :
    (walker >>= f).Gives text w o' :=
  step_bind rfl .nil hf

theorem note_bind {f : Unit → Walk β} {e : Event} (sound : e.Sound text) (here : e.index = w.index)
    (since : w.index ≤ e.since) (still : e.moved? = none) (hf : (f ()).Gives text w o') :
    (note e >>= f).Gives text w o' :=
  step_bind rfl (.single sound here since still) hf

theorem look_bind {f : Located (Option Token) → Walk β} (hw : w.index ≤ text.last)
    (hf : (f (text.look w.index)).Gives text w o') : (look >>= f).Gives text w o' :=
  step_bind rfl (.single hw rfl (Nat.le_refl _) rfl) hf

theorem ahead_bind {f : Option Token → Walk β} {k : Nat} (hw : w.index ≤ text.last)
    (hf : (f (text.look (w.index + k)).node).Gives text w o') : (ahead k >>= f).Gives text w o' :=
  step_bind rfl (.single hw rfl (Nat.le_refl _) rfl) hf

theorem take_bind {f : Unit → Walk β} {l : Lexeme} (hl : text.lexemes[w.index]? = some l)
    (hf : (f ()).Gives text ⟨w.index + 1, l.range.stop⟩ o') : (take >>= f).Gives text w o' := by
  have hlt := Lexed.lt_last_of_lexeme hl
  have hlog : Orderly text w.index [.take w.index] (w.index + 1) := .single_move hlt rfl
  refine step_bind ?_ hlog hf
  rw [if_pos hlt, Lexed.look_lexeme hl]

theorem pass_bind {f : Unit → Walk β} {l : Lexeme} (hl : text.lexemes[w.index]? = some l)
    (hcomment : l.node.isComment = true) (hf : (f ()).Gives text ⟨w.index + 1, w.lastEnd⟩ o') :
    (pass >>= f).Gives text w o' :=
  step_bind rfl (.single_move ⟨l, hl, hcomment⟩ rfl) hf

theorem exists_ok {a : α} {c : Cursor} (h : r.Gives text w (.ok a c)) :
    ∃ log w', c = text.cursor w' ∧ Orderly text w.index log w'.index ∧
      ∀ run, r text w run ↔ run = ⟨log, .ok a, w'⟩ := by
  obtain ⟨⟨log, result, w'⟩, hrun, horder, hunique⟩ := h
  cases result with
  | error e => contradiction
  | ok a' =>
    cases hrun
    exact ⟨log, w', rfl, horder, hunique⟩

theorem exists_error {e : ParseError} {c : Cursor} (h : r.Gives text w (.error e c)) :
    ∃ log w', c = text.cursor w' ∧ Orderly text w.index log w'.index ∧
      ∀ run, r text w run ↔ run = ⟨log, .error e, w'⟩ := by
  obtain ⟨⟨log, result, w'⟩, hrun, horder, hunique⟩ := h
  cases result with
  | ok a => contradiction
  | error e' =>
    cases hrun
    exact ⟨log, w', rfl, horder, hunique⟩

theorem bind_error {e : ParseError} {c : Cursor} (hr : r.Gives text w (.error e c)) :
    (r >>= f).Gives text w (.error e c) := by
  obtain ⟨log, w', rfl, horder, hunique⟩ := hr.exists_error
  exact ⟨⟨log, .error e, w'⟩, rfl, horder, fun _ => bind_error_iff hunique⟩

theorem bind_ok {a : α} {c : Cursor} (hr : r.Gives text w (.ok a c))
    (hf : ∀ {w'}, c = text.cursor w' → w.index ≤ w'.index →
      (w.index ≤ text.last → w'.index ≤ text.last) → (f a).Gives text w' o') :
    (r >>= f).Gives text w o' := by
  obtain ⟨log, w', rfl, horder, hunique⟩ := hr.exists_ok
  obtain ⟨run, hrun, horder', hunique'⟩ := hf rfl horder.le horder.le_last
  refine ⟨⟨log ++ run.log, run.result, run.walker⟩, hrun, horder.append horder', fun run' => ?_⟩
  simp only [bind_ok_iff hunique, hunique', exists_eq_left]

theorem bind (hw : w.index ≤ text.last) (hr : r.Gives text w (s (text.cursor w)))
    (hf : ∀ {a w'}, s (text.cursor w) = .ok a (text.cursor w') → w.index ≤ w'.index →
      w'.index ≤ text.last → (f a).Gives text w' (g a (text.cursor w'))) :
    (r >>= f).Gives text w ((s >>= g) (text.cursor w)) := by
  rw [Rule.bind_apply]
  cases hs : s (text.cursor w) with
  | error e c =>
    rw [hs] at hr
    exact hr.bind_error
  | ok a c =>
    rw [hs] at hr
    refine hr.bind_ok fun {w'} hc hle hlast => ?_
    subst hc
    exact hf hs hle (hlast hw)

theorem loop_done {body : σ → Walk (σ ⊕ α)} {x : σ} {a : α} {c : Cursor}
    (hbody : (body x).Gives text w (.ok (.inr a) c)) : (loop body x).Gives text w (.ok a c) := by
  obtain ⟨log, w', rfl, horder, hunique⟩ := hbody.exists_ok
  refine ⟨⟨log, .ok a, w'⟩, rfl, horder, fun run' => ?_⟩
  simp [loop_iff hunique]

theorem loop_failed {body : σ → Walk (σ ⊕ α)} {x : σ} {e : ParseError} {c : Cursor}
    (hbody : (body x).Gives text w (.error e c)) :
    (loop body x).Gives text w (.error e c) := by
  obtain ⟨log, w', rfl, horder, hunique⟩ := hbody.exists_error
  refine ⟨⟨log, .error e, w'⟩, rfl, horder, fun run' => ?_⟩
  simp [loop_iff hunique]

theorem loop_again {body : σ → Walk (σ ⊕ α)} {x y : σ} {c : Cursor}
    (hbody : (body x).Gives text w (.ok (.inl y) c)) (hsize : c.size < (text.cursor w).size)
    (hrest : ∀ {w'}, c = text.cursor w' → (w.index ≤ text.last → w'.index ≤ text.last) →
      (loop body y).Gives text w' o) : (loop body x).Gives text w o := by
  obtain ⟨log, w', rfl, horder, hunique⟩ := hbody.exists_ok
  obtain ⟨run, hrun, horder', hunique'⟩ := hrest rfl horder.le_last
  have hround : (Event.round w.index w'.index).Sound text := Lexed.index_lt_of_size_lt hsize
  have hlog : Orderly text w.index (log ++ .round w.index w'.index :: run.log)
      run.walker.index := by
    rw [List.append_cons]
    exact (Orderly.stay horder hround rfl (Nat.le_refl _) rfl).append horder'
  refine ⟨⟨log ++ .round w.index w'.index :: run.log, run.result, run.walker⟩, hrun, hlog,
    fun run' => ?_⟩
  simp [loop_iff hunique, hunique']

theorem heard_ok {a : α} {c : Cursor} (hr : r.Gives text w (.ok a c)) :
    (heard r).Gives text w (.ok (.ok a) c) := by
  obtain ⟨log, w', rfl, horder, hunique⟩ := hr.exists_ok
  refine ⟨⟨log, .ok (.ok a), w'⟩, rfl, horder, fun run' => ?_⟩
  constructor
  · intro h
    cases h with
    | ok run =>
      have heq := (hunique _).mp run
      cases heq
      rfl
    | error run =>
      have heq := (hunique _).mp run
      cases heq
  · rintro rfl
    exact .ok ((hunique _).mpr rfl)

theorem heard_error {e : ParseError} {c : Cursor} (hr : r.Gives text w (.error e c))
    (sound : ∀ {w'}, c = text.cursor w' → (w.index ≤ text.last → w'.index ≤ text.last) →
      (Event.failed w w' e).Sound text) :
    (heard r).Gives text w (.ok (.error e) c) := by
  obtain ⟨log, w', rfl, horder, hunique⟩ := hr.exists_error
  refine ⟨⟨log ++ [.failed w w' e], .ok (.error e), w'⟩, rfl,
    .stay horder (sound rfl horder.le_last) rfl (Nat.le_refl _) rfl, fun run' => ?_⟩
  constructor
  · intro h
    cases h with
    | ok run =>
      have heq := (hunique _).mp run
      cases heq
    | error run =>
      have heq := (hunique _).mp run
      cases heq
      rfl
  · rintro rfl
    exact .error ((hunique _).mpr rfl)

end Gives

end Walk

end KarelKit
