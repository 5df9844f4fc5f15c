import KarelKit.Proofs.Token.Terminal
import Mathlib.Data.List.TakeWhile

namespace KarelKit

/-- Which runs of lexemes spell which values. -/
def Language (α : Type) := List Lexeme → α → Prop

namespace Language

variable {α β : Type}

instance : Monad Language where
  pure a := fun u b => u = [] ∧ b = a
  bind L M := fun u b => ∃ v w a, u = v ++ w ∧ L v a ∧ M a w b

theorem bind_intro {L : Language α} {M : α → Language β} {v w : List Lexeme} {a : α} {b : β}
    (hv : L v a) (hw : M a w b) : (L >>= M) (v ++ w) b := ⟨v, w, a, rfl, hv, hw⟩

theorem bind_pure {L : Language α} {f : α → β} {u : List Lexeme} {a : α} (h : L u a) :
    (L >>= fun a => pure (f a)) u (f a) := ⟨u, [], a, (List.append_nil u).symm, h, rfl, rfl⟩

theorem bind_pure_iff {L : Language α} {f : α → β} {u : List Lexeme} {b : β} :
    (L >>= fun a => pure (f a)) u b ↔ ∃ a, L u a ∧ b = f a := by
  constructor
  · intro h
    obtain ⟨v, w, a, rfl, hv, rfl, rfl⟩ := h
    exact ⟨a, by rwa [List.append_nil], rfl⟩
  · intro h
    obtain ⟨a, hu, rfl⟩ := h
    exact bind_pure hu

/-- One lexeme. -/
def one (read : Token → Option α) : Language α := fun u a => ∃ l, u = [l] ∧ read l.node = some a

def comments : Language Unit := fun u _ => ∀ l ∈ u, l.node.isComment = true

instance : OrElse (Language α) where
  orElse L M := fun u a => L u a ∨ M () u a

theorem orElse_iff {L M : Language α} {u : List Lexeme} {a : α} :
    (L <|> M) u a ↔ L u a ∨ M u a := Iff.rfl

theorem orElse_comm (L M : Language α) : (L <|> M) = (M <|> L) := by
  funext u a
  apply propext
  rw [orElse_iff, orElse_iff, or_comm]

def optional (L : Language α) : Language (Option α)
  | u, none => u = []
  | u, some a => L u a

/-- Any number of items, one after the other. -/
inductive many (L : Language α) : Language (List α)
  | nil : many L [] []
  | cons {u v : List Lexeme} {a : α} {items : List α} (head : L u a) (tail : many L v items) :
    many L (u ++ v) (a :: items)

theorem many_append {L : Language α} {u v : List Lexeme} {items items' : List α}
    (h : many L u items) (h' : many L v items') : many L (u ++ v) (items ++ items') := by
  induction h with
  | nil => exact h'
  | cons head tail ih =>
    rw [List.append_assoc]
    exact .cons head ih

def atLeastOne (L : Language α) : Language (List α) := do
  return (← L) :: (← many L)

def separated (L : Language α) (separator : Language Unit) : Language (List α) := do
  match ← optional L with
  | none => return []
  | some item => return item :: (← many do separator; L)

/-- Where the last lexeme of `u` ends that is no comment, or `before` if there is none. -/
def lastEnd (u : List Lexeme) (before : Position) : Position :=
  u.foldl (fun p l => if l.node.isComment then p else l.range.stop) before

@[simp] theorem lastEnd_nil (p : Position) : lastEnd [] p = p := rfl

theorem lastEnd_append (u v : List Lexeme) (p : Position) :
    lastEnd (u ++ v) p = lastEnd v (lastEnd u p) := List.foldl_append

theorem takeWhile_comments (u : List Lexeme) :
    ∀ l ∈ u.takeWhile (·.node.isComment), l.node.isComment = true := by
  intro l hl
  simpa using List.mem_takeWhile_imp hl

theorem lastEnd_comments {u : List Lexeme} (h : ∀ l ∈ u, l.node.isComment = true)
    (p : Position) : lastEnd u p = p := by
  induction u generalizing p with
  | nil => rfl
  | cons l u ih =>
    have hl := h l (List.mem_cons_self ..)
    simp only [lastEnd, List.foldl_cons, hl, if_true]
    exact ih (fun m hm => h m (List.mem_cons_of_mem l hm)) p

/-- From the start of the first lexeme to the end of the last one that is no comment. -/
def span : List Lexeme → Range
  | [] => .between .first .first
  | l :: u => .between l.range.start (lastEnd (l :: u) l.range.start)

def located (L : Language α) : Language (Located α) := fun u x => L u x.node ∧ x.range = span u

/-- Comments may follow. -/
def trailed (L : Language α) : Language α := do
  let a ← L
  comments
  return a

/-- At most `n` sentences, one after the other. -/
def manyTo (L : Language α) : Nat → Language (List α)
  | 0 => pure []
  | n + 1 => pure [] <|> do return (← L) :: (← manyTo L n)

theorem many_eq_exists (L : Language α) : many L = fun u items => ∃ n, manyTo L n u items := by
  funext u items
  apply propext
  constructor
  · intro h
    induction h with
    | nil => exact ⟨0, rfl, rfl⟩
    | cons head tail ih =>
      obtain ⟨n, hn⟩ := ih
      exact ⟨n + 1, Or.inr (bind_intro head (bind_pure hn))⟩
  · intro h
    obtain ⟨n, hn⟩ := h
    induction n generalizing u items with
    | zero =>
      obtain ⟨rfl, rfl⟩ := hn
      exact .nil
    | succ n ih =>
      rcases hn with ⟨rfl, rfl⟩ | hn
      · exact .nil
      · obtain ⟨v, w, a, rfl, hv, hw⟩ := hn
        obtain ⟨items, hitems, rfl⟩ := bind_pure_iff.mp hw
        exact .cons hv (ih w items hitems)

/-- Separated items are none, or one with any number of others after it. -/
theorem separated_eq (L : Language α) (S : Language Unit) : separated L S =
    ((pure [] : Language (List α)) <|> do return (← L) :: (← many do S; L)) := by
  funext u items
  apply propext
  constructor
  · intro h
    obtain ⟨v, w, item, rfl, hv, hw⟩ := h
    cases item with
    | none =>
      obtain rfl : v = [] := hv
      exact Or.inl hw
    | some item => exact Or.inr (bind_intro hv hw)
  · intro h
    rcases h with h | h
    · exact bind_intro (v := []) (a := none) rfl h
    · obtain ⟨v, w, a, rfl, hv, hw⟩ := h
      exact bind_intro (a := some a) hv hw

/-- Some sentence begins with `u`. -/
def Begins (L : Language α) (u : List Lexeme) : Prop := ∃ v a, L (u ++ v) a

/-- Some sentence begins with `u` and goes on with tokens that a text can hold. -/
def Viable (L : Language α) (u : List Lexeme) : Prop :=
  ∃ v a, L (u ++ v) a ∧ ∀ l ∈ v, l.node.Legible

theorem Viable.begins {L : Language α} {u : List Lexeme} (h : L.Viable u) : L.Begins u := by
  obtain ⟨v, a, hv, -⟩ := h
  exact ⟨v, a, hv⟩

theorem viable_of_sentence {L : Language α} {u : List Lexeme} {a : α} (h : L u a) :
    L.Viable u := by
  refine ⟨[], a, ?_, ?_⟩
  · rwa [List.append_nil]
  · intro l hl
    contradiction

theorem Begins.of_append {L : Language α} {u v : List Lexeme} (h : L.Begins (u ++ v)) :
    L.Begins u := by
  obtain ⟨w, a, hw⟩ := h
  exact ⟨v ++ w, a, by rwa [← List.append_assoc]⟩

theorem begins_orElse {L M : Language α} {u : List Lexeme} (h : (L <|> M).Begins u) :
    L.Begins u ∨ M.Begins u := by
  obtain ⟨v, a, hv | hv⟩ := h
  · exact Or.inl ⟨v, a, hv⟩
  · exact Or.inr ⟨v, a, hv⟩

theorem append_eq_append_cons {u v x y : List Lexeme} {l : Lexeme} (h : u ++ v = x ++ l :: y) :
    (∃ s, u = x ++ l :: s ∧ y = s ++ v) ∨ ∃ s, x = u ++ s ∧ v = s ++ l :: y := by
  rcases List.append_eq_append_iff.mp h with ⟨s, rfl, hs⟩ | ⟨s, rfl, hs⟩
  · exact Or.inr ⟨s, rfl, hs⟩
  · cases s with
    | nil => exact Or.inr ⟨[], by rw [List.append_nil, List.append_nil], hs.symm⟩
    | cons m s =>
      cases hs
      exact Or.inl ⟨s, rfl, rfl⟩

/-- Where a sentence of `L` could go on, no sentence of any `M a` begins. -/
def Apart (L : Language α) (M : α → Language β) : Prop :=
  ∀ u a l b, L u a → L.Begins (u ++ [l]) → ¬(M b).Begins [l]

/-- If `v` can go no further in `L` into `r`, then a sentence of `L` followed by one of `M` that
runs through `v` and `r` is cut exactly there. -/
theorem Apart.split {L : Language α} {M : α → Language β} (h : Apart L M)
    {v r w₁ w₂ : List Lexeme} {a : α} {b : β} (hv : L.Begins v)
    (hr : ∀ l ∈ r.head?, ¬L.Begins (v ++ [l])) (heq : v ++ r = w₁ ++ w₂) (hw₁ : L w₁ a)
    (hw₂ : M a w₂ b) : w₁ = v ∧ w₂ = r := by
  -- a lexeme between the two cuts would continue a sentence of `L`, on one side or the other
  rcases List.append_eq_append_iff.mp heq with ⟨s, rfl, hs⟩ | ⟨s, rfl, hs⟩
  · cases s with
    | nil => exact ⟨List.append_nil v, hs.symm⟩
    | cons l s =>
      subst hs
      refine absurd ⟨s, a, ?_⟩ (hr l rfl)
      rwa [List.append_assoc, List.singleton_append]
  · cases s with
    | nil => exact ⟨(List.append_nil w₁).symm, hs⟩
    | cons l s =>
      subst hs
      have hl : L.Begins (w₁ ++ [l]) := by
        apply Begins.of_append (v := s)
        rwa [List.append_assoc, List.singleton_append]
      exact absurd ⟨s ++ r, b, hw₂⟩ (h w₁ a l a hw₁ hl)

end Language
end KarelKit
