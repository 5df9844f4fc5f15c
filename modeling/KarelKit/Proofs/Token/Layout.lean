import KarelKit.Proofs.Token.Cutting

namespace KarelKit

namespace Position

instance : LT Position where
  lt p q := p.line < q.line ∨ p.line = q.line ∧ p.column < q.column

instance (p q : Position) : Decidable (p < q) :=
  inferInstanceAs (Decidable (p.line < q.line ∨ p.line = q.line ∧ p.column < q.column))

variable {p q r : Position}

theorem lt_iff : p < q ↔ p.line < q.line ∨ p.line = q.line ∧ p.column < q.column := Iff.rfl

theorem lt_irrefl (p : Position) : ¬p < p := by
  rw [lt_iff]
  omega

theorem ne_of_lt (h : p < q) : p ≠ q := fun heq => lt_irrefl q (heq ▸ h)

theorem le_of_lt (h : p < q) : p ≤ q := by
  rw [lt_iff] at h
  rw [le_iff]
  omega

theorem lt_of_lt_of_le (h : p < q) (h' : q ≤ r) : p < r := by
  rw [lt_iff] at *
  rw [le_iff] at h'
  omega

theorem lt_of_le_of_lt (h : p ≤ q) (h' : q < r) : p < r := by
  rw [lt_iff] at *
  rw [le_iff] at h
  omega

theorem le_antisymm (h : p ≤ q) (h' : q ≤ p) : p = q := by
  obtain ⟨line, column⟩ := p
  obtain ⟨line', column'⟩ := q
  simp only [le_iff] at h h'
  rw [mk.injEq]
  omega

theorem not_lt_of_le (h : p ≤ q) : ¬q < p := fun h' => lt_irrefl p (lt_of_le_of_lt h h')

theorem lt_next (p : Position) (c : Char) : p < p.next c := by
  unfold next
  rw [lt_iff]
  split <;> simp

theorem le_after (p : Position) (text : List Char) : p ≤ p.after text := by
  induction text generalizing p with
  | nil => exact le_refl p
  | cons c text ih => exact le_trans (le_next p c) (ih (p.next c))

theorem lt_after_cons (p : Position) (c : Char) (text : List Char) : p < p.after (c :: text) :=
  lt_of_lt_of_le (lt_next p c) (le_after (p.next c) text)

end Position

namespace Token

/-- A text that begins at `here`, and its lexemes. -/
inductive Lexes : Position → List Char → List Lexeme → Prop
  | nil {here : Position} : Lexes here [] []
  | blank {here : Position} {c : Char} {text : List Char} {u : List Lexeme}
    (hc : Text.isBlank c = true) (h : Lexes (here.next c) text u) : Lexes here (c :: text) u
  | token {here : Position} {c : Char} {letters text : List Char} {t : Token} {u : List Lexeme}
    (hc : Text.isBlank c = false) (ht : Munches c (letters ++ text) t letters)
    (h : Lexes (here.after (c :: letters)) text u) :
    Lexes here (c :: (letters ++ text)) (⟨t, here, here.after (c :: letters)⟩ :: u)

theorem lexes_of_lexFrom {here : Position} {text : List Char} {u : List Lexeme}
    (h : lexFrom here text = .ok u) : Lexes here text u := by
  fun_induction lexFrom here text generalizing u
  case case1 here =>
    cases h
    exact .nil
  case case2 here c text hblank ih => exact .blank hblank (ih h)
  case case3 here c text hblank e hmunch => contradiction
  case case4 here c text hblank token letters hmunch stop ih =>
    cases hrest : lexFrom stop (text.drop letters.length) with
    | error e =>
      rw [hrest] at h
      contradiction
    | ok rest =>
      rw [hrest] at h
      cases h
      have hmunches := munches_of_munch hmunch
      have htext := hmunches.front
      rw [← htext] at hmunches ⊢
      exact .token (Bool.eq_false_iff.mpr hblank) hmunches (ih hrest)

theorem lexFrom_of_lex {source : String} {text : Lexed} (h : lex source = .ok text) :
    lexFrom .first source.toList = .ok text.lexemes ∧
      text.stop = Position.first.after source.toList := by
  unfold lex at h
  cases hlex : lexFrom .first source.toList with
  | error e =>
    rw [hlex] at h
    contradiction
  | ok lexemes =>
    rw [hlex] at h
    cases h
    exact ⟨rfl, rfl⟩

theorem lexes_of_lex {source : String} {text : Lexed} (h : lex source = .ok text) :
    Lexes .first source.toList text.lexemes := lexes_of_lexFrom (lexFrom_of_lex h).1

end Token

/-- Lexemes as they stand in a text: none is empty, and each comes after those before it. -/
structure Rising (u : List Lexeme) : Prop where
  nonempty : ∀ l ∈ u, l.range.start < l.range.stop
  apart : u.Pairwise fun l m => l.range.stop ≤ m.range.start

namespace Rising

variable {u v : List Lexeme}

theorem nil : Rising [] := ⟨fun _ hl => absurd hl List.not_mem_nil, .nil⟩

theorem sublist (h : Rising u) (hv : v.Sublist u) : Rising v :=
  ⟨fun l hl => h.nonempty l (hv.subset hl), h.apart.sublist hv⟩

theorem left (h : Rising (u ++ v)) : Rising u := h.sublist (List.sublist_append_left u v)

theorem right (h : Rising (u ++ v)) : Rising v := h.sublist (List.sublist_append_right u v)

/-- Each lexeme begins behind where any earlier one does. -/
theorem start_lt (h : Rising (u ++ v)) {l m : Lexeme} (hl : l ∈ u) (hm : m ∈ v) :
    l.range.start < m.range.start := by
  have hlm : l.range.stop ≤ m.range.start := (List.pairwise_append.mp h.apart).2.2 l hl m hm
  exact Position.lt_of_lt_of_le (h.nonempty l (List.mem_append_left v hl)) hlm

/-- Each lexeme ends behind where any earlier one does. -/
theorem stop_lt (h : Rising (u ++ v)) {l m : Lexeme} (hl : l ∈ u) (hm : m ∈ v) :
    l.range.stop < m.range.stop := by
  have hlm : l.range.stop ≤ m.range.start := (List.pairwise_append.mp h.apart).2.2 l hl m hm
  exact Position.lt_of_le_of_lt hlm (h.nonempty m (List.mem_append_right u hm))

theorem start_ne (h : Rising (u ++ v)) {l m : Lexeme} (hl : l ∈ u) (hm : m ∈ v) :
    l.range.start ≠ m.range.start := Position.ne_of_lt (h.start_lt hl hm)

theorem stop_ne (h : Rising (u ++ v)) {l m : Lexeme} (hl : l ∈ u) (hm : m ∈ v) :
    l.range.stop ≠ m.range.stop := Position.ne_of_lt (h.stop_lt hl hm)

end Rising

theorem Token.Lexes.rising {here : Position} {text : List Char} {u : List Lexeme}
    (h : Lexes here text u) : Rising u ∧ ∀ l ∈ u, here ≤ l.range.start := by
  induction h with
  | nil => exact ⟨.nil, fun _ hl => absurd hl List.not_mem_nil⟩
  | @blank here c text u hc h ih =>
    obtain ⟨hrising, hstart⟩ := ih
    exact ⟨hrising, fun l hl => Position.le_trans (Position.le_next here c) (hstart l hl)⟩
  | @token here c letters text t u hc ht h ih =>
    obtain ⟨hrising, hstart⟩ := ih
    have hlt : here < here.after (c :: letters) := Position.lt_after_cons here c letters
    refine ⟨⟨?_, List.pairwise_cons.mpr ⟨hstart, hrising.apart⟩⟩, ?_⟩
    · intro l hl
      rcases List.mem_cons.mp hl with rfl | hl
      · exact hlt
      · exact hrising.nonempty l hl
    · intro l hl
      rcases List.mem_cons.mp hl with rfl | hl
      · exact Position.le_refl here
      · exact Position.le_trans (Position.le_of_lt hlt) (hstart l hl)

theorem rising_of_lex {source : String} {text : Lexed} (h : lex source = .ok text) :
    Rising text.lexemes := (Token.lexes_of_lex h).rising.1

end KarelKit
