import KarelKit.Proofs.Rule.Repetition

namespace KarelKit

namespace Language

def keyword (k : Keyword) : Language Unit := do
  one fun t => if t.isKeyword k then some () else none
  comments

def mark (m : Mark) : Language Unit := do
  one fun t => if t = .mark m then some () else none
  comments

def name : Language String := one Token.name?

def typeName : Language String := one Token.typeName?

def unsigned : Language Nat :=
  one fun
    | .integer (.ofNat n) => if n < 0x100000000 then some n else none
    | _ => none

theorem keyword_of_isKeyword {k : Keyword} {l : Lexeme} (h : l.node.isKeyword k = true) :
    keyword k [l] () :=
  ⟨[l], [], (), rfl, ⟨l, rfl, if_pos h⟩, fun _ hm => absurd hm List.not_mem_nil⟩

def bracketed {α : Type} (L : Language α) : Language α := do
  mark .leftBracket
  let a ← L
  mark .rightBracket
  return a

end Language

theorem legible_x : (Token.word "x").Legible ∧ Token.name? (.word "x") = some "x" ∧
    Token.typeName? (.word "x") = some "x" := by
  have hx : Token.IsWord "x" ∧ isReserved "x" = false := by decide +kernel
  exact ⟨hx.1, Token.name?_word hx.2, Token.typeName?_word (Or.inl hx.2)⟩

theorem legible_zero : (Token.integer 0).Legible := by
  unfold Token.Legible
  decide

theorem legible_empty : (Token.string "").Legible := by
  intro c hc
  contradiction

namespace Rule.Parses

variable {α : Type} {r : Rule α} {L : Language α} {o : Outline} {n : Nat}

protected theorem keyword (k : Keyword) :
    (keyword k).Parses (Language.keyword k) ⟨false, [.keyword k], [.comment]⟩ n := by
  have hone : (accept (.keyword k) fun t => if t.isKeyword k then some () else none).Parses
      (Language.one fun t => if t.isKeyword k then some () else none)
      ⟨false, [.keyword k], []⟩ n := by
    apply Parses.accept
    · intro t a h
      have ht : t.isKeyword k = true := by
        cases hk : t.isKeyword k with
        | true => rfl
        | false => simp [hk] at h
      rw [Token.terminal_of_isKeyword ht]
      exact List.mem_singleton_self _
    · exact ⟨.word k.spelling, (), Token.isWord_spelling k, if_pos (isKeyword_spelling k)⟩
    · simp
  apply (hone.bind (fun _ => Parses.skipComments) _).mono
  · simp [Outline.Within, Outline.andThen]
  · intro x hx
    contradiction

protected theorem mark (m : Mark) :
    (mark m).Parses (Language.mark m) ⟨false, [.mark m], [.comment]⟩ n := by
  have hone : (accept (.mark m) fun t => if t = .mark m then some () else none).Parses
      (Language.one fun t => if t = .mark m then some () else none) ⟨false, [.mark m], []⟩ n := by
    apply Parses.accept
    · intro t a h
      have ht : t = .mark m := by
        by_cases ht : t = .mark m
        · exact ht
        · simp [ht] at h
      rw [ht]
      exact List.mem_singleton_self _
    · exact ⟨.mark m, (), trivial, if_pos rfl⟩
    · simp
  apply (hone.bind (fun _ => Parses.skipComments) _).mono
  · simp [Outline.Within, Outline.andThen]
  · intro x hx
    contradiction

protected theorem name : name.Parses Language.name ⟨false, [.name], []⟩ n := by
  apply Parses.accept
  · intro t a h
    rw [Token.terminal_of_name? h]
    exact List.mem_singleton_self _
  · exact ⟨.word "x", "x", legible_x.1, legible_x.2.1⟩
  · decide

protected theorem typeName :
    typeName.Parses Language.typeName ⟨false, [.name, .predefined], []⟩ n := by
  apply Parses.accept
  · intro t a h
    exact Token.terminal_of_typeName? h
  · exact ⟨.word "x", "x", legible_x.1, legible_x.2.2⟩
  · decide

protected theorem unsigned : unsigned.Parses Language.unsigned ⟨false, [.integer], []⟩ n := by
  apply Parses.accept
  · intro t a h
    split at h
    · exact List.mem_singleton_self _
    · contradiction
  · exact ⟨.integer 0, 0, legible_zero, rfl⟩
  · decide

protected theorem bracketed (hr : r.Parses L o n) (hcomment : .comment ∉ o.first)
    (hnext : .mark .rightBracket ∉ o.next) :
    (bracketed r).Parses (Language.bracketed L) ⟨false, [.mark .leftBracket], [.comment]⟩ n := by
  have hrest := hr.bind (fun a => (Parses.mark .rightBracket).map fun _ => a) (by
    intro x hx hx'
    rw [List.mem_singleton.mp hx'] at hx
    exact hnext hx)
  apply ((Parses.mark .leftBracket).bind (fun _ => hrest) _).mono
  · simp [Outline.Within, Outline.andThen]
  · intro x hx
    rw [List.mem_singleton.mp hx]
    cases ho : o.empty <;> simp [Outline.andThen, hcomment, ho]

end Rule.Parses
end KarelKit
