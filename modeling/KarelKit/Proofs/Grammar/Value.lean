import KarelKit.Grammar.Value
import KarelKit.Proofs.Grammar.Lexical

namespace KarelKit

namespace Language

def number : Language Value :=
  one fun
    | .integer value => some (.integer value)
    | .real literal => some (.real literal)
    | _ => none

def quoted : Language Value :=
  one fun
    | .string content => some (.string content)
    | _ => none

def boolean : Language Value :=
  one fun t =>
    if t.isKeyword .TRUE then some (.boolean true)
    else if t.isKeyword .FALSE then some (.boolean false)
    else none

def reference : Language Value := do
  let first ← name
  return .reference (first :: (← many do mark .dot; name))

def value : Language Value := number <|> quoted <|> boolean <|> reference

def constant : Language Constant := do
  let name ← name
  mark .equals
  return ⟨name, ← located value⟩

end Language

namespace Grammar

open Rule

variable {n : Nat}

theorem number_parses : number.Parses Language.number ⟨false, [.integer, .real], []⟩ n := by
  apply Parses.accept
  · intro t a h
    split at h
    · exact List.mem_cons_self ..
    · exact List.mem_cons_of_mem _ (List.mem_cons_self ..)
    · contradiction
  · exact ⟨.integer 0, .integer 0, legible_zero, rfl⟩
  · decide

theorem quoted_parses : quoted.Parses Language.quoted ⟨false, [.string], []⟩ n := by
  apply Parses.accept
  · intro t a h
    split at h
    · exact List.mem_singleton_self _
    · contradiction
  · exact ⟨.string "", .string "", legible_empty, rfl⟩
  · decide

theorem boolean_parses :
    boolean.Parses Language.boolean ⟨false, [.keyword .TRUE, .keyword .FALSE], []⟩ n := by
  apply Parses.accept
  · intro t a h
    by_cases htrue : t.isKeyword .TRUE = true
    · rw [Token.terminal_of_isKeyword htrue]
      decide
    · rw [if_neg htrue] at h
      by_cases hfalse : t.isKeyword .FALSE = true
      · rw [Token.terminal_of_isKeyword hfalse]
        decide
      · rw [if_neg hfalse] at h
        contradiction
  · exact ⟨.word "TRUE", .boolean true, Token.isWord_spelling .TRUE,
      if_pos (isKeyword_spelling .TRUE)⟩
  · decide

theorem component_parses : (mark .dot >>= fun _ => name).Parses
    (Language.mark .dot >>= fun _ => Language.name) ⟨false, [.mark .dot], []⟩ n :=
  ((Parses.mark .dot).bind (fun _ => Parses.name) (by decide)).mono (by decide)

theorem reference_parses :
    reference.Parses Language.reference ⟨false, [.name], [.mark .dot]⟩ n := by
  have htail := component_parses.many (n := n) rfl (by decide) (by decide)
  exact (Parses.name.bind (fun first => htail.map fun path => Value.reference (first :: path))
    (by decide)).mono (by decide)

theorem value_parses :
    value.Parses Language.value ⟨false, [.integer, .real, .string, .keyword .TRUE, .keyword .FALSE,
      .name], [.mark .dot]⟩ n := by
  have h := boolean_parses.orElse (n := n) reference_parses rfl rfl (by decide)
  have h' := quoted_parses.orElse h rfl rfl (by decide)
  exact (number_parses.orElse h' rfl rfl (by decide)).mono (by decide)

theorem constant_parses :
    constant.Parses Language.constant ⟨false, [.name], [.mark .dot]⟩ n := by
  have hvalue := value_parses.located (n := n) rfl (by decide)
  have hrest := fun name : String => (Parses.mark (n := n) .equals).bind
    (fun _ => hvalue.map (Constant.mk name)) (by decide)
  exact (Parses.name.bind hrest (by decide)).mono (by decide)

end Grammar
end KarelKit
