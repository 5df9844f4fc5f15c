import KarelKit.Proofs.Token.Spelling
import Mathlib.Data.List.Nodup

namespace KarelKit

inductive Terminal
  | keyword (k : Keyword)
  | name
  | predefined
  | reserved
  | integer
  | real
  | string
  | comment
  | mark (m : Mark)
deriving DecidableEq

def Keyword.all : List Keyword :=
  [.TYPE, .CONST, .FROM, .STRUCTURE, .ENDSTRUCTURE, .STRING, .ARRAY, .OF, .PATH, .PATHHEADER,
   .NODEDATA, .IN, .GROUP, .TRUE, .FALSE]

theorem Keyword.mem_all (k : Keyword) : k ∈ all := by
  cases k <;> decide

theorem Keyword.spelling_injective {k k' : Keyword} (h : k.spelling = k'.spelling) : k = k' := by
  have hnodup : (all.map spelling).Nodup := by decide
  exact List.inj_on_of_nodup_map hnodup k.mem_all k'.mem_all h

theorem Keyword.spelling_spec (k : Keyword) :
    Token.IsWord k.spelling ∧ isKeyword k k.spelling = true ∧
      builtinTypes.contains k.spelling = false := by
  cases k <;> decide +kernel

theorem isKeyword_spelling (k : Keyword) : isKeyword k k.spelling = true := k.spelling_spec.2.1

/-- The class of a word. Keywords come first; they are no names of predefined types. -/
def Terminal.ofWord (word : String) : Terminal :=
  match Keyword.all.find? (isKeyword · word) with
  | some k => .keyword k
  | none =>
    if isBuiltinType word then .predefined else if isReserved word then .reserved else .name

namespace Token

def terminal : Token → Terminal
  | word text => .ofWord text
  | integer _ => .integer
  | real _ => .real
  | string _ => .string
  | comment _ => .comment
  | mark m => .mark m

theorem terminal_of_isKeyword {k : Keyword} {t : Token} (h : t.isKeyword k = true) :
    t.terminal = .keyword k := by
  cases t with
  | word text =>
    simp only [isKeyword, KarelKit.isKeyword, beq_iff_eq] at h
    have hfind : Keyword.all.find? (KarelKit.isKeyword · text) = some k := by
      cases hf : Keyword.all.find? (KarelKit.isKeyword · text) with
      | none =>
        have hnone := List.find?_eq_none.mp hf k k.mem_all
        simp [KarelKit.isKeyword, h] at hnone
      | some k' =>
        have hk' := List.find?_some hf
        simp only [KarelKit.isKeyword, beq_iff_eq] at hk'
        rw [Keyword.spelling_injective (h.symm.trans hk')]
    simp only [terminal, Terminal.ofWord, hfind]
  | _ => contradiction

theorem isComment_iff {t : Token} : t.isComment = true ↔ t.terminal = .comment := by
  cases t with
  | word text =>
    simp only [isComment, terminal, Terminal.ofWord]
    split
    · simp
    · split
      · simp
      · split <;> simp
  | _ => simp [isComment, terminal]

theorem isComment_of_isKeyword {k : Keyword} {t : Token} (h : t.isKeyword k = true) :
    t.isComment = false := by
  cases t with
  | comment text => contradiction
  | _ => rfl

theorem isKeyword_of_isComment {k : Keyword} {t : Token} (h : t.isComment = true) :
    t.isKeyword k = false := by
  cases t with
  | comment text => rfl
  | _ => contradiction

theorem isBuiltinType_of_not_isReserved {word : String} (h : isReserved word = false) :
    isBuiltinType word = false := by
  rw [isReserved, Bool.or_eq_false_iff] at h
  exact h.2

theorem isBuiltinType_eq_false_of_isKeyword {k : Keyword} {word : String}
    (h : KarelKit.isKeyword k word = true) : isBuiltinType word = false := by
  simp only [KarelKit.isKeyword, beq_iff_eq] at h
  rw [isBuiltinType, h]
  exact k.spelling_spec.2.2

theorem ofWord_of_not_isReserved {word : String} (h : isReserved word = false) :
    Terminal.ofWord word = .name := by
  have hfind : Keyword.all.find? (KarelKit.isKeyword · word) = none := by
    rw [List.find?_eq_none]
    intro k _ hk
    rw [isReserved_of_isKeyword hk] at h
    contradiction
  simp [Terminal.ofWord, hfind, isBuiltinType_of_not_isReserved h, h]

theorem ofWord_of_isBuiltinType {word : String} (h : isBuiltinType word = true) :
    Terminal.ofWord word = .predefined := by
  have hfind : Keyword.all.find? (KarelKit.isKeyword · word) = none := by
    rw [List.find?_eq_none]
    intro k _ hk
    rw [isBuiltinType_eq_false_of_isKeyword hk] at h
    contradiction
  simp [Terminal.ofWord, hfind, h]

theorem name?_word {word : String} (h : isReserved word = false) :
    name? (.word word) = some word := by
  rw [name?, h]
  rfl

theorem typeName?_word {word : String} (h : isReserved word = false ∨ isBuiltinType word = true) :
    typeName? (.word word) = some word := by
  rcases h with h | h <;> simp [typeName?, h]

theorem name?_eq_some {t : Token} {name : String} (h : t.name? = some name) :
    t = .word name ∧ isReserved name = false := by
  cases t with
  | word text =>
    simp only [name?] at h
    split at h
    · contradiction
    · rename_i hreserved
      cases h
      exact ⟨rfl, by simpa using hreserved⟩
  | _ => contradiction

theorem typeName?_eq_some {t : Token} {name : String} (h : t.typeName? = some name) :
    t = .word name ∧ (isReserved name = false ∨ isBuiltinType name = true) := by
  cases t with
  | word text =>
    simp only [typeName?] at h
    split at h
    · contradiction
    · rename_i hreserved
      cases h
      refine ⟨rfl, ?_⟩
      cases hr : isReserved name with
      | false => exact Or.inl rfl
      | true =>
        rw [hr] at hreserved
        exact Or.inr (by simpa using hreserved)
  | _ => contradiction

theorem terminal_of_name? {t : Token} {name : String} (h : t.name? = some name) :
    t.terminal = .name := by
  obtain ⟨rfl, hreserved⟩ := name?_eq_some h
  exact ofWord_of_not_isReserved hreserved

theorem terminal_of_typeName? {t : Token} {name : String} (h : t.typeName? = some name) :
    t.terminal ∈ [.name, .predefined] := by
  obtain ⟨rfl, hname | hbuiltin⟩ := typeName?_eq_some h
  · rw [terminal, ofWord_of_not_isReserved hname]
    decide
  · rw [terminal, ofWord_of_isBuiltinType hbuiltin]
    decide

theorem isWord_spelling (k : Keyword) : IsWord k.spelling := k.spelling_spec.1

end Token
end KarelKit
