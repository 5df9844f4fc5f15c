import KarelKit.Declaration.Tree
import KarelKit.Proofs.Token.Case
import KarelKit.Proofs.Token.Reading

namespace KarelKit

/-- The lexer reads the text as one word, which is not reserved. -/
def IsName (name : String) : Prop :=
  (∃ text, lex name = .ok text ∧ text.lexemes.map (·.node) = [.word name]) ∧
    isReserved name = false

def ArraySize.WellFormed : ArraySize → Prop
  | literal value => -0x8000000000000000 ≤ value ∧ value < 0x8000000000000000
  | named name => IsName name

/-- A motion group goes with predefined names only. -/
def DataType.WellFormed : DataType → Prop
  | named name none => IsName name ∨ isBuiltinType name = true
  | named name (some group) => isBuiltinType name = true ∧ group < 0x100000000
  | string size => size < 0x100000000
  | array sizes element _ => (∀ x ∈ sizes, x.node.WellFormed) ∧ element.WellFormed
  | position name group => IsName name ∧ group < 0x100000000
  | path header nodeData => (∀ name ∈ header, IsName name) ∧ IsName nodeData

def Field.WellFormed (f : Field) : Prop := IsName f.name ∧ f.dataType.node.WellFormed

def UserType.WellFormed : UserType → Prop
  | data dataType => dataType.WellFormed
  | record fields => fields ≠ [] ∧ ∀ x ∈ fields, x.node.WellFormed

def TypeDeclaration.WellFormed (d : TypeDeclaration) : Prop :=
  IsName d.name ∧ d.userType.node.WellFormed ∧ ∀ program ∈ d.fromProgram, IsName program

def Value.WellFormed : Value → Prop
  | integer value => -0x8000000000000000 ≤ value ∧ value < 0x8000000000000000
  | real literal => Token.IsReal literal
  | string content => ∀ c ∈ content.toList, c ≠ '\'' ∧ c ≠ '\n' ∧ c ≠ '\r'
  | boolean _ => True
  | reference path => path ≠ [] ∧ ∀ name ∈ path, IsName name

def Constant.WellFormed (c : Constant) : Prop := IsName c.name ∧ c.value.node.WellFormed

def Declarations.WellFormed (d : Declarations) : Prop :=
  (∀ x ∈ d.types, x.node.WellFormed) ∧ ∀ x ∈ d.constants, x.node.WellFormed

def Tree.WellFormed : Tree → Prop
  | declarations tree => tree.WellFormed
  | typeDeclaration tree => tree.node.WellFormed
  | userType tree => tree.node.WellFormed
  | dataType tree => tree.node.WellFormed
  | constant tree => tree.node.WellFormed
  | value tree => tree.node.WellFormed

theorem isName_iff {name : String} :
    IsName name ↔ Token.IsWord name ∧ isReserved name = false := by
  refine and_congr_left fun _ => ⟨?_, ?_⟩
  · intro h
    obtain ⟨text, hlex, hnodes⟩ := h
    obtain ⟨l, heq, hl⟩ := List.map_eq_singleton_iff.mp hnodes
    have hlegible := Token.legible_of_lex hlex l (by rw [heq]; exact List.mem_singleton_self l)
    rwa [hl] at hlegible
  · intro h
    apply Token.lex_of_reads
    have hcloses : (Token.word name).Closes [] := by simp [Token.Closes]
    have hread := Token.Reads.token (t := .word name) h hcloses Token.Reads.nil
    rwa [List.append_nil] at hread

instance (name : String) : Decidable (IsName name) := decidable_of_iff _ isName_iff.symm

theorem isWord_of_upcase {word : String} (h : Token.IsWord (Text.upcase word)) :
    Token.IsWord word := by
  obtain ⟨c, letters, htext, hc, hletters⟩ := h
  rw [Text.upcase, String.toList_ofList] at htext
  obtain ⟨d, more, hword, rfl, rfl⟩ := List.map_eq_cons_iff.mp htext
  rw [CaseBlind.startsWord.toUpper] at hc
  refine ⟨d, more, hword, hc, ?_⟩
  intro e he
  rw [← CaseBlind.continuesWord.toUpper]
  exact hletters _ (List.mem_map_of_mem he)

theorem isWord_of_isBuiltinType {word : String} (h : isBuiltinType word = true) :
    Token.IsWord word := by
  have hall : ∀ b ∈ builtinTypes, Token.IsWord b := by decide +kernel
  apply isWord_of_upcase
  exact hall _ (List.contains_iff_mem.mp h)

end KarelKit
