import KarelKit.Proofs.Grammar.RoundTrip

namespace KarelKit

/-- Whatever the tree holds could have been read from a text. -/
def DataType.Legible : DataType → Prop
  | named name group =>
    (IsName name ∨ isBuiltinType name = true) ∧ ∀ number ∈ group, number < 0x100000000
  | string size => size < 0x100000000
  | array sizes element _ => (∀ x ∈ sizes, x.node.WellFormed) ∧ element.Legible
  | position name group => IsName name ∧ group < 0x100000000
  | path header nodeData => (∀ name ∈ header, IsName name) ∧ IsName nodeData

def Field.Legible (f : Field) : Prop := IsName f.name ∧ f.dataType.node.Legible

def UserType.Legible : UserType → Prop
  | data dataType => dataType.Legible
  | record fields => fields ≠ [] ∧ ∀ x ∈ fields, x.node.Legible

def TypeDeclaration.Legible (d : TypeDeclaration) : Prop :=
  IsName d.name ∧ d.userType.node.Legible ∧ ∀ program ∈ d.fromProgram, IsName program

def Declarations.Legible (d : Declarations) : Prop :=
  (∀ x ∈ d.types, x.node.Legible) ∧ ∀ x ∈ d.constants, x.node.WellFormed

def Tree.Legible : Tree → Prop
  | declarations tree => tree.Legible
  | typeDeclaration tree => tree.node.Legible
  | userType tree => tree.node.Legible
  | dataType tree => tree.node.Legible
  | constant tree => tree.node.WellFormed
  | value tree => tree.node.WellFormed

theorem forall_of_changed {α : Type} {change : Located α → Located α} {p q : α → Prop}
    {items : List (Located α)} (hpq : ∀ x, p (change x).node → q x.node)
    (h : ∀ x ∈ items.map change, p x.node) : ∀ x ∈ items, q x.node :=
  fun x hx => hpq x (h _ (List.mem_map_of_mem hx))

theorem DataType.legible_of_settle_bare {t : DataType} (h : t.settle.bare.WellFormed) :
    t.Legible := by
  induction t with
  | named name group =>
    cases group with
    | none => exact ⟨h, fun _ hnumber => by contradiction⟩
    | some group =>
      by_cases hbuiltin : isBuiltinType name = true
      · rw [settle, if_pos hbuiltin] at h
        obtain ⟨-, hgroup⟩ := h
        exact ⟨Or.inr hbuiltin, fun _ hnumber => Option.mem_some_iff.mp hnumber ▸ hgroup⟩
      · rw [settle, if_neg hbuiltin] at h
        obtain ⟨hname, hgroup⟩ := h
        exact ⟨Or.inl hname, fun _ hnumber => Option.mem_some_iff.mp hnumber ▸ hgroup⟩
  | string size => exact h
  | array sizes element elementRange ih =>
    rw [settle, bare] at h
    obtain ⟨hsizes, helement⟩ := h
    refine ⟨forall_of_changed ?_ hsizes, ih helement⟩
    intro x hx
    exact hx
  | position name group => exact h
  | path header nodeData => exact h

theorem Field.legible_of_settle_bare {f : Field} (h : f.settle.bare.WellFormed) : f.Legible :=
  ⟨h.1, DataType.legible_of_settle_bare h.2⟩

theorem UserType.legible_of_settle_bare {t : UserType} (h : t.settle.bare.WellFormed) :
    t.Legible := by
  cases t with
  | data dataType => exact DataType.legible_of_settle_bare h
  | record fields =>
    rw [settle, bare, List.map_map] at h
    obtain ⟨hne, hfields⟩ := h
    refine ⟨?_, forall_of_changed (fun _ => Field.legible_of_settle_bare) hfields⟩
    rintro rfl
    exact hne rfl

theorem TypeDeclaration.legible_of_settle_bare {d : TypeDeclaration}
    (h : d.settle.bare.WellFormed) : d.Legible := by
  obtain ⟨hname, htype, hprogram⟩ := h
  exact ⟨hname, UserType.legible_of_settle_bare htype, hprogram⟩

theorem Declarations.legible_of_settle_bare {d : Declarations} (h : d.settle.bare.WellFormed) :
    d.Legible := by
  rw [settle, bare, List.map_map] at h
  obtain ⟨htypes, hconstants⟩ := h
  refine ⟨forall_of_changed (fun _ => TypeDeclaration.legible_of_settle_bare) htypes,
    forall_of_changed ?_ hconstants⟩
  intro x hx
  exact hx

theorem Tree.legible_of_settle_bare {t : Tree} (h : t.settle.bare.WellFormed) : t.Legible := by
  cases t with
  | declarations tree => exact Declarations.legible_of_settle_bare h
  | typeDeclaration tree => exact TypeDeclaration.legible_of_settle_bare h
  | userType tree => exact UserType.legible_of_settle_bare h
  | dataType tree => exact DataType.legible_of_settle_bare h
  | constant tree => exact h
  | value tree => exact h

/-- Of whatever text a tree is parsed, and wherever comments stand in it: names in the tree are
words that are not reserved, and literals and numbers have their form and range. -/
theorem parsed_legible {entry : Entry} {source : String} {t : Tree}
    (h : parse entry source = .ok t) : t.Legible :=
  Tree.legible_of_settle_bare (wellFormed_of_parse h).1

theorem parsed_legible_hidden_position :
    parse .dataType "foo IN -- c\nGROUP[1]" =
      .ok (.dataType ⟨.named "foo" (some 1), ⟨⟨1, 1⟩, ⟨2, 9⟩⟩⟩) ∧
    Tree.Legible (.dataType ⟨.named "foo" (some 1), ⟨⟨1, 1⟩, ⟨2, 9⟩⟩⟩) := by
  obtain ⟨-, hparse, -⟩ := parse_hidden_position
  exact ⟨hparse, parsed_legible hparse⟩

end KarelKit
