import KarelKit.Declaration.Tree
import Mathlib.Data.List.Forall2

namespace KarelKit

section

variable (names : String → String → Prop) (ranges : Range → Range → Prop)

inductive Value.Matches : Value → Value → Prop
  | integer (value : Int) : Matches (.integer value) (.integer value)
  | real (literal : String) : Matches (.real literal) (.real literal)
  | string (content : String) : Matches (.string content) (.string content)
  | boolean (value : Bool) : Matches (.boolean value) (.boolean value)
  | reference {path path' : List String} (h : List.Forall₂ names path path') :
    Matches (.reference path) (.reference path')

inductive ArraySize.Matches : ArraySize → ArraySize → Prop
  | literal (value : Int) : Matches (.literal value) (.literal value)
  | named {name name' : String} (h : names name name') : Matches (.named name) (.named name')

/-- Both the nodes and the ranges match. -/
structure Located.Matches {α : Type} (nodes : α → α → Prop) (x y : Located α) : Prop where
  node : nodes x.node y.node
  range : ranges x.range y.range

inductive DataType.Matches : DataType → DataType → Prop
  | named {name name' : String} (h : names name name') (group : Option Nat) :
    Matches (.named name group) (.named name' group)
  | string (size : Nat) : Matches (.string size) (.string size)
  | array {sizes sizes' : List (Located ArraySize)} {element element' : DataType}
    {range range' : Range}
    (hsizes : List.Forall₂ (Located.Matches ranges (ArraySize.Matches names)) sizes sizes')
    (helement : Matches element element') (hrange : ranges range range') :
    Matches (.array sizes element range) (.array sizes' element' range')
  | position {name name' : String} (h : names name name') (group : Nat) :
    Matches (.position name group) (.position name' group)
  | path {header header' : Option String} {nodeData nodeData' : String}
    (hheader : Option.Rel names header header') (h : names nodeData nodeData') :
    Matches (.path header nodeData) (.path header' nodeData')

structure Field.Matches (f g : Field) : Prop where
  name : names f.name g.name
  dataType : f.dataType.Matches ranges (DataType.Matches names ranges) g.dataType

inductive UserType.Matches : UserType → UserType → Prop
  | data {dataType dataType' : DataType} (h : dataType.Matches names ranges dataType') :
    Matches (.data dataType) (.data dataType')
  | record {fields fields' : List (Located Field)}
    (h : List.Forall₂ (Located.Matches ranges (Field.Matches names ranges)) fields fields') :
    Matches (.record fields) (.record fields')

structure TypeDeclaration.Matches (d e : TypeDeclaration) : Prop where
  name : names d.name e.name
  userType : d.userType.Matches ranges (UserType.Matches names ranges) e.userType
  fromProgram : Option.Rel names d.fromProgram e.fromProgram

structure Constant.Matches (c d : Constant) : Prop where
  name : names c.name d.name
  value : c.value.Matches ranges (Value.Matches names) d.value

structure Declarations.Matches (d e : Declarations) : Prop where
  types : List.Forall₂ (Located.Matches ranges (TypeDeclaration.Matches names ranges))
    d.types e.types
  constants : List.Forall₂ (Located.Matches ranges (Constant.Matches names ranges))
    d.constants e.constants

/-- Trees of one kind and shape, with the same numbers, strings and booleans at the same places. -/
inductive Tree.Matches : Tree → Tree → Prop
  | declarations {t t' : Declarations} (h : t.Matches names ranges t') :
    Matches (.declarations t) (.declarations t')
  | typeDeclaration {t t' : Located TypeDeclaration}
    (h : t.Matches ranges (TypeDeclaration.Matches names ranges) t') :
    Matches (.typeDeclaration t) (.typeDeclaration t')
  | userType {t t' : Located UserType}
    (h : t.Matches ranges (UserType.Matches names ranges) t') : Matches (.userType t) (.userType t')
  | dataType {t t' : Located DataType}
    (h : t.Matches ranges (DataType.Matches names ranges) t') : Matches (.dataType t) (.dataType t')
  | constant {t t' : Located Constant}
    (h : t.Matches ranges (Constant.Matches names ranges) t') : Matches (.constant t) (.constant t')
  | value {t t' : Located Value} (h : t.Matches ranges (Value.Matches names) t') :
    Matches (.value t) (.value t')

end

section

variable {names : String → String → Prop} {ranges : Range → Range → Prop}

theorem map_eq_of_forall₂ {α β γ : Type} {R : α → β → Prop} {g : α → γ} {h : β → γ}
    {xs : List α} {ys : List β} (hxs : List.Forall₂ R xs ys) (hR : ∀ x y, R x y → h y = g x) :
    ys.map h = xs.map g := by
  induction hxs with
  | nil => rfl
  | cons hxy _ ih => rw [List.map_cons, List.map_cons, hR _ _ hxy, ih]

theorem eq_of_optionRel {α : Type} {a b : Option α} (h : Option.Rel Eq a b) : b = a := by
  cases h with
  | some h => rw [h]
  | none => rfl

theorem Value.Matches.eq {v w : Value} (h : v.Matches Eq w) : w = v := by
  cases h with
  | reference h =>
    rw [List.forall₂_eq_eq_eq] at h
    rw [h]
  | _ => rfl

theorem ArraySize.Matches.eq {x y : ArraySize} (h : x.Matches Eq y) : y = x := by
  cases h with
  | named h => rw [h]
  | literal => rfl

theorem Located.Matches.bare {α : Type} {nodes : α → α → Prop} {g : α → α} {x y : Located α}
    (h : x.Matches ranges nodes y) (hg : ∀ a b, nodes a b → g b = g a) : y.bare g = x.bare g := by
  rw [Located.bare, Located.bare, hg _ _ h.node]

theorem DataType.Matches.bare {t u : DataType} (h : t.Matches Eq ranges u) : u.bare = t.bare := by
  induction h with
  | named h => rw [h]
  | string => rfl
  | array hsizes _ _ ih =>
    have hlist := map_eq_of_forall₂ (g := (·.bare id)) (h := (·.bare id)) hsizes
      fun _ _ h => h.bare fun _ _ h => h.eq
    rw [DataType.bare, DataType.bare, ih, hlist]
  | position h => rw [h]
  | path hheader h => rw [h, eq_of_optionRel hheader]

theorem Field.Matches.bare {x y : Field} (h : x.Matches Eq ranges y) : y.bare = x.bare := by
  obtain ⟨name, dataType⟩ := x
  rw [Field.bare, Field.bare, h.dataType.bare fun _ _ h => h.bare, ← h.name]

theorem UserType.Matches.bare {t u : UserType} (h : t.Matches Eq ranges u) : u.bare = t.bare := by
  cases h with
  | data h => rw [UserType.bare, UserType.bare, h.bare]
  | record h =>
    rw [UserType.bare, UserType.bare, map_eq_of_forall₂ h fun _ _ h => h.bare fun _ _ h => h.bare]

theorem TypeDeclaration.Matches.bare {d e : TypeDeclaration} (h : d.Matches Eq ranges e) :
    e.bare = d.bare := by
  rw [TypeDeclaration.bare, TypeDeclaration.bare, h.userType.bare fun _ _ h => h.bare, ← h.name,
    eq_of_optionRel h.fromProgram]

theorem Constant.Matches.bare {c d : Constant} (h : c.Matches Eq ranges d) : d.bare = c.bare := by
  rw [Constant.bare, Constant.bare, h.value.bare (g := id) fun _ _ h => h.eq, ← h.name]

theorem Declarations.Matches.bare {d e : Declarations} (h : d.Matches Eq ranges e) :
    e.bare = d.bare := by
  rw [Declarations.bare, Declarations.bare,
    map_eq_of_forall₂ h.types fun _ _ h => h.bare fun _ _ h => h.bare,
    map_eq_of_forall₂ h.constants fun _ _ h => h.bare fun _ _ h => h.bare]

theorem Tree.Matches.bare {t u : Tree} (h : t.Matches Eq ranges u) : u.bare = t.bare := by
  cases h with
  | declarations h => rw [Tree.bare, Tree.bare, h.bare]
  | typeDeclaration h => rw [Tree.bare, Tree.bare, h.bare fun _ _ h => h.bare]
  | userType h => rw [Tree.bare, Tree.bare, h.bare fun _ _ h => h.bare]
  | dataType h => rw [Tree.bare, Tree.bare, h.bare fun _ _ h => h.bare]
  | constant h => rw [Tree.bare, Tree.bare, h.bare fun _ _ h => h.bare]
  | value h => rw [Tree.bare, Tree.bare, h.bare (g := id) fun _ _ h => h.eq]

end

end KarelKit
