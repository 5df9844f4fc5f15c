import KarelKit.Declaration.Tree
import KarelKit.Proofs.Json.Equality

namespace KarelKit

open Json

theorem Position.faithful : Faithful Position.toJson := by
  intro p q h
  have hline : p.line = q.line := faithful_natural _ _ (h.field "line" (by simp) (by simp))
  have hcolumn : p.column = q.column := faithful_natural _ _ (h.field "column" (by simp) (by simp))
  cases p
  cases q
  simp_all

theorem Range.faithful : Faithful Range.toJson := by
  intro r s h
  have hstart : r.start = s.start := Position.faithful _ _ (h.field "start" (by simp) (by simp))
  have hstop : r.stop = s.stop := Position.faithful _ _ (h.field "end" (by simp) (by simp))
  cases r
  cases s
  simp_all

theorem Located.faithful {α : Type} {write : α → Json} (hwrite : Faithful write) :
    Faithful (Located.toJson write) := by
  intro x y h
  have hnode : x.node = y.node := hwrite _ _ (h.field "node" (by simp) (by simp))
  have hrange : x.range = y.range := Range.faithful _ _ (h.field "range" (by simp) (by simp))
  cases x
  cases y
  simp_all

theorem Value.faithful : Faithful Value.toJson := by
  intro a b h
  -- values of different kinds differ in the kind, those of one kind in what they hold
  cases a with
  | integer m =>
    cases b with
    | integer n =>
      exact congrArg integer (faithful_integer _ _ (h.field "value" (by simp) (by simp)))
    | _ => exact absurd h.kind (by decide)
  | real s =>
    cases b with
    | real t => exact congrArg real (faithful_string _ _ (h.field "value" (by simp) (by simp)))
    | _ => exact absurd h.kind (by decide)
  | string s =>
    cases b with
    | string t => exact congrArg string (faithful_string _ _ (h.field "value" (by simp) (by simp)))
    | _ => exact absurd h.kind (by decide)
  | boolean s =>
    cases b with
    | boolean t => exact congrArg boolean (faithful_bool _ _ (h.field "value" (by simp) (by simp)))
    | _ => exact absurd h.kind (by decide)
  | reference s =>
    cases b with
    | reference t =>
      exact congrArg reference
        (faithful_array faithful_string _ _ (h.field "value" (by simp) (by simp)))
    | _ => exact absurd h.kind (by decide)

theorem Constant.faithful : Faithful Constant.toJson := by
  intro a b h
  have hname : a.name = b.name := faithful_string _ _ (h.field "identifier" (by simp) (by simp))
  have hvalue : a.value = b.value :=
    Located.faithful Value.faithful _ _ (h.field "value" (by simp) (by simp))
  cases a
  cases b
  simp_all

theorem ArraySize.faithful : Faithful ArraySize.toJson := by
  intro a b h
  cases a with
  | literal m =>
    cases b with
    | literal n =>
      exact congrArg literal (faithful_integer _ _ (h.field "value" (by simp) (by simp)))
    | named t => exact absurd h.kind (by decide)
  | named s =>
    cases b with
    | literal n => exact absurd h.kind (by decide)
    | named t => exact congrArg named (faithful_string _ _ (h.field "value" (by simp) (by simp)))

theorem faithful_stringOrNull : Faithful (ofOption string) :=
  faithful_ofOption faithful_string fun _ => by simp

theorem faithful_naturalOrNull : Faithful (ofOption fun n : Nat => integer n) :=
  faithful_ofOption faithful_natural fun _ => by simp

/-- By induction on the first type: only the element of an array is a type again. -/
theorem DataType.faithful : Faithful DataType.toJson := by
  intro a
  induction a with
  | named s group =>
    intro b h
    cases b with
    | named t group' =>
      have hname : s = t := faithful_string _ _ (h.field "identifier" (by simp) (by simp))
      have hgroup : group = group' :=
        faithful_naturalOrNull _ _ (h.field "group" (by simp) (by simp))
      rw [hname, hgroup]
    | _ => exact absurd h.kind (by decide)
  | string m =>
    intro b h
    cases b with
    | string n => exact congrArg string (faithful_natural _ _ (h.field "size" (by simp) (by simp)))
    | _ => exact absurd h.kind (by decide)
  | array sizes element range ih =>
    intro b h
    cases b with
    | array sizes' element' range' =>
      have hsizes : sizes = sizes' := faithful_array (Located.faithful ArraySize.faithful) _ _
        (h.field "sizes" (by simp) (by simp))
      -- the element and its range stand in an object of their own
      have hlocated : Same (.object [("node", element.toJson), ("range", range.toJson)])
          (.object [("node", element'.toJson), ("range", range'.toJson)]) :=
        h.field "element" (by simp) (by simp)
      have helement : element = element' := ih _ (hlocated.field "node" (by simp) (by simp))
      have hrange : range = range' :=
        Range.faithful _ _ (hlocated.field "range" (by simp) (by simp))
      rw [hsizes, helement, hrange]
    | _ => exact absurd h.kind (by decide)
  | position s m =>
    intro b h
    cases b with
    | position t n =>
      have hname : s = t := faithful_string _ _ (h.field "pos_type" (by simp) (by simp))
      have hgroup : m = n := faithful_natural _ _ (h.field "group" (by simp) (by simp))
      rw [hname, hgroup]
    | _ => exact absurd h.kind (by decide)
  | path header s =>
    intro b h
    cases b with
    | path header' t =>
      have hheader : header = header' :=
        faithful_stringOrNull _ _ (h.field "header" (by simp) (by simp))
      have hnodeData : s = t := faithful_string _ _ (h.field "node_data" (by simp) (by simp))
      rw [hheader, hnodeData]
    | _ => exact absurd h.kind (by decide)

theorem Field.faithful : Faithful Field.toJson := by
  intro a b h
  have hname : a.name = b.name := faithful_string _ _ (h.field "identifier" (by simp) (by simp))
  have hdataType : a.dataType = b.dataType :=
    Located.faithful DataType.faithful _ _ (h.field "data_type" (by simp) (by simp))
  cases a
  cases b
  simp_all

theorem UserType.faithful : Faithful UserType.toJson := by
  intro a b h
  cases a with
  | data t =>
    cases b with
    | data u =>
      exact congrArg data (DataType.faithful _ _ (h.field "data_type" (by simp) (by simp)))
    | record fields => exact absurd h.kind (by decide)
  | record fields =>
    cases b with
    | data u => exact absurd h.kind (by decide)
    | record fields' =>
      exact congrArg record
        (faithful_array (Located.faithful Field.faithful) _ _
          (h.field "fields" (by simp) (by simp)))

theorem TypeDeclaration.faithful : Faithful TypeDeclaration.toJson := by
  intro a b h
  have hname : a.name = b.name := faithful_string _ _ (h.field "identifier" (by simp) (by simp))
  have huserType : a.userType = b.userType :=
    Located.faithful UserType.faithful _ _ (h.field "user_type" (by simp) (by simp))
  have hprogram : a.fromProgram = b.fromProgram :=
    faithful_stringOrNull _ _ (h.field "from_program" (by simp) (by simp))
  cases a
  cases b
  simp_all

theorem Declarations.faithful : Faithful Declarations.toJson := by
  intro a b h
  have htypes : a.types = b.types := faithful_array (Located.faithful TypeDeclaration.faithful) _ _
    (h.field "types" (by simp) (by simp))
  have hconstants : a.constants = b.constants :=
    faithful_array (Located.faithful Constant.faithful) _ _
      (h.field "constants" (by simp) (by simp))
  cases a
  cases b
  simp_all

/-- Trees of one sort with equal JSON are the same, with their ranges, whether they are located or
stand alone, and whether or not a text can hold them. -/
theorem encodings_faithful :
    Faithful Declarations.toJson ∧
    (Faithful TypeDeclaration.toJson ∧ Faithful (Located.toJson TypeDeclaration.toJson)) ∧
    (Faithful UserType.toJson ∧ Faithful (Located.toJson UserType.toJson)) ∧
    (Faithful DataType.toJson ∧ Faithful (Located.toJson DataType.toJson)) ∧
    (Faithful Constant.toJson ∧ Faithful (Located.toJson Constant.toJson)) ∧
    (Faithful Value.toJson ∧ Faithful (Located.toJson Value.toJson)) :=
  ⟨Declarations.faithful,
    ⟨TypeDeclaration.faithful, Located.faithful TypeDeclaration.faithful⟩,
    ⟨UserType.faithful, Located.faithful UserType.faithful⟩,
    ⟨DataType.faithful, Located.faithful DataType.faithful⟩,
    ⟨Constant.faithful, Located.faithful Constant.faithful⟩,
    ⟨Value.faithful, Located.faithful Value.faithful⟩⟩

end KarelKit
