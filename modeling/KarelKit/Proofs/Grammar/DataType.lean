import KarelKit.Proofs.Grammar.NamedType

namespace KarelKit

namespace Language

def stringType : Language DataType := do
  keyword .STRING
  return .string (← bracketed unsigned)

def arraySize : Language ArraySize :=
  one fun
    | .integer value => some (.literal value)
    | t => t.name?.map .named

def arrayHead : Language (Option (List (Located ArraySize))) := do
  keyword .ARRAY
  let sizes ← optional (bracketed (separated (located arraySize) (mark .comma)))
  keyword .OF
  return sizes

def arrayType (element : Language DataType) : Language DataType := do
  keyword .ARRAY
  let sizes ← optional (bracketed (separated (located arraySize) (mark .comma)))
  keyword .OF
  let element ← located element
  return .array (sizes.getD []) element.node element.range

def pathHeader : Language String := do
  keyword .PATHHEADER
  mark .equals
  let header ← name
  mark .comma
  return header

def pathType : Language DataType := do
  keyword .PATH
  let header ← optional pathHeader
  keyword .NODEDATA
  mark .equals
  return .path header (← name)

/-- Data types with elements from another language in their outermost array. -/
def dataTypeOf (element : Language DataType) : Language DataType :=
  stringType <|> arrayType element <|> pathType <|> nameOrPosition

/-- Data types in which arrays are nested at most `depth` deep. -/
def dataTypeTo : Nat → Language DataType
  | 0 => stringType <|> pathType <|> nameOrPosition
  | depth + 1 => dataTypeOf (dataTypeTo depth)

def dataType : Language DataType := fun u t => ∃ depth, dataTypeTo depth u t

theorem arrayType_iff {L : Language DataType} {u : List Lexeme} {t : DataType} :
    arrayType L u t ↔ ∃ v w sizes element, u = v ++ w ∧ arrayHead v sizes ∧ L w element ∧
      t = .array (sizes.getD []) element (span w) := by
  constructor
  · intro h
    obtain ⟨v₁, _, _, rfl, h₁, v₂, _, sizes, rfl, h₂, v₃, _, _, rfl, h₃, hw⟩ := h
    obtain ⟨element, ⟨hnode, hrange⟩, rfl⟩ := bind_pure_iff.mp hw
    refine ⟨v₁ ++ (v₂ ++ v₃), _, sizes, element.node, by simp, ?_, hnode, by rw [hrange]⟩
    exact bind_intro h₁ (bind_intro h₂ (bind_pure (f := fun _ => sizes) h₃))
  · intro h
    obtain ⟨v, w, sizes, element, rfl, hv, hw, rfl⟩ := h
    obtain ⟨v₁, _, _, rfl, h₁, v₂, v₃, dimensions, rfl, h₂, h₃⟩ := hv
    obtain ⟨_, hof, rfl⟩ := (bind_pure_iff (f := fun _ => dimensions)).mp h₃
    rw [List.append_assoc, List.append_assoc]
    refine bind_intro h₁ (bind_intro h₂ (bind_intro hof ?_))
    exact bind_pure
      (f := fun x : Located DataType => DataType.array (sizes.getD []) x.node x.range)
      (a := ⟨element, span w⟩) ⟨hw, rfl⟩

theorem dataTypeOf_mono {L M : Language DataType} (h : ∀ {u t}, L u t → M u t)
    {u : List Lexeme} {t : DataType} (hu : dataTypeOf L u t) : dataTypeOf M u t := by
  refine hu.imp_right (Or.imp_left ?_)
  intro harray
  obtain ⟨v, w, sizes, element, rfl, hv, hw, rfl⟩ := arrayType_iff.mp harray
  exact arrayType_iff.mpr ⟨v, w, sizes, element, rfl, hv, h hw, rfl⟩

theorem dataTypeTo_succ {n : Nat} {u : List Lexeme} {t : DataType} (h : dataTypeTo n u t) :
    dataTypeTo (n + 1) u t := by
  induction n generalizing u t with
  | zero => exact h.imp_right Or.inr
  | succ n ih => exact dataTypeOf_mono ih h

theorem dataTypeTo_mono {m n : Nat} (hmn : m ≤ n) {u : List Lexeme} {t : DataType}
    (h : dataTypeTo m u t) : dataTypeTo n u t := by
  induction hmn with
  | refl => exact h
  | step _ ih => exact dataTypeTo_succ ih

theorem dataType_eq : dataType = dataTypeOf dataType := by
  funext u t
  apply propext
  constructor
  · intro h
    obtain ⟨n, hn⟩ := h
    exact dataTypeOf_mono (fun hu => ⟨n, hu⟩) (dataTypeTo_succ hn)
  · intro h
    rcases h with hstring | harray | hrest
    · exact ⟨0, Or.inl hstring⟩
    · obtain ⟨v, w, sizes, element, rfl, hv, ⟨n, hw⟩, rfl⟩ := arrayType_iff.mp harray
      exact ⟨n + 1, Or.inr (Or.inl (arrayType_iff.mpr ⟨v, w, sizes, element, rfl, hv, hw, rfl⟩))⟩
    · exact ⟨0, Or.inr hrest⟩

end Language

def Outline.dataType : Outline :=
  ⟨false, [.keyword .STRING, .keyword .ARRAY, .keyword .PATH, .name, .predefined],
    [.comment, .keyword .IN]⟩

namespace Grammar

open Rule
open KarelKit.Language (Outlined)

variable {n : Nat} {r : Rule DataType} {L : Language DataType}

theorem stringType_parses :
    stringType.Parses Language.stringType ⟨false, [.keyword .STRING], [.comment]⟩ n := by
  have hsize := Parses.unsigned.bracketed (n := n) (by decide) (by decide)
  exact ((Parses.keyword .STRING).bind (fun _ => hsize.map DataType.string) (by decide)).mono
    (by decide)

theorem arraySize_parses :
    arraySize.Parses Language.arraySize ⟨false, [.integer, .name], []⟩ n := by
  apply Parses.accept
  · intro t a h
    split at h
    · exact List.mem_cons_self ..
    · obtain ⟨name, hname, -⟩ := Option.map_eq_some_iff.mp h
      rw [Token.terminal_of_name? hname]
      decide
  · exact ⟨.integer 0, .literal 0, legible_zero, rfl⟩
  · decide

theorem sizes_parses : (bracketed (separated (located arraySize) (mark .comma))).Parses
    (Language.bracketed
      (Language.separated (Language.located Language.arraySize) (Language.mark .comma)))
    ⟨false, [.mark .leftBracket], [.comment]⟩ n := by
  have hsize := arraySize_parses.located (n := n) rfl (by decide)
  have hsizes := hsize.separated rfl (by decide) (Parses.mark .comma) rfl (by decide) (by decide)
    (by decide) (by decide)
  exact hsizes.bracketed (by decide) (by decide)

theorem arraySizes_parses :
    (optional (bracketed (separated (located arraySize) (mark .comma)))).Parses
      (Language.optional (Language.bracketed
        (Language.separated (Language.located Language.arraySize) (Language.mark .comma))))
      ⟨true, [.mark .leftBracket], [.comment, .mark .leftBracket]⟩ n :=
  (sizes_parses.optional rfl (by decide)).mono (by decide)

theorem arrayType_parses (hr : r.Parses L .dataType n) :
    (arrayType r).Parses (Language.arrayType L)
      ⟨false, [.keyword .ARRAY], [.comment, .keyword .IN]⟩ (n + 1) := by
  have helement := fun sizes : Option (List (Located ArraySize)) =>
    (hr.located rfl (by decide)).map fun x => DataType.array (sizes.getD []) x.node x.range
  have hof := fun sizes => (Parses.keyword .OF).bind (fun _ => helement sizes) (by decide)
  have hsizes := arraySizes_parses.bind hof (by decide)
  exact ((Parses.keyword .ARRAY).bind_solid rfl (fun _ => hsizes) (by decide)).mono (by decide)

theorem pathHeader_parses :
    pathHeader.Parses Language.pathHeader ⟨false, [.keyword .PATHHEADER], [.comment]⟩ n := by
  have hcomma := fun header : String => (Parses.mark (n := n) .comma).map fun _ => header
  have hname := Parses.name.bind hcomma (by decide)
  have hequals := (Parses.mark .equals).bind (fun _ => hname) (by decide)
  exact ((Parses.keyword .PATHHEADER).bind (fun _ => hequals) (by decide)).mono (by decide)

theorem pathType_parses :
    pathType.Parses Language.pathType ⟨false, [.keyword .PATH], []⟩ n := by
  have hname := fun header => (Parses.name (n := n)).map (DataType.path header)
  have hequals := fun header => (Parses.mark .equals).bind (fun _ => hname header) (by decide)
  have hdata := fun header => (Parses.keyword .NODEDATA).bind (fun _ => hequals header) (by decide)
  have hheader := (pathHeader_parses.optional rfl (by decide)).bind hdata (by decide)
  exact ((Parses.keyword .PATH).bind (fun _ => hheader) (by decide)).mono (by decide)

theorem dataTypeOf_parses (hr : r.Parses L .dataType n) :
    (stringType <|> arrayType r <|> positionType <|> pathType <|> namedType).Parses
      (Language.dataTypeOf L) .dataType (n + 1) := by
  have hnamed := nameOrPosition_parses (n := n + 1) pathType_parses rfl (by decide) (by decide)
  have harray := (arrayType_parses hr).orElse hnamed rfl rfl (by decide)
  exact (stringType_parses.orElse harray rfl rfl (by decide)).mono (by decide)

theorem dataTypeTo_outlined (depth : Nat) : (Language.dataTypeTo depth).Outlined .dataType := by
  induction depth with
  | zero =>
    have hnamed := (pathType_parses (n := 0)).outlined.orElse nameOrPosition_outlined rfl rfl
      (by decide)
    exact ((stringType_parses (n := 0)).outlined.orElse hnamed rfl rfl (by decide)).mono
      (by decide)
  | succ depth ih =>
    -- the outline does not depend on a rule, and any rule reads fewer than no tokens
    have hfail : (fail []).Parses (Language.dataTypeTo depth) .dataType 0 :=
      ⟨ih, fun h => absurd h (Nat.not_lt_zero _)⟩
    exact (dataTypeOf_parses hfail).outlined

theorem dataType_parses : dataType.Parses Language.dataType .dataType n := by
  apply Parses.recursive
  · intro r n hr
    rw [Language.dataType_eq]
    exact dataTypeOf_parses hr
  · exact Outlined.union dataTypeTo_outlined fun hmn h => Language.dataTypeTo_mono hmn h

end Grammar
end KarelKit
