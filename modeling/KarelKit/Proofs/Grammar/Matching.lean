import KarelKit.Grammar.Parse
import KarelKit.Proofs.Declaration.Matching
import KarelKit.Proofs.Grammar.Parsing
import KarelKit.Proofs.Rule.Matching

namespace KarelKit

open Rule (Keeps)

variable {m : Matching}

namespace Grammar

theorem number_keeps : Keeps m (Value.Matches m.name) number number := by
  refine Keeps.accept _ fun ht => ?_
  cases ht with
  | integer value => exact .some (.integer value)
  | real literal => exact .some (.real literal)
  | _ => exact .none

theorem quoted_keeps : Keeps m (Value.Matches m.name) quoted quoted := by
  refine Keeps.accept _ fun ht => ?_
  cases ht with
  | string content => exact .some (.string content)
  | _ => exact .none

theorem boolean_keeps : Keeps m (Value.Matches m.name) boolean boolean := by
  refine Keeps.accept _ fun ht => ?_
  simp only [ht.isKeyword]
  split
  · exact .some (.boolean true)
  · split
    · exact .some (.boolean false)
    · exact .none

theorem reference_keeps : Keeps m (Value.Matches m.name) reference reference :=
  Keeps.name.bind fun _ _ h =>
    ((Keeps.mark .dot).bind fun _ _ _ => Keeps.name).many.map fun _ _ h' => .reference (.cons h h')

theorem value_keeps : Keeps m (Value.Matches m.name) value value :=
  number_keeps.orElse (quoted_keeps.orElse (boolean_keeps.orElse reference_keeps))

theorem located_keeps {α : Type} {V : α → α → Prop} {r : Rule α} (hr : Keeps m V r r) :
    Keeps m (Located.Matches m.range V) (Rule.located r) (Rule.located r) :=
  Keeps.here.bind fun _ _ hstart => hr.bind fun _ _ h => Keeps.lastEnd.map fun _ _ hstop =>
    ⟨h, m.between hstart hstop⟩

theorem constant_keeps : Keeps m (Constant.Matches m.name m.range) constant constant :=
  Keeps.name.bind fun _ _ h => (Keeps.mark _).bind fun _ _ _ =>
    (located_keeps value_keeps).map fun _ _ h' => ⟨h, h'⟩

theorem group_keeps : Keeps m Eq group group :=
  (Keeps.keyword _).bind fun _ _ _ => (Keeps.keyword _).bind fun _ _ _ => Keeps.unsigned.bracketed

theorem stringType_keeps : Keeps m (DataType.Matches m.name m.range) stringType stringType := by
  refine (Keeps.keyword _).bind fun _ _ _ => Keeps.unsigned.bracketed.map fun size _ h => ?_
  rw [← h]
  exact .string size

theorem arraySize_keeps : Keeps m (ArraySize.Matches m.name) arraySize arraySize := by
  refine Keeps.accept _ fun ht => ?_
  cases ht with
  | integer value => exact .some (.literal value)
  | @word text text' hcase h =>
    have hname := (Token.Matches.word hcase h).name?
    change Option.Rel _ ((Token.word text).name?.map ArraySize.named)
      ((Token.word text').name?.map ArraySize.named)
    generalize (Token.word text).name? = name at hname ⊢
    generalize (Token.word text').name? = name' at hname ⊢
    cases hname with
    | none => exact .none
    | some h => exact .some (.named h)
  | _ => exact .none

theorem arrayType_keeps {element : Rule DataType}
    (h : Keeps m (DataType.Matches m.name m.range) element element) :
    Keeps m (DataType.Matches m.name m.range) (arrayType element) (arrayType element) := by
  have hsizes := ((located_keeps arraySize_keeps).separated
    (Keeps.mark (m := m) .comma)).bracketed.optional
  refine (Keeps.keyword _).bind fun _ _ _ => hsizes.bind fun _ _ hsizes =>
    (Keeps.keyword _).bind fun _ _ _ => (located_keeps h).map fun _ _ h => ?_
  refine .array ?_ h.node h.range
  cases hsizes with
  | none => exact .nil
  | some hsizes => exact hsizes

theorem namesPosition_matches {u u' : List Lexeme} (h : List.Forall₂ m.lexeme u u') :
    namesPosition u' = namesPosition u := by
  have hname : ∀ {l l'}, m.lexeme l l' → l'.node.name?.isSome = l.node.name?.isSome := by
    intro l l' hl
    have h := (m.token_of hl).name?
    generalize l.node.name? = name at h ⊢
    generalize l'.node.name? = name' at h ⊢
    cases h <;> rfl
  cases h with
  | nil => rfl
  | cons h₁ h =>
    cases h with
    | nil => rfl
    | cons h₂ h =>
      cases h with
      | nil => rfl
      | cons h₃ _ =>
        simp only [namesPosition, hname h₁, (m.token_of h₂).isKeyword, (m.token_of h₃).isKeyword]

theorem positionType_keeps :
    Keeps m (DataType.Matches m.name m.range) positionType positionType := by
  refine (Keeps.lookahead _ namesPosition_matches).bind fun _ _ _ => Keeps.name.bind
    fun _ _ h => group_keeps.map fun group _ h' => ?_
  rw [← h']
  exact .position h group

theorem pathType_keeps : Keeps m (DataType.Matches m.name m.range) pathType pathType := by
  have hheader : Keeps m m.name pathHeader pathHeader := (Keeps.keyword _).bind fun _ _ _ =>
    (Keeps.mark _).bind fun _ _ _ => Keeps.name.bind fun _ _ h => (Keeps.mark _).bind
      fun _ _ _ => Keeps.pure h
  exact (Keeps.keyword _).bind fun _ _ _ => hheader.optional.bind fun _ _ h =>
    (Keeps.keyword _).bind fun _ _ _ => (Keeps.mark _).bind fun _ _ _ => Keeps.name.map
      fun _ _ h' => .path h h'

theorem namedType_keeps : Keeps m (DataType.Matches m.name m.range) namedType namedType := by
  refine Keeps.typeName.bind fun _ _ h => group_keeps.optional.map fun group _ h' => ?_
  rw [eq_of_optionRel h']
  exact .named h group

theorem dataType_keeps : Keeps m (DataType.Matches m.name m.range) dataType dataType :=
  Keeps.recursive fun h => stringType_keeps.orElse ((arrayType_keeps h).orElse
    (positionType_keeps.orElse (pathType_keeps.orElse namedType_keeps)))

theorem item_keeps {α : Type} {V : α → α → Prop} {r : Rule α} (hr : Keeps m V r r) :
    Keeps m (Located.Matches m.range V) (item r) (item r) :=
  (located_keeps hr).bind fun _ _ h => Keeps.skipComments.map fun _ _ _ => h

theorem field_keeps : Keeps m (Field.Matches m.name m.range) field field :=
  Keeps.name.bind fun _ _ h => (Keeps.mark _).bind fun _ _ _ =>
    (located_keeps dataType_keeps).map fun _ _ h' => ⟨h, h'⟩

theorem userType_keeps : Keeps m (UserType.Matches m.name m.range) userType userType := by
  have hrecord : Keeps m (UserType.Matches m.name m.range) recordType recordType :=
    (Keeps.keyword _).bind fun _ _ _ => (item_keeps field_keeps).atLeastOne.bind fun _ _ h =>
      (Keeps.keyword _).map fun _ _ _ => .record h
  exact hrecord.orElse (dataType_keeps.map fun _ _ h => .data h)

theorem typeDeclaration_keeps :
    Keeps m (TypeDeclaration.Matches m.name m.range) typeDeclaration typeDeclaration := by
  have hfrom := ((Keeps.keyword (m := m) .FROM).bind fun _ _ _ => Keeps.name).optional
  exact Keeps.name.bind fun _ _ h => hfrom.bind fun _ _ h' => (Keeps.mark _).bind fun _ _ _ =>
    (located_keeps userType_keeps).map fun _ _ h'' => ⟨h, h'', h'⟩

theorem matches_join {s s' : List Declarations}
    (h : List.Forall₂ (Declarations.Matches m.name m.range) s s') :
    (Declarations.join s).Matches m.name m.range (.join s') := by
  induction h with
  | nil => exact ⟨.nil, .nil⟩
  | cons h _ ih =>
    exact ⟨List.rel_append h.types ih.types, List.rel_append h.constants ih.constants⟩

theorem sections_keeps : Keeps m (List.Forall₂ (Declarations.Matches m.name m.range))
    (Rule.many (typeSection <|> constantSection)) (Rule.many (typeSection <|> constantSection)) := by
  have htypes : Keeps m (Declarations.Matches m.name m.range) typeSection typeSection :=
    (Keeps.keyword _).bind fun _ _ _ => (item_keeps typeDeclaration_keeps).many.map
      fun _ _ h => ⟨h, .nil⟩
  have hconstants : Keeps m (Declarations.Matches m.name m.range) constantSection constantSection :=
    (Keeps.keyword _).bind fun _ _ _ => (item_keeps constant_keeps).many.map
      fun _ _ h => ⟨.nil, h⟩
  exact (htypes.orElse hconstants).many

theorem declarations_keeps :
    Keeps m (Declarations.Matches m.name m.range) declarations declarations :=
  sections_keeps.bind fun _ _ h => (Keeps.lookahead _ isEmpty_matches).map fun _ _ _ =>
    matches_join h

end Grammar

open Grammar

theorem Entry.keeps (entry : Entry) :
    Keeps m (Tree.Matches m.name m.range) entry.rule entry.rule := by
  cases entry with
  | declarations => exact declarations_keeps.map fun _ _ h => .declarations h
  | typeDeclaration =>
    exact (located_keeps typeDeclaration_keeps).map fun _ _ h => .typeDeclaration h
  | userType => exact (located_keeps userType_keeps).map fun _ _ h => .userType h
  | dataType => exact (located_keeps dataType_keeps).map fun _ _ h => .dataType h
  | constant => exact (located_keeps constant_keeps).map fun _ _ h => .constant h
  | value => exact (located_keeps value_keeps).map fun _ _ h => .value h

/-- Two texts whose lexemes match are both parsed or both refused. -/
theorem parse_matches {source source' : String} {text text' : Lexed}
    (hlex : lex source = .ok text) (hlex' : lex source' = .ok text')
    (h : (Cursor.start text).Matches m (.start text')) (entry : Entry) :
    ResultsMatch m (Tree.Matches m.name m.range) (parse entry source) (parse entry source') := by
  rw [parse_of_lex hlex, parse_of_lex hlex']
  exact entry.keeps.readAll h

end KarelKit
