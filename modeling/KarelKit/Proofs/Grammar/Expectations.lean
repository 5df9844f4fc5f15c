import KarelKit.Proofs.Grammar.ViablePrefix
import KarelKit.Proofs.Rule.Guidance
import KarelKit.Proofs.Token.Scanning

namespace KarelKit

open KarelKit.Language (Outlined)

namespace Rule.Guides

variable {α : Type} {r : Rule α} {L : Language α} {n : Nat}

protected theorem keyword (k : Keyword) : (keyword k).Guides (Language.keyword k) n := by
  refine (Guides.accept ?_ ?_ ?_).bind fun _ => Guides.skipComments
  · intro t a h
    by_cases hk : t.isKeyword k = true
    · exact Token.isComment_of_isKeyword hk
    · rw [if_neg hk] at h
      contradiction
  · intro t ht
    cases ht with
    | keyword h => exact ⟨(), if_pos h⟩
  · exact ⟨_, .keyword (isKeyword_spelling k), Token.isWord_spelling k⟩

protected theorem mark (m : Mark) : (mark m).Guides (Language.mark m) n := by
  refine (Guides.accept ?_ ?_ ?_).bind fun _ => Guides.skipComments
  · intro t a h
    by_cases hm : t = .mark m
    · rw [hm]
      rfl
    · rw [if_neg hm] at h
      contradiction
  · intro t ht
    cases ht with
    | mark => exact ⟨(), if_pos rfl⟩
  · exact ⟨_, .mark m, trivial⟩

protected theorem name : name.Guides Language.name n := by
  apply Guides.accept
  · exact fun _ _ => (Parses.name (n := 0)).outlined.isComment_of_read (by decide)
  · intro t ht
    cases ht with
    | name h => exact ⟨_, Token.name?_word h⟩
  · exact ⟨_, .name (Token.name?_eq_some legible_x.2.1).2, legible_x.1⟩

protected theorem typeName : typeName.Guides Language.typeName n := by
  apply Guides.accept
  · exact fun _ _ => (Parses.typeName (n := 0)).outlined.isComment_of_read (by decide)
  · intro t ht
    cases ht with
    | typeName h => exact ⟨_, Token.typeName?_word h⟩
  · exact ⟨_, .typeName (Token.typeName?_eq_some legible_x.2.2).2, legible_x.1⟩

protected theorem unsigned : unsigned.Guides Language.unsigned n := by
  apply Guides.accept
  · exact fun _ _ => (Parses.unsigned (n := 0)).outlined.isComment_of_read (by decide)
  · intro t ht
    cases ht with
    | @unsignedInteger value h => exact ⟨value, if_pos h⟩
  · exact ⟨.integer 0, .unsignedInteger (by decide), legible_zero⟩

protected theorem bracketed (hr : r.Guides L n) :
    (bracketed r).Guides (Language.bracketed L) n :=
  (Guides.mark _).bind fun _ => hr.bind fun a => (Guides.mark _).map fun _ => a

end Rule.Guides

namespace Grammar

open Rule

variable {n : Nat}

theorem number_guides : number.Guides Language.number n := by
  apply Guides.accept
  · exact fun _ _ => (number_parses (n := 0)).outlined.isComment_of_read (by decide)
  · intro t ht
    cases ht with
    | integer value => exact ⟨.integer value, rfl⟩
    | real literal => exact ⟨.real literal, rfl⟩
  · exact ⟨_, .integer 0, legible_zero⟩

theorem quoted_guides : quoted.Guides Language.quoted n := by
  apply Guides.accept
  · exact fun _ _ => (quoted_parses (n := 0)).outlined.isComment_of_read (by decide)
  · intro t ht
    cases ht with
    | string content => exact ⟨.string content, rfl⟩
  · exact ⟨_, .string "", legible_empty⟩

theorem boolean_guides : boolean.Guides Language.boolean n := by
  apply Guides.accept
  · exact fun _ _ => (boolean_parses (n := 0)).outlined.isComment_of_read (by decide)
  · intro t ht
    cases ht with
    | @boolean word h =>
      by_cases htrue : isKeyword .TRUE word = true
      · exact ⟨.boolean true, if_pos htrue⟩
      · exact ⟨.boolean false, (if_neg htrue).trans (if_pos (h.resolve_left htrue))⟩
  · exact ⟨_, .boolean (Or.inl (isKeyword_spelling .TRUE)), Token.isWord_spelling .TRUE⟩

theorem value_guides : value.Guides Language.value n := by
  have hpath := ((Guides.mark (n := n) .dot).bind fun _ => Guides.name).many
  have hreference : reference.Guides Language.reference n :=
    Guides.name.bind fun first => hpath.map fun path => Value.reference (first :: path)
  exact number_guides.orElse (quoted_guides.orElse (boolean_guides.orElse hreference))

theorem locatedValue_guides : (located value).Guides (Language.located Language.value) n :=
  value_guides.located (value_parses (n := 0)).outlined rfl (by decide)

theorem constant_guides : constant.Guides Language.constant n :=
  Guides.name.bind fun name => (Guides.mark _).bind fun _ =>
    locatedValue_guides.map (Constant.mk name)

theorem group_guides : group.Guides Language.group n :=
  (Guides.keyword _).bind fun _ => (Guides.keyword _).bind fun _ => Guides.unsigned.bracketed

theorem namedType_guides : namedType.Guides Language.namedType n :=
  Guides.typeName.bind fun name => group_guides.optional.map (DataType.named name)

/-- The look ahead expects a position type where it finds none: any name begins one. -/
theorem positionType_guides : positionType.Guides Language.positionType n := by
  have hgroup := fun name : String => (group_guides (n := n)).map (DataType.position name)
  have hinner := Guides.name.bind hgroup
  refine ⟨hinner.viable, fun {c} hc => ?_⟩
  rw [positionType, bind_apply, lookahead]
  by_cases h : namesPosition c.ahead = true
  · rw [if_pos h]
    exact hinner.guides hc
  · rw [if_neg h]
    apply Outcome.Guides.error (.refl c) (List.cons_ne_nil _ [])
    intro x hx
    obtain rfl := List.mem_singleton.mp hx
    have hx := Token.name?_eq_some legible_x.2.1
    refine ⟨⟨_, .positionType hx.2, legible_x.1⟩, fun {l} hl _ => ?_⟩
    obtain ⟨t, range⟩ := l
    cases hl with
    | positionType hword =>
      have hname : Language.name [⟨_, range⟩] _ := ⟨_, rfl, Token.name?_word hword⟩
      exact Language.Viable.right (v := []) hname (hgroup _).viable

variable {r : Rule DataType} {L : Language DataType} {o : Outline}

theorem nameOrPosition_guides (hr : r.Guides L n) (hp : r.Parses L o n) (ho : o.empty = false)
    (hname : .name ∉ o.first) (hpredefined : .predefined ∉ o.first) :
    (positionType <|> r <|> namedType).Guides (L <|> Language.nameOrPosition) n := by
  have hchoice := (positionType_guides (n := n)).orElse (hr.orElse namedType_guides)
  have hviable : ∀ {u}, (Language.positionType <|> L <|> Language.namedType).Viable u →
      (L <|> Language.nameOrPosition).Viable u := by
    intro u h
    obtain ⟨v, t, ht, hvl⟩ := h
    rcases ht with ht | ht | ht
    · obtain ⟨s, hs, -⟩ := namedType_of_positionType ht
      exact ⟨v, _, Or.inr ⟨s, hs, rfl⟩, hvl⟩
    · exact ⟨v, t, Or.inl ht, hvl⟩
    · exact ⟨v, _, Or.inr ⟨t, ht, rfl⟩, hvl⟩
  refine ⟨hviable hchoice.viable, fun {c} hc => ?_⟩
  have hfollows := (nameOrPosition_parses hp ho hname hpredefined).follows hc
  exact (hchoice.guides hc).of_follows hfollows hviable

theorem pathType_guides : pathType.Guides Language.pathType n := by
  have hheader : pathHeader.Guides Language.pathHeader n :=
    (Guides.keyword _).bind fun _ => (Guides.mark _).bind fun _ => Guides.name.bind fun header =>
      (Guides.mark _).map fun _ => header
  exact (Guides.keyword _).bind fun _ => hheader.optional.bind fun header =>
    (Guides.keyword _).bind fun _ => (Guides.mark _).bind fun _ =>
      Guides.name.map (DataType.path header)

theorem stringType_guides : stringType.Guides Language.stringType n :=
  (Guides.keyword _).bind fun _ => Guides.unsigned.bracketed.map DataType.string

theorem arraySize_guides : arraySize.Guides Language.arraySize n := by
  apply Guides.accept
  · exact fun _ _ => (arraySize_parses (n := 0)).outlined.isComment_of_read (by decide)
  · intro t ht
    cases ht with
    | sizeLiteral value => exact ⟨.literal value, rfl⟩
    | @sizeName word h =>
      refine ⟨.named word, ?_⟩
      simp only [Token.name?_word h, Option.map_some]
  · exact ⟨_, .sizeLiteral 0, legible_zero⟩

theorem arrayType_guides (hr : r.Guides L n) (hL : L.Outlined .dataType) :
    (arrayType r).Guides (Language.arrayType L) (n + 1) := by
  have hsize := (arraySize_guides (n := n)).located (arraySize_parses (n := 0)).outlined rfl
    (by decide)
  have hsizes := (hsize.separated (Guides.mark .comma)).bracketed.optional
  have helement := hr.located hL rfl (by decide)
  refine (Guides.keyword _).bind_solid ?_ fun _ => hsizes.bind fun sizes =>
    (Guides.keyword _).bind fun _ => helement.map
      fun x => DataType.array (sizes.getD []) x.node x.range
  exact fun _ => (Parses.keyword (n := 0) _).outlined.solid rfl

theorem dataTypeOf_guides (hr : r.Guides L n) (hL : L.Outlined .dataType) :
    (stringType <|> arrayType r <|> positionType <|> pathType <|> namedType).Guides
      (Language.dataTypeOf L) (n + 1) := by
  have hnamed := nameOrPosition_guides (n := n + 1) pathType_guides pathType_parses rfl (by decide)
    (by decide)
  exact stringType_guides.orElse ((arrayType_guides hr hL).orElse hnamed)

theorem dataType_guides : dataType.Guides Language.dataType n := by
  have hL := (dataType_parses (n := 0)).outlined
  apply Guides.recursive _ hL.viable
  intro r n hr
  rw [Language.dataType_eq]
  exact dataTypeOf_guides hr hL

theorem locatedDataType_guides :
    (located dataType).Guides (Language.located Language.dataType) n :=
  dataType_guides.located (dataType_parses (n := 0)).outlined rfl (by decide)

theorem field_guides : field.Guides Language.field n :=
  Guides.name.bind fun name => (Guides.mark _).bind fun _ =>
    locatedDataType_guides.map (Field.mk name)

theorem recordType_guides : recordType.Guides Language.recordType n := by
  have hitem := ((field_guides (n := n)).located (field_parses (n := 0)).outlined rfl
    (by decide)).trailed
  exact (Guides.keyword _).bind fun _ => hitem.atLeastOne.bind fun fields =>
    (Guides.keyword _).map fun _ => UserType.record fields

theorem userType_guides : userType.Guides Language.userType n :=
  recordType_guides.orElse (dataType_guides.map UserType.data)

theorem locatedUserType_guides :
    (located userType).Guides (Language.located Language.userType) n :=
  userType_guides.located (userType_parses (n := 0)).outlined rfl (by decide)

theorem typeDeclaration_guides : typeDeclaration.Guides Language.typeDeclaration n := by
  have hfrom := ((Guides.keyword (n := n) .FROM).bind fun _ => Guides.name).optional
  exact Guides.name.bind fun name => hfrom.bind fun fromProgram => (Guides.mark _).bind fun _ =>
    locatedUserType_guides.map fun userType => TypeDeclaration.mk name userType fromProgram

theorem locatedTypeDeclaration_guides :
    (located typeDeclaration).Guides (Language.located Language.typeDeclaration) n :=
  typeDeclaration_guides.located (typeDeclaration_parses (n := 0)).outlined rfl (by decide)

theorem locatedConstant_guides :
    (located constant).Guides (Language.located Language.constant) n :=
  constant_guides.located (constant_parses (n := 0)).outlined rfl (by decide)

theorem section_guides : (typeSection <|> constantSection).Guides
    (Language.typeSection <|> Language.constantSection) n := by
  have htypes : typeSection.Guides Language.typeSection n := (Guides.keyword _).bind fun _ =>
    locatedTypeDeclaration_guides.trailed.many.map fun types => Declarations.mk types []
  have hconstants : constantSection.Guides Language.constantSection n :=
    (Guides.keyword _).bind fun _ => locatedConstant_guides.trailed.many.map (Declarations.mk [])
  exact htypes.orElse hconstants

end Grammar

namespace Rule

variable {α : Type}

/-- What an error on a whole text names: tokens that go on with what has been read, or the end of
the text where what has been read is a sentence. -/
def Directs (W : Language α) (text : Lexed) (e : ParseError) : Prop :=
  ∃ u c, (Cursor.start text).Past u c ∧ e = c.unexpected e.expected ∧ e.expected ≠ [] ∧
    ∀ x ∈ e.expected, W.Welcomes u x ∨ x = .endOfInput ∧ ∃ a, W u a

theorem directs_finish {W : Language α} {text : Lexed} {rc : Outcome α} {e : ParseError}
    {expected : List Expectation} (hrc : rc.Guides W (.start text)) (hne : expected ≠ [])
    (hexpected : ∀ u a, W u a → ∀ x ∈ expected, W.Welcomes u x ∨ x = .endOfInput)
    (h : rc.finish expected = .error e) : Directs W text e := by
  cases hrc with
  | @ok u a c past sentence =>
    rw [Outcome.finish] at h
    split at h
    · contradiction
    · cases h
      refine ⟨u, c, past, rfl, hne, fun x hx => ?_⟩
      exact (hexpected u a sentence x hx).imp_right fun hx => ⟨hx, a, sentence⟩
  | @error u expected' c past named usable =>
    cases h
    exact ⟨u, c, past, rfl, named, fun x hx => Or.inl (usable x hx)⟩

theorem readAll_directs {r : Rule α} {L : Language α} (hr : ∀ n, r.Guides L n) {text : Lexed}
    {e : ParseError} (h : readAll r text = .error e) : Directs L.whole text e := by
  rw [readAll_eq] at h
  refine directs_finish (W := L.whole) ?_ (List.cons_ne_nil _ []) ?_ h
  · exact (Guides.skipComments.bind fun _ => (hr _).trailed).guides (Nat.lt_succ_self _)
  · intro u a _ x hx
    exact Or.inr (List.mem_singleton.mp hx)

end Rule

open Grammar KarelKit.Language Rule

/-- Behind any number of sections another one may begin. -/
theorem welcomes_section {u : List Lexeme} {t : Tree} (h : Entry.declarations.language u t)
    {k : Keyword} (hk : k = .TYPE ∨ k = .CONST) :
    Entry.declarations.language.Welcomes u (.keyword k) := by
  refine ⟨⟨_, .keyword (isKeyword_spelling k), Token.isWord_spelling k⟩, fun {l} hl _ => ?_⟩
  have hkeyword : Language.keyword k [l] () := by
    obtain ⟨t, range⟩ := l
    cases hl with
    | keyword h => exact keyword_of_isKeyword h
  -- a header alone is a section, so the text that goes on with it is accepted
  have hsection : ∃ d, (Language.typeSection <|> Language.constantSection) ([l] ++ []) d := by
    rcases hk with rfl | rfl
    · exact ⟨_, Or.inl (bind_intro hkeyword (bind_pure .nil))⟩
    · exact ⟨_, Or.inr (bind_intro hkeyword (bind_pure .nil))⟩
  obtain ⟨d, hd⟩ := hsection
  obtain ⟨v, w, _, rfl, hv, hw⟩ := h
  obtain ⟨s, hs, rfl⟩ := bind_pure_iff.mp hw
  rw [List.append_assoc]
  exact viable_of_sentence (bind_intro hv (bind_pure (many_append hs (.cons hd .nil))))

theorem Entry.directs (entry : Entry) {text : Lexed} {e : ParseError}
    (h : readAll entry.rule text = .error e) : Directs entry.language text e := by
  cases entry with
  | declarations =>
    rw [readAll_declarations] at h
    refine directs_finish ?_ (List.cons_ne_nil _ _) ?_ h
    · have hsections := (section_guides (n := (Cursor.start text).size + 1)).many.map fun s =>
        Tree.declarations (.join s)
      exact (Guides.skipComments.bind fun _ => hsections).guides (Nat.lt_succ_self _)
    · intro u t ht x hx
      simp only [List.mem_cons, List.not_mem_nil, or_false] at hx
      rcases hx with rfl | rfl | rfl
      · exact Or.inl (welcomes_section ht (Or.inl rfl))
      · exact Or.inl (welcomes_section ht (Or.inr rfl))
      · exact Or.inr rfl
  | typeDeclaration =>
    exact readAll_directs (fun _ => locatedTypeDeclaration_guides.map _) h
  | userType => exact readAll_directs (fun _ => locatedUserType_guides.map _) h
  | dataType => exact readAll_directs (fun _ => locatedDataType_guides.map _) h
  | constant => exact readAll_directs (fun _ => locatedConstant_guides.map _) h
  | value => exact readAll_directs (fun _ => locatedValue_guides.map _) h

/-- An error is reported at a place of the text. -/
theorem exists_offset_of_parse_error {entry : Entry} {source : String} {e : ParseError}
    (h : parse entry source = .error e) :
    ∃ offset ≤ source.length, e.position = Position.atOffset source.toList offset := by
  unfold parse at h
  cases hlex : lex source with
  | error e' =>
    rw [hlex] at h
    cases h
    exact exists_offset_of_lex_error hlex
  | ok text =>
    rw [hlex] at h
    obtain ⟨u, c, past, he, -⟩ := entry.directs h
    rw [he]
    change ∃ offset ≤ source.length, c.here = _
    have hahead : text.lexemes = u ++ c.ahead := past.ahead
    rw [← String.length_toList]
    -- the place is that of the token ahead, or the end of the text
    cases hnext : c.ahead with
    | nil =>
      refine ⟨source.toList.length, Nat.le_refl _, ?_⟩
      rw [Position.atOffset_length, ← (Token.lexFrom_of_lex hlex).2, Cursor.here, hnext]
      exact past.stop
    | cons l rest =>
      obtain ⟨spans, hspans⟩ := (Token.lexes_of_lex hlex).tiles [] rfl
      obtain ⟨span, hspan⟩ := hspans.exists_span (l := l) (by simp [hahead, hnext])
      refine ⟨span.start, Nat.le_trans (Nat.le_of_lt hspan.nonempty) hspan.inside, ?_⟩
      rw [Cursor.here, hnext]
      exact congrArg Range.start hspan.range

end KarelKit
