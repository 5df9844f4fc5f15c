import KarelKit.Proofs.Declaration.Settle
import KarelKit.Proofs.Grammar.Declarations
import KarelKit.Proofs.Grammar.Derivation

namespace KarelKit
namespace Language

variable {α β : Type} {L L' : Language α} {M : α → Language β} {P : α → Prop} {Q : β → Prop}
  {ts us : List Token}

/-- Lexemes with the tokens `ts` are sentences, each for some value that has `P`. -/
def Spells (L : Language α) (ts : List Token) (P : α → Prop) : Prop :=
  ∀ u, u.map (·.node) = ts → ∃ a, L u a ∧ P a

namespace Spells

theorem mono {P' : α → Prop} (h : L.Spells ts P) (hP : ∀ {a}, P a → P' a) : L.Spells ts P' := by
  intro u hu
  obtain ⟨a, ha, hPa⟩ := h u hu
  exact ⟨a, ha, hP hPa⟩

protected theorem pure {a : α} (h : P a) : (pure a : Language α).Spells [] P := by
  intro u hu
  exact ⟨a, ⟨List.map_eq_nil_iff.mp hu, rfl⟩, h⟩

protected theorem bind (hL : L.Spells ts P) (hM : ∀ a, P a → (M a).Spells us Q) :
    (L >>= M).Spells (ts ++ us) Q := by
  intro u hu
  obtain ⟨v, w, rfl, hv, hw⟩ := List.map_eq_append_iff.mp hu
  obtain ⟨a, ha, hPa⟩ := hL v hv
  obtain ⟨b, hb, hQb⟩ := hM a hPa w hw
  exact ⟨b, bind_intro ha hb, hQb⟩

protected theorem map {f : α → β} (h : L.Spells ts fun a => Q (f a)) :
    (L >>= fun a => pure (f a)).Spells ts Q := by
  intro u hu
  obtain ⟨a, ha, hQ⟩ := h u hu
  exact ⟨f a, bind_pure ha, hQ⟩

protected theorem one {read : Token → Option α} {t : Token} {a : α} (hread : read t = some a)
    (h : P a) : (Language.one read).Spells [t] P := by
  intro u hu
  obtain ⟨l, rfl, rfl⟩ := List.map_eq_singleton_iff.mp hu
  exact ⟨a, ⟨l, rfl, hread⟩, h⟩

protected theorem comments : comments.Spells [] fun _ => True := by
  intro u hu
  refine ⟨(), ?_, trivial⟩
  rw [List.map_eq_nil_iff.mp hu]
  intro l hl
  contradiction

protected theorem left (h : L.Spells ts P) : (L <|> L').Spells ts P := by
  intro u hu
  obtain ⟨a, ha, hPa⟩ := h u hu
  exact ⟨a, Or.inl ha, hPa⟩

protected theorem right (h : L'.Spells ts P) : (L <|> L').Spells ts P := by
  intro u hu
  obtain ⟨a, ha, hPa⟩ := h u hu
  exact ⟨a, Or.inr ha, hPa⟩

protected theorem none : (optional L).Spells [] (· = none) := by
  intro u hu
  exact ⟨none, List.map_eq_nil_iff.mp hu, rfl⟩

protected theorem some (h : L.Spells ts P) :
    (optional L).Spells ts fun o => ∃ a, o = some a ∧ P a := by
  intro u hu
  obtain ⟨a, ha, hPa⟩ := h u hu
  exact ⟨some a, ha, a, rfl, hPa⟩

protected theorem many {item : List Token → β → Prop} {f : α → β} {items : List β}
    (hitem : ∀ {ts b}, item ts b → L.Spells ts fun a => f a = b) (h : Repeats item ts items) :
    (many L).Spells ts fun as => as.map f = items := by
  induction h with
  | nil =>
    intro u hu
    rw [List.map_eq_nil_iff.mp hu]
    exact ⟨[], .nil, rfl⟩
  | cons head _ ih =>
    intro u hu
    obtain ⟨v, w, rfl, hv, hw⟩ := List.map_eq_append_iff.mp hu
    obtain ⟨a, ha, rfl⟩ := hitem head v hv
    obtain ⟨as, has, rfl⟩ := ih w hw
    exact ⟨a :: as, .cons ha has, rfl⟩

protected theorem located (h : L.Spells ts P) : (located L).Spells ts fun x => P x.node := by
  intro u hu
  obtain ⟨a, ha, hPa⟩ := h u hu
  exact ⟨⟨a, span u⟩, ⟨ha, rfl⟩, hPa⟩

protected theorem trailed (h : L.Spells ts P) : (trailed L).Spells ts P := by
  intro u hu
  obtain ⟨a, ha, hPa⟩ := h u hu
  refine ⟨a, Outlined.trailed_iff.mpr ⟨u, [], (List.append_nil u).symm, ha, ?_⟩, hPa⟩
  intro l hl
  contradiction

protected theorem whole (h : L.Spells ts P) : L.whole.Spells ts P :=
  Spells.comments.bind fun _ _ => h.trailed

protected theorem keyword {k : Keyword} {w : String} (hw : isKeyword k w = true) :
    (keyword k).Spells [.word w] fun _ => True :=
  (Spells.one (t := .word w) (a := ()) (P := fun _ => True) (if_pos hw) trivial).bind
    fun _ _ => Spells.comments

protected theorem mark (m : Mark) : (mark m).Spells [.mark m] fun _ => True :=
  (Spells.one (a := ()) (P := fun _ => True) (if_pos rfl) trivial).bind fun _ _ => Spells.comments

protected theorem name {name : String} (h : isReserved name = false) :
    Language.name.Spells [.word name] (· = name) := by
  apply Spells.one (P := (· = name)) _ rfl
  simp [Token.name?, h]

protected theorem bracketed (h : L.Spells ts P) :
    (bracketed L).Spells (.mark .leftBracket :: (ts ++ [.mark .rightBracket])) P := by
  apply (Spells.mark .leftBracket).bind
  intro _ _
  apply h.bind
  intro a ha
  exact (Spells.mark .rightBracket).bind fun _ _ => Spells.pure ha

protected theorem unsigned {n : Nat} (h : n < 0x100000000) :
    unsigned.Spells [.integer n] (· = n) := by
  apply Spells.one (P := (· = n)) _ rfl
  change (if n < 0x100000000 then some n else none) = some n
  rw [if_pos h]

end Spells

theorem component_spells {name : String} (h : DerivesComponent ts name) :
    (mark .dot >>= fun _ => Language.name).Spells ts (· = name) := by
  cases h with
  | mk hname => exact (Spells.mark .dot).bind fun _ _ => Spells.name hname

theorem value_spells {v : Value} (h : v.Derives ts) : Language.value.Spells ts (· = v) := by
  cases h with
  | integer value => exact .left (.one rfl rfl)
  | real literal => exact .left (.one rfl rfl)
  | string content => exact .right (.left (.one rfl rfl))
  | @true w hw => exact .right (.right (.left (.one (if_pos hw) rfl)))
  | @false w hw =>
    -- no word is both keywords
    have htrue : ¬isKeyword .TRUE w = true := by
      intro htrue
      have hkeyword := (Token.terminal_of_isKeyword (t := .word w) htrue).symm.trans
        (Token.terminal_of_isKeyword (t := .word w) hw)
      contradiction
    exact .right (.right (.left (.one ((if_neg htrue).trans (if_pos hw)) rfl)))
  | @reference name tokens path hname hpath =>
    apply Spells.right (.right (.right _))
    apply (Spells.name hname).bind
    intro a ha
    subst ha
    have htail := Spells.many (f := id) component_spells hpath
    exact .map (htail.mono fun hpath => by rw [← hpath, List.map_id])

theorem constant_spells {c : Constant} (h : c.Derives ts) :
    constant.Spells ts fun d => d.bare = c := by
  cases h with
  | @mk name tokens value hname hvalue =>
    apply (Spells.name hname).bind
    intro a ha
    subst ha
    apply (Spells.mark .equals).bind
    intro _ _
    exact .map ((value_spells hvalue).located.mono fun hx => by rw [← hx]; rfl)

theorem group_spells {g : Nat} (h : DerivesGroup ts g) : group.Spells ts (· = g) := by
  cases h with
  | @mk w w' _ hw hw' hn =>
    apply (Spells.keyword hw).bind
    intro _ _
    apply (Spells.keyword hw').bind
    intro _ _
    exact (Spells.unsigned hn).bracketed

theorem typeName_spells {name : String} (h : isReserved name = false ∨ isBuiltinType name = true) :
    typeName.Spells [.word name] (· = name) := by
  apply Spells.one (P := (· = name)) _ rfl
  rcases h with h | h
  · simp [Token.typeName?, h]
  · simp [Token.typeName?, h]

theorem namedGroup_spells {name : String} {g : Nat}
    (h : isReserved name = false ∨ isBuiltinType name = true) (hg : DerivesGroup ts g) :
    namedType.Spells (.word name :: ts) (· = .named name (some g)) := by
  apply (typeName_spells h).bind
  intro a ha
  subst ha
  apply Spells.map
  apply (group_spells hg).some.mono
  intro o ho
  obtain ⟨_, rfl, rfl⟩ := ho
  rfl

/-- The first three lexemes of a name with a motion group, and whether they name a position. -/
theorem namesPosition_of_group {name : String} {g : Nat} (hg : DerivesGroup ts g)
    {u : List Lexeme} (hu : u.map (·.node) = .word name :: ts) :
    Grammar.namesPosition u = !isReserved name := by
  cases hg with
  | @mk w w' _ hw hw' hn =>
    obtain ⟨l₁, u, rfl, h₁, hu⟩ := List.map_eq_cons_iff.mp hu
    obtain ⟨l₂, u, rfl, h₂, hu⟩ := List.map_eq_cons_iff.mp hu
    obtain ⟨l₃, u, rfl, h₃, -⟩ := List.map_eq_cons_iff.mp hu
    have hin : l₂.node.isKeyword .IN = true := by rw [h₂]; exact hw
    have hgroup : l₃.node.isKeyword .GROUP = true := by rw [h₃]; exact hw'
    -- the other two are the group's keywords, so the first one decides
    cases hreserved : isReserved name <;>
      simp [Grammar.namesPosition, hin, hgroup, h₁, Token.name?, hreserved]

theorem position_spells {name : String} {g : Nat} (h : isReserved name = false)
    (hg : DerivesGroup ts g) : nameOrPosition.Spells (.word name :: ts) (· = .position name g) := by
  intro u hu
  obtain ⟨s, hs, rfl⟩ := namedGroup_spells (Or.inl h) hg u hu
  have hposition := namesPosition_of_group hg hu
  refine ⟨_, ⟨_, hs, rfl⟩, ?_⟩
  rw [hposition, h]
  rfl

theorem predefined_spells {name : String} {g : Nat} (h : isBuiltinType name = true)
    (hg : DerivesGroup ts g) :
    nameOrPosition.Spells (.word name :: ts) (· = .named name (some g)) := by
  intro u hu
  obtain ⟨s, hs, rfl⟩ := namedGroup_spells (Or.inr h) hg u hu
  have hposition := namesPosition_of_group hg hu
  refine ⟨_, ⟨_, hs, rfl⟩, ?_⟩
  rw [hposition, isReserved, h, Bool.or_true]
  rfl

theorem named_spells {name : String} (h : isReserved name = false ∨ isBuiltinType name = true) :
    nameOrPosition.Spells [.word name] (· = .named name none) := by
  intro u hu
  have hnamed : namedType.Spells ([.word name] ++ []) (· = .named name none) := by
    apply (typeName_spells h).bind
    intro a ha
    subst ha
    exact .map (Spells.none.mono fun ho => by rw [ho])
  obtain ⟨s, hs, rfl⟩ := hnamed u hu
  obtain ⟨l, rfl, -⟩ := List.map_eq_singleton_iff.mp hu
  exact ⟨_, ⟨_, hs, rfl⟩, rfl⟩

theorem pathType_spells {w w' name : String} {header : Option String}
    (hw : isKeyword .PATH w = true) (hheader : DerivesHeader ts header)
    (hw' : isKeyword .NODEDATA w' = true) (hname : isReserved name = false) :
    pathType.Spells (.word w :: (ts ++ [.word w', .mark .equals, .word name]))
      (· = .path header name) := by
  have hoptional : (optional pathHeader).Spells ts (· = header) := by
    cases hheader with
    | none => exact Spells.none
    | @some k program hk hprogram =>
      have h : pathHeader.Spells [.word k, .mark .equals, .word program, .mark .comma]
          (· = program) := by
        apply (Spells.keyword hk).bind
        intro _ _
        apply (Spells.mark .equals).bind
        intro _ _
        apply (Spells.name hprogram).bind
        intro a ha
        exact (Spells.mark .comma).bind fun _ _ => Spells.pure ha
      apply h.some.mono
      intro o ho
      obtain ⟨_, rfl, rfl⟩ := ho
      rfl
  apply (Spells.keyword hw).bind
  intro _ _
  apply hoptional.bind
  intro _ ho
  apply (Spells.keyword hw').bind
  intro _ _
  apply (Spells.mark .equals).bind
  intro _ _
  exact .map ((Spells.name hname).mono fun ha => by rw [ho, ha])

theorem arraySize_spells {t : Token} {size : ArraySize} (h : size.Derives t) :
    arraySize.Spells [t] (· = size) := by
  cases h with
  | literal value => exact .one (P := (· = ArraySize.literal value)) rfl rfl
  | @named name hname =>
    apply Spells.one (P := (· = ArraySize.named name)) _ rfl
    simp [Token.name?, hname]

theorem nextSize_spells {size : ArraySize} (h : DerivesNextSize ts size) :
    (mark .comma >>= fun _ => located arraySize).Spells ts fun x => x.node = size := by
  cases h with
  | mk hsize => exact (Spells.mark .comma).bind fun _ _ => (arraySize_spells hsize).located

theorem arraySizes_spells {sizes : List ArraySize} (h : DerivesSizes ts sizes) :
    (optional (bracketed (separated (located arraySize) (mark .comma)))).Spells ts
      fun o => (o.getD []).map (·.node) = sizes := by
  cases h with
  | omitted => exact Spells.none.mono fun ho => by rw [ho]; rfl
  | empty =>
    have hnone : (separated (located arraySize) (mark .comma)).Spells ([] ++ []) (· = []) :=
      Spells.none.bind fun o ho => by
        subst ho
        exact Spells.pure rfl
    apply hnone.bracketed.some.mono
    intro o ho
    obtain ⟨_, rfl, rfl⟩ := ho
    rfl
  | @listed t size tokens sizes hsize hsizes =>
    have hlist : (separated (located arraySize) (mark .comma)).Spells ([t] ++ tokens)
        fun xs => xs.map (·.node) = size :: sizes := by
      apply (arraySize_spells hsize).located.some.bind
      intro o ho
      obtain ⟨x, rfl, hx⟩ := ho
      exact .map ((Spells.many nextSize_spells hsizes).mono fun hxs => by
        rw [List.map_cons, hx, hxs])
    apply hlist.bracketed.some.mono
    intro o ho
    obtain ⟨_, rfl, ho⟩ := ho
    exact ho

theorem dataType_spells {t : DataType} (h : t.Derives ts) :
    dataType.Spells ts fun s => s.bare = t := by
  induction h with
  | @string w n hw hn =>
    rw [dataType_eq]
    have hsize := (Spells.unsigned hn).bracketed
    exact .left ((Spells.keyword hw).bind fun _ _ => .map (hsize.mono fun ha => by rw [ha]; rfl))
  | @array w w' tokens rest sizes element hw hsizes hw' helement ih =>
    rw [dataType_eq]
    apply Spells.right (.left _)
    apply (Spells.keyword hw).bind
    intro _ _
    apply (arraySizes_spells hsizes).bind
    intro o ho
    apply (Spells.keyword hw').bind
    intro _ _
    apply Spells.map
    apply ih.located.mono
    intro x hx
    rw [DataType.bare, hx, ← ho, List.map_map]
    rfl
  | position hname hgroup =>
    rw [dataType_eq]
    exact .right (.right (.right ((position_spells hname hgroup).mono fun ha => by rw [ha]; rfl)))
  | path hw hheader hw' hname =>
    rw [dataType_eq]
    exact .right (.right (.left ((pathType_spells hw hheader hw' hname).mono fun ha => by
      rw [ha]; rfl)))
  | named hname =>
    rw [dataType_eq]
    exact .right (.right (.right ((named_spells hname).mono fun ha => by rw [ha]; rfl)))
  | predefined hname hgroup =>
    rw [dataType_eq]
    exact .right (.right (.right ((predefined_spells hname hgroup).mono fun ha => by rw [ha]; rfl)))

theorem field_spells {f : Field} (h : f.Derives ts) : field.Spells ts fun g => g.bare = f := by
  cases h with
  | mk hname htype =>
    apply (Spells.name hname).bind
    intro a ha
    subst ha
    apply (Spells.mark .colon).bind
    intro _ _
    apply Spells.map
    apply (dataType_spells htype).located.mono
    intro x hx
    simp only [Field.bare, Located.bare, Located.unplaced, hx]

/-- Items that stand without ranges. -/
theorem items_spell {L : Language α} {item : List Token → β → Prop} {f : α → β} {items : List β}
    (hitem : ∀ {ts b}, item ts b → L.Spells ts fun a => f a = b) (h : Repeats item ts items) :
    (many (trailed (located L))).Spells ts fun xs => xs.map (fun x => f x.node) = items :=
  Spells.many (fun hb => (hitem hb).located.trailed) h

theorem recordType_spells {w w' : String} {fields : List Field}
    (hw : isKeyword .STRUCTURE w = true) (hfields : Repeats Field.Derives ts fields)
    (hne : fields ≠ []) (hw' : isKeyword .ENDSTRUCTURE w' = true) :
    recordType.Spells (.word w :: (ts ++ [.word w']))
      fun t => t.bare = .record (fields.map .unplaced) := by
  have hitems : (atLeastOne (trailed (located field))).Spells ts
      fun xs => xs.map (fun x => x.node.bare) = fields := by
    cases hfields with
    | nil => contradiction
    | cons head tail =>
      apply (field_spells head).located.trailed.bind
      intro x hx
      exact .map ((items_spell field_spells tail).mono fun hxs => by rw [List.map_cons, hx, hxs])
  apply (Spells.keyword hw).bind
  intro _ _
  apply hitems.bind
  intro xs hxs
  apply (Spells.keyword hw').bind
  intro _ _
  apply Spells.pure
  rw [UserType.bare, ← hxs, List.map_map]
  rfl

theorem userType_spells {t : UserType} (h : t.Derives ts) :
    userType.Spells ts fun s => s.bare = t := by
  cases h with
  | record hw hfields hne hw' => exact .left (recordType_spells hw hfields hne hw')
  | data htype =>
    exact .right (.map ((dataType_spells htype).mono fun hs => by rw [UserType.bare, hs]))

theorem fromProgram_spells {fromProgram : Option String} (h : DerivesFrom ts fromProgram) :
    (optional (keyword .FROM >>= fun _ => Language.name)).Spells ts (· = fromProgram) := by
  cases h with
  | none => exact Spells.none
  | some hw hname =>
    apply ((Spells.keyword hw).bind fun _ _ => Spells.name hname).some.mono
    intro o ho
    obtain ⟨_, rfl, rfl⟩ := ho
    rfl

theorem typeDeclaration_spells {d : TypeDeclaration} (h : d.Derives ts) :
    typeDeclaration.Spells ts fun e => e.bare = d := by
  cases h with
  | mk hname hfrom htype =>
    apply (Spells.name hname).bind
    intro a ha
    subst ha
    apply (fromProgram_spells hfrom).bind
    intro o ho
    subst ho
    apply (Spells.mark .equals).bind
    intro _ _
    apply Spells.map
    apply (userType_spells htype).located.mono
    intro x hx
    simp only [TypeDeclaration.bare, Located.bare, Located.unplaced, hx]

theorem sections_spell {d : Declarations} (h : d.Derives ts) :
    sections.Spells ts fun s => (Declarations.join s).bare = d := by
  -- a section and those behind it, whichever keyword opens it
  have hcons : ∀ {ts us d e}, (typeSection <|> constantSection).Spells ts (fun c => c.bare = d) →
      sections.Spells us (fun s => (Declarations.join s).bare = e) →
      sections.Spells (ts ++ us) fun s => (Declarations.join s).bare = d ++ e := by
    intro ts us d e head tail u hu
    obtain ⟨v, w, rfl, hv, hw⟩ := List.map_eq_append_iff.mp hu
    obtain ⟨c, hc, rfl⟩ := head v hv
    obtain ⟨s, hs, rfl⟩ := tail w hw
    exact ⟨c :: s, .cons hc hs, Declarations.bare_append c _⟩
  induction h with
  | nil =>
    intro u hu
    rw [List.map_eq_nil_iff.mp hu]
    exact ⟨[], .nil, rfl⟩
  | @types w tokens rest types d hw htypes _ ih =>
    rw [← List.cons_append]
    apply hcons _ ih
    apply Spells.left
    apply (Spells.keyword hw).bind
    intro _ _
    apply Spells.map
    apply (items_spell typeDeclaration_spells htypes).mono
    intro xs hxs
    rw [Declarations.bare, ← hxs, List.map_map]
    rfl
  | @constants w tokens rest constants d hw hconstants _ ih =>
    rw [← List.cons_append]
    apply hcons _ ih
    apply Spells.right
    apply (Spells.keyword hw).bind
    intro _ _
    apply Spells.map
    apply (items_spell constant_spells hconstants).mono
    intro xs hxs
    rw [Declarations.bare, ← hxs, List.map_map]
    rfl

end Language

open KarelKit.Language in
theorem Entry.spells {entry : Entry} {ts : List Token} {b : Tree} (h : entry.Derives ts b) :
    entry.language.Spells ts fun t => t.bare = b := by
  cases h with
  | declarations h =>
    apply Spells.comments.bind
    intro _ _
    exact .map ((sections_spell h).mono fun hs => by rw [Tree.bare, hs])
  | typeDeclaration h =>
    exact .whole (.map ((typeDeclaration_spells h).located.mono fun hx => by
      rw [Tree.bare, Located.bare, hx]; rfl))
  | userType h =>
    exact .whole (.map ((userType_spells h).located.mono fun hx => by
      rw [Tree.bare, Located.bare, hx]; rfl))
  | dataType h =>
    exact .whole (.map ((dataType_spells h).located.mono fun hx => by
      rw [Tree.bare, Located.bare, hx]; rfl))
  | constant h =>
    exact .whole (.map ((constant_spells h).located.mono fun hx => by
      rw [Tree.bare, Located.bare, hx]; rfl))
  | value h =>
    exact .whole (.map ((value_spells h).located.mono fun hx => by
      rw [Tree.bare, Located.bare, hx]; rfl))

end KarelKit
