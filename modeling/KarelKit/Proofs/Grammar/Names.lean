import KarelKit.Proofs.Grammar.Nesting

namespace KarelKit

open KarelKit.Language (tokens solid)

def Value.names : Value → List String
  | reference path => path
  | _ => []

def Constant.names (c : Constant) : List String := c.name :: c.value.node.names

def ArraySize.names : ArraySize → List String
  | literal _ => []
  | named name => [name]

/-- All names in a type, those of predefined types too, in the order written. -/
def DataType.names : DataType → List String
  | named name _ => [name]
  | string _ => []
  | array sizes element _ => sizes.flatMap (·.node.names) ++ element.names
  | position name _ => [name]
  | path header nodeData => header.toList ++ [nodeData]

def Field.names (f : Field) : List String := f.name :: f.dataType.node.names

def UserType.names : UserType → List String
  | data dataType => dataType.names
  | record fields => fields.flatMap (·.node.names)

def TypeDeclaration.names (d : TypeDeclaration) : List String :=
  d.name :: (d.fromProgram.toList ++ d.userType.node.names)

def Node.names : Node → List String
  | typeDeclaration x => x.node.names
  | userType x => x.node.names
  | field x => x.node.names
  | dataType x => x.node.names
  | arraySize x => x.node.names
  | constant x => x.node.names
  | value x => x.node.names

/-- The words in a range that are not reserved or name a predefined type, as they stand in the
source. -/
def namesWithin (source : String) (u : List Lexeme) (range : Range) : List String :=
  (u.filter fun l => l.node.typeName?.isSome ∧ range.start ≤ l.range.start ∧
    l.range.stop ≤ range.stop).map (·.range.cut source)

theorem DataType.names_settle_bare (t : DataType) : t.settle.bare.names = t.names := by
  induction t with
  | named name group =>
    cases group with
    | none => rfl
    | some group =>
      rw [settle]
      split <;> rfl
  | array sizes element _ ih =>
    simp [settle, bare, names, ih, List.flatMap_map, Located.bare]
  | _ => rfl

theorem Field.names_settle_bare (f : Field) : f.settle.bare.names = f.names :=
  congrArg (f.name :: ·) f.dataType.node.names_settle_bare

theorem UserType.names_settle_bare (t : UserType) : t.settle.bare.names = t.names := by
  cases t with
  | data dataType => exact dataType.names_settle_bare
  | record fields =>
    simp [settle, bare, names, List.flatMap_map, Located.bare, Located.over,
      Field.names_settle_bare]

theorem TypeDeclaration.names_settle_bare (d : TypeDeclaration) :
    d.settle.bare.names = d.names :=
  congrArg (d.name :: d.fromProgram.toList ++ ·) d.userType.node.names_settle_bare

/-- The names among tokens. -/
def wordNames (ts : List Token) : List String := ts.filterMap Token.typeName?

section

variable {ts us : List Token}

@[simp] theorem wordNames_append : wordNames (ts ++ us) = wordNames ts ++ wordNames us :=
  List.filterMap_append

@[simp] theorem wordNames_mark (m : Mark) : wordNames (.mark m :: ts) = wordNames ts := rfl

theorem wordNames_keyword {k : Keyword} {w : String} (h : isKeyword k w = true) :
    wordNames (.word w :: ts) = wordNames ts := by
  have hnone : (Token.word w).typeName? = none := by
    simp [Token.typeName?, isReserved_of_isKeyword h, Token.isBuiltinType_eq_false_of_isKeyword h]
  exact List.filterMap_cons_none hnone

theorem wordNames_typeName {name : String}
    (h : isReserved name = false ∨ isBuiltinType name = true) :
    wordNames (.word name :: ts) = name :: wordNames ts :=
  List.filterMap_cons_some (Token.typeName?_word h)

theorem wordNames_name {name : String} (h : isReserved name = false) :
    wordNames (.word name :: ts) = name :: wordNames ts := wordNames_typeName (.inl h)

theorem wordNames_of_repeats {α : Type} {item : List Token → α → Prop} {f : α → List String}
    {items : List α} (hitem : ∀ vs a, item vs a → wordNames vs = f a)
    (h : Repeats item ts items) : wordNames ts = items.flatMap f := by
  induction h with
  | nil => rfl
  | cons head tail ih => rw [wordNames_append, hitem _ _ head, ih, List.flatMap_cons]

theorem wordNames_of_group {n : Nat} (h : DerivesGroup ts n) : wordNames ts = [] := by
  cases h with
  | mk hw hw' _ =>
    rw [wordNames_keyword hw, wordNames_keyword hw']
    rfl

theorem Value.wordNames_of_derives {v : Value} (h : v.Derives ts) : wordNames ts = v.names := by
  cases h with
  | true hw => exact wordNames_keyword hw
  | false hw => exact wordNames_keyword hw
  | @reference name tokens path hname hpath =>
    have hmore : wordNames tokens = path.flatMap fun n => [n] := by
      apply wordNames_of_repeats _ hpath
      intro vs n hn
      cases hn with
      | mk hn => exact wordNames_name hn
    rw [wordNames_name hname, hmore, List.flatMap_singleton']
    rfl
  | _ => rfl

theorem Constant.wordNames_of_derives {c : Constant} (h : c.Derives ts) :
    wordNames ts = c.names := by
  cases h with
  | mk hname hvalue =>
    rw [wordNames_name hname, wordNames_mark, Value.wordNames_of_derives hvalue]
    rfl

theorem ArraySize.wordNames_of_derives {t : Token} {size : ArraySize} (h : size.Derives t) :
    wordNames [t] = size.names := by
  cases h with
  | literal value => rfl
  | named hname => exact wordNames_name hname

theorem wordNames_of_sizes {sizes : List ArraySize} (h : DerivesSizes ts sizes) :
    wordNames ts = sizes.flatMap ArraySize.names := by
  cases h with
  | omitted => rfl
  | empty => rfl
  | @listed t size tokens sizes hsize hsizes =>
    have hmore : wordNames tokens = sizes.flatMap ArraySize.names := by
      apply wordNames_of_repeats _ hsizes
      intro vs s hs
      cases hs with
      | mk hs => exact ArraySize.wordNames_of_derives hs
    have hfirst := ArraySize.wordNames_of_derives hsize
    rw [wordNames_mark, ← List.singleton_append, wordNames_append, wordNames_append, hfirst, hmore,
      List.flatMap_cons]
    exact congrArg _ (List.append_nil _)

theorem DataType.wordNames_of_derives {t : DataType} (h : t.Derives ts) :
    wordNames ts = t.names := by
  induction h with
  | string hw hn => exact wordNames_keyword hw
  | array hw hsizes hw' helement ih =>
    rw [wordNames_keyword hw, wordNames_append, wordNames_keyword hw', wordNames_of_sizes hsizes,
      ih, DataType.names, List.flatMap_map]
    rfl
  | position hname hgroup =>
    rw [wordNames_name hname, wordNames_of_group hgroup]
    rfl
  | path hw hheader hw' hname =>
    rw [wordNames_keyword hw, wordNames_append, wordNames_keyword hw', wordNames_mark,
      wordNames_name hname]
    cases hheader with
    | none => rfl
    | some hk hprogram =>
      rw [wordNames_keyword hk, wordNames_mark, wordNames_name hprogram]
      rfl
  | named hname => exact wordNames_typeName hname
  | predefined hname hgroup =>
    rw [wordNames_typeName (.inr hname), wordNames_of_group hgroup]
    rfl

theorem Field.wordNames_of_derives {f : Field} (h : f.Derives ts) : wordNames ts = f.names := by
  cases h with
  | mk hname htype =>
    rw [wordNames_name hname, wordNames_mark, DataType.wordNames_of_derives htype]
    rfl

theorem UserType.wordNames_of_derives {t : UserType} (h : t.Derives ts) :
    wordNames ts = t.names := by
  cases h with
  | record hw hfields hne hw' =>
    have hlines := wordNames_of_repeats (fun _ _ h => Field.wordNames_of_derives h) hfields
    rw [wordNames_keyword hw, wordNames_append, wordNames_keyword hw', hlines, UserType.names,
      List.flatMap_map]
    exact List.append_nil _
  | data htype => exact DataType.wordNames_of_derives htype

theorem TypeDeclaration.wordNames_of_derives {d : TypeDeclaration} (h : d.Derives ts) :
    wordNames ts = d.names := by
  cases h with
  | mk hname hfrom htype =>
    rw [wordNames_name hname, wordNames_append, wordNames_mark, UserType.wordNames_of_derives htype]
    cases hfrom with
    | none => rfl
    | some hk hprogram =>
      rw [wordNames_keyword hk, wordNames_name hprogram]
      rfl

end

open KarelKit.Language in
theorem Node.wordNames_of_on {n : Node} {v : List Lexeme} (h : n.On v) :
    wordNames (tokens v) = n.names := by
  cases n with
  | typeDeclaration x =>
    rw [TypeDeclaration.wordNames_of_derives (typeDeclaration_derives h.1),
      TypeDeclaration.names_settle_bare, names]
  | userType x =>
    rw [UserType.wordNames_of_derives (userType_derives h.1), UserType.names_settle_bare, names]
  | field x => rw [Field.wordNames_of_derives (field_derives h.1), Field.names_settle_bare, names]
  | dataType x =>
    rw [DataType.wordNames_of_derives (dataType_derives h.1), DataType.names_settle_bare, names]
  | arraySize x =>
    obtain ⟨t, ht, hsize⟩ := arraySize_derives h.1
    rw [ht, ArraySize.wordNames_of_derives hsize, names]
  | constant x =>
    rw [Constant.wordNames_of_derives (constant_derives h.1), names]
    rfl
  | value x => exact Value.wordNames_of_derives (value_derives h.1)

section

variable {source : String} {x v y : List Lexeme}

theorem wordNames_tokens (v : List Lexeme) :
    wordNames (tokens v) = v.filterMap (·.node.typeName?) := by
  -- a comment has no name, so leaving comments out changes nothing
  rw [wordNames, tokens, List.filterMap_filter, List.filterMap_map]
  congr 1
  funext m
  simp only [Function.comp_apply]
  cases m.node <;> rfl

theorem map_cut_filter (hcut : ∀ m ∈ v, ∀ w, m.node = .word w → m.range.cut source = w) :
    (v.filter (·.node.typeName?.isSome)).map (·.range.cut source) =
      v.filterMap (·.node.typeName?) := by
  induction v with
  | nil => rfl
  | cons m v ih =>
    have ih := ih fun k hk => hcut k (List.mem_cons_of_mem m hk)
    cases hname : m.node.typeName? with
    | none => simp [hname, ih]
    | some w =>
      have hword := hcut m (List.mem_cons_self ..) w (Token.typeName?_eq_some hname).1
      simp [hname, hword, ih]

/-- The names in the range of some lexemes are the names among these. -/
theorem namesWithin_eq {f l : Lexeme} (hrising : Rising (x ++ (v ++ y)))
    (hcut : ∀ m ∈ v, ∀ w, m.node = .word w → m.range.cut source = w)
    (hf : v.head? = some f) (hl : (solid v).getLast? = some l) :
    namesWithin source (x ++ (v ++ y)) ⟨f.range.start, l.range.stop⟩ = wordNames (tokens v) := by
  have hfv : f ∈ v := List.mem_of_head? hf
  have hlv : l ∈ v := Language.mem_of_getLast?_solid hl
  have hafter := hrising.right (u := x)
  -- what stands before starts too early, what stands behind stops too late
  rw [namesWithin, List.filter_append, List.filter_append, List.filter_eq_nil_iff.mpr ?before,
    List.filter_eq_nil_iff (l := y).mpr ?behind, List.nil_append, List.append_nil,
    wordNames_tokens, ← map_cut_filter hcut]
  case before =>
    intro m hm hin
    simp only [decide_eq_true_eq] at hin
    exact Position.not_lt_of_le hin.2.1 (hrising.start_lt hm (List.mem_append_left y hfv))
  case behind =>
    intro m hm hin
    simp only [decide_eq_true_eq] at hin
    exact Position.not_lt_of_le hin.2.2 (hafter.stop_lt hlv hm)
  -- inside, every name counts: the first lexeme starts no later, the last token stops no earlier
  congr 1
  apply List.filter_congr
  intro m hm
  rw [Bool.eq_iff_iff]
  simp only [decide_eq_true_eq, and_iff_left_iff_imp]
  intro hname
  have hsolid : m ∈ solid v := by
    refine Language.mem_solid.mpr ⟨hm, ?_⟩
    obtain ⟨w, hw⟩ := Option.isSome_iff_exists.mp hname
    rw [(Token.typeName?_eq_some hw).1]
    rfl
  exact ⟨hafter.left.start_le hf hm,
    (Language.rising_solid hafter.left).le_stop hl hsolid⟩

end

/-- The names of a node are those in its range of the text. -/
theorem Tree.Has.names_eq {entry : Entry} {source : String} {text : Lexed} {t : Tree} {n : Node}
    (hlex : lex source = .ok text) (h : parse entry source = .ok t) (hn : t.Has n) :
    n.names = namesWithin source text.lexemes n.range := by
  have hrising := rising_of_lex hlex
  obtain ⟨x, v, y, htext, hon⟩ := hn.exists_on ((parse_eq_ok_iff hlex).mp h)
  rw [htext] at hrising ⊢
  obtain ⟨f, l, hf, hl, -, hrange⟩ := Node.exists_frame hrising.right.left hon
  have hcut : ∀ m ∈ v, ∀ w, m.node = .word w → m.range.cut source = w := by
    intro m hm w hw
    have hmem : m ∈ text.lexemes := by
      rw [htext]
      exact List.mem_append_right x (List.mem_append_left y hm)
    exact cut_word hlex hmem hw
  rw [hrange, namesWithin_eq hrising hcut hf hl, Node.wordNames_of_on hon]

end KarelKit
