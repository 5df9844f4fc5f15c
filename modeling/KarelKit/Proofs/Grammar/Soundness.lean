import KarelKit.Proofs.Declaration.Settle
import KarelKit.Proofs.Grammar.Declarations
import KarelKit.Proofs.Grammar.Derivation

namespace KarelKit
namespace Language

variable {α β : Type} {L : Language α} {u : List Lexeme}

/-- The tokens that are no comments. -/
def tokens (u : List Lexeme) : List Token := (u.map (·.node)).filter (!·.isComment)

theorem tokens_append (u v : List Lexeme) : tokens (u ++ v) = tokens u ++ tokens v := by
  simp [tokens]

theorem tokens_of_comments (h : ∀ l ∈ u, l.node.isComment = true) : tokens u = [] := by
  unfold tokens
  rw [List.filter_eq_nil_iff]
  intro t ht
  obtain ⟨l, hl, rfl⟩ := List.mem_map.mp ht
  simp [h l hl]

theorem tokens_of_no_comments (h : ∀ l ∈ u, l.node.isComment = false) :
    tokens u = u.map (·.node) := by
  unfold tokens
  rw [List.filter_eq_self]
  intro t ht
  obtain ⟨l, hl, rfl⟩ := List.mem_map.mp ht
  simp [h l hl]

theorem tokens_word {l : Lexeme} {w : String} (h : l.node = .word w) : tokens [l] = [.word w] := by
  simp [tokens, h, Token.isComment]

theorem keyword_tokens {k : Keyword} {a : Unit} (h : keyword k u a) :
    ∃ w, tokens u = [.word w] ∧ isKeyword k w = true := by
  obtain ⟨_, v, _, rfl, ⟨⟨t, range⟩, rfl, hl⟩, hv⟩ := h
  simp only at hl
  by_cases ht : t.isKeyword k = true
  · cases t with
    | word w =>
      refine ⟨w, ?_, ht⟩
      rw [tokens_append, tokens_of_comments hv]
      rfl
    | _ => contradiction
  · rw [if_neg ht] at hl
    contradiction

theorem mark_tokens {m : Mark} {a : Unit} (h : mark m u a) : tokens u = [.mark m] := by
  obtain ⟨_, v, _, rfl, ⟨⟨t, range⟩, rfl, hl⟩, hv⟩ := h
  simp only at hl
  by_cases ht : t = .mark m
  · subst ht
    rw [tokens_append, tokens_of_comments hv]
    rfl
  · rw [if_neg ht] at hl
    contradiction

theorem name_tokens {name : String} (h : Language.name u name) :
    tokens u = [.word name] ∧ isReserved name = false := by
  obtain ⟨l, rfl, hl⟩ := h
  obtain ⟨hword, hreserved⟩ := Token.name?_eq_some hl
  exact ⟨tokens_word hword, hreserved⟩

theorem typeName_tokens {name : String} (h : typeName u name) : tokens u = [.word name] ∧
    (isReserved name = false ∨ isBuiltinType name = true) := by
  obtain ⟨l, rfl, hl⟩ := h
  obtain ⟨hword, hname⟩ := Token.typeName?_eq_some hl
  exact ⟨tokens_word hword, hname⟩

theorem unsigned_tokens {n : Nat} (h : unsigned u n) :
    tokens u = [.integer n] ∧ n < 0x100000000 := by
  obtain ⟨⟨t, range⟩, rfl, hl⟩ := h
  simp only at hl
  split at hl
  · split at hl
    · rename_i hn
      cases hl
      exact ⟨rfl, hn⟩
    · contradiction
  · contradiction

theorem bracketed_tokens {a : α} (h : bracketed L u a) :
    ∃ v, L v a ∧ tokens u = .mark .leftBracket :: (tokens v ++ [.mark .rightBracket]) := by
  obtain ⟨v₁, _, _, rfl, h₁, v₂, _, _, rfl, h₂, h₃⟩ := h
  obtain ⟨_, hright, rfl⟩ := bind_pure_iff.mp h₃
  refine ⟨v₂, h₂, ?_⟩
  rw [tokens_append, tokens_append, mark_tokens h₁, mark_tokens hright]
  rfl

theorem trailed_tokens {a : α} (h : trailed L u a) : ∃ v, L v a ∧ tokens u = tokens v := by
  obtain ⟨v, w, rfl, hv, hw⟩ := Outlined.trailed_iff.mp h
  refine ⟨v, hv, ?_⟩
  rw [tokens_append, tokens_of_comments hw, List.append_nil]

theorem many_derives {item : List Token → β → Prop} {f : α → β} {items : List α}
    (hitem : ∀ v a, L v a → item (tokens v) (f a)) (h : (many L) u items) :
    Repeats item (tokens u) (items.map f) := by
  induction h with
  | nil => exact .nil
  | cons head tail ih =>
    rw [tokens_append]
    exact .cons (hitem _ _ head) ih

theorem component_derives {name : String}
    (h : (mark .dot >>= fun _ => Language.name) u name) : DerivesComponent (tokens u) name := by
  obtain ⟨v, w, _, rfl, hv, hw⟩ := h
  obtain ⟨hname, hreserved⟩ := name_tokens hw
  rw [tokens_append, mark_tokens hv, hname]
  exact .mk hreserved

theorem reference_derives {value : Value} (h : reference u value) : value.Derives (tokens u) := by
  obtain ⟨v, w, name, rfl, hv, hw⟩ := h
  obtain ⟨path, hpath, rfl⟩ := bind_pure_iff.mp hw
  obtain ⟨hname, hreserved⟩ := name_tokens hv
  have htail := many_derives (f := id) (fun _ _ => component_derives) hpath
  rw [tokens_append, hname]
  rw [List.map_id] at htail
  exact .reference hreserved htail

theorem boolean_derives {value : Value} (h : boolean u value) : value.Derives (tokens u) := by
  obtain ⟨⟨t, range⟩, rfl, hl⟩ := h
  cases t with
  | word w =>
    rw [tokens_word rfl]
    simp only at hl
    by_cases htrue : (Token.word w).isKeyword .TRUE = true
    · rw [if_pos htrue] at hl
      cases hl
      exact .true htrue
    · rw [if_neg htrue] at hl
      by_cases hfalse : (Token.word w).isKeyword .FALSE = true
      · rw [if_pos hfalse] at hl
        cases hl
        exact .false hfalse
      · rw [if_neg hfalse] at hl
        contradiction
  | _ => contradiction

theorem value_derives {value : Value} (h : Language.value u value) : value.Derives (tokens u) := by
  rcases h with hnumber | hquoted | hboolean | hreference
  · obtain ⟨⟨t, range⟩, rfl, hl⟩ := hnumber
    cases t with
    | integer n =>
      cases hl
      exact .integer n
    | real literal =>
      cases hl
      exact .real literal
    | _ => contradiction
  · obtain ⟨⟨t, range⟩, rfl, hl⟩ := hquoted
    cases t with
    | string content =>
      cases hl
      exact .string content
    | _ => contradiction
  · exact boolean_derives hboolean
  · exact reference_derives hreference

theorem constant_derives {c : Constant} (h : constant u c) : c.bare.Derives (tokens u) := by
  obtain ⟨v₁, _, name, rfl, h₁, v₂, w, _, rfl, h₂, hw⟩ := h
  obtain ⟨value, ⟨hvalue, -⟩, rfl⟩ := bind_pure_iff.mp hw
  obtain ⟨hname, hreserved⟩ := name_tokens h₁
  rw [tokens_append, tokens_append, hname, mark_tokens h₂]
  exact .mk hreserved (value_derives hvalue)

theorem group_derives {g : Nat} (h : group u g) : DerivesGroup (tokens u) g := by
  obtain ⟨v₁, _, _, rfl, h₁, v₂, v₃, _, rfl, h₂, h₃⟩ := h
  obtain ⟨w, hw, hin⟩ := keyword_tokens h₁
  obtain ⟨w', hw', hgroup⟩ := keyword_tokens h₂
  obtain ⟨v, hv, hbrackets⟩ := bracketed_tokens h₃
  obtain ⟨hsize, hrange⟩ := unsigned_tokens hv
  rw [tokens_append, tokens_append, hw, hw', hbrackets, hsize]
  exact .mk hin hgroup hrange

/-- Settled, both readings of a name with a motion group are the same. -/
theorem settle_asPosition {t : DataType} {u : List Lexeme} (ht : namedType u t)
    (hu : Grammar.namesPosition u = true) : t.asPosition.settle = t.settle := by
  obtain ⟨v, w, name, rfl, ⟨l, rfl, hl⟩, hw⟩ := ht
  obtain ⟨g, -, rfl⟩ := bind_pure_iff.mp hw
  cases g with
  | none => rfl
  | some g =>
    have hname : l.node.name?.isSome = true := by
      match w, hu with
      | _ :: _ :: _, hu =>
        simp only [List.singleton_append, Grammar.namesPosition, Bool.and_eq_true] at hu
        exact hu.1.1
    obtain ⟨name', hname'⟩ := Option.isSome_iff_exists.mp hname
    obtain ⟨hword, hreserved⟩ := Token.name?_eq_some hname'
    rw [(Token.typeName?_eq_some hl).1] at hword
    cases hword
    simp [DataType.asPosition, DataType.settle, Token.isBuiltinType_of_not_isReserved hreserved]

theorem namedType_derives {t : DataType} (h : namedType u t) :
    t.settle.bare.Derives (tokens u) := by
  obtain ⟨v, w, name, rfl, hv, hw⟩ := h
  obtain ⟨g, hg, rfl⟩ := bind_pure_iff.mp hw
  obtain ⟨htokens, hname⟩ := typeName_tokens hv
  rw [tokens_append, htokens]
  cases g with
  | none =>
    obtain rfl : w = [] := hg
    exact .named hname
  | some g =>
    have hgroup := group_derives hg
    rw [DataType.settle]
    by_cases hbuiltin : isBuiltinType name = true
    · rw [if_pos hbuiltin]
      exact .predefined hbuiltin hgroup
    · rw [if_neg hbuiltin]
      exact .position (hname.resolve_right hbuiltin) hgroup

theorem nameOrPosition_derives {t : DataType} (h : nameOrPosition u t) :
    t.settle.bare.Derives (tokens u) := by
  obtain ⟨s, hs, rfl⟩ := h
  by_cases hu : Grammar.namesPosition u = true
  · rw [if_pos hu, settle_asPosition hs hu]
    exact namedType_derives hs
  · rw [if_neg hu]
    exact namedType_derives hs

theorem stringType_derives {t : DataType} (h : stringType u t) :
    t.settle.bare.Derives (tokens u) := by
  obtain ⟨v, w, _, rfl, hv, hw⟩ := h
  obtain ⟨n, hn, rfl⟩ := bind_pure_iff.mp hw
  obtain ⟨k, hk, hstring⟩ := keyword_tokens hv
  obtain ⟨v', hv', hbrackets⟩ := bracketed_tokens hn
  obtain ⟨hsize, hrange⟩ := unsigned_tokens hv'
  rw [tokens_append, hk, hbrackets, hsize]
  exact .string hstring hrange

theorem pathHeader_derives {header : Option String} (h : (optional pathHeader) u header) :
    DerivesHeader (tokens u) header := by
  cases header with
  | none =>
    obtain rfl : u = [] := h
    exact .none
  | some header =>
    obtain ⟨v₁, _, _, rfl, h₁, v₂, _, _, rfl, h₂, v₃, _, name, rfl, h₃, h₄⟩ := h
    obtain ⟨_, hcomma, rfl⟩ := bind_pure_iff.mp h₄
    obtain ⟨w, hw, hkeyword⟩ := keyword_tokens h₁
    obtain ⟨hname, hreserved⟩ := name_tokens h₃
    rw [tokens_append, tokens_append, tokens_append, hw, mark_tokens h₂, hname, mark_tokens hcomma]
    exact .some hkeyword hreserved

theorem pathType_derives {t : DataType} (h : pathType u t) : t.settle.bare.Derives (tokens u) := by
  obtain ⟨v₁, _, _, rfl, h₁, v₂, _, header, rfl, h₂, v₃, _, _, rfl, h₃, v₄, _, _, rfl, h₄, h₅⟩ := h
  obtain ⟨name, hname, rfl⟩ := bind_pure_iff.mp h₅
  obtain ⟨w, hw, hpath⟩ := keyword_tokens h₁
  obtain ⟨w', hw', hdata⟩ := keyword_tokens h₃
  obtain ⟨hname', hreserved⟩ := name_tokens hname
  rw [tokens_append, tokens_append, tokens_append, tokens_append, hw, hw', mark_tokens h₄, hname']
  exact .path hpath (pathHeader_derives h₂) hdata hreserved

theorem arraySize_derives {size : ArraySize} (h : arraySize u size) :
    ∃ t, tokens u = [t] ∧ size.Derives t := by
  obtain ⟨⟨t, range⟩, rfl, hl⟩ := h
  simp only at hl
  split at hl
  · cases hl
    exact ⟨_, rfl, .literal _⟩
  · obtain ⟨name, hname, rfl⟩ := Option.map_eq_some_iff.mp hl
    obtain ⟨rfl, hreserved⟩ := Token.name?_eq_some hname
    exact ⟨_, tokens_word rfl, .named hreserved⟩

theorem nextSize_derives {size : Located ArraySize}
    (h : (mark .comma >>= fun _ => located arraySize) u size) :
    DerivesNextSize (tokens u) size.node := by
  obtain ⟨v, w, _, rfl, hv, hw, -⟩ := h
  obtain ⟨t, ht, hsize⟩ := arraySize_derives hw
  rw [tokens_append, mark_tokens hv, ht]
  exact .mk hsize

theorem arraySizes_derives {sizes : Option (List (Located ArraySize))}
    (h : (optional (bracketed (separated (located arraySize) (mark .comma)))) u sizes) :
    DerivesSizes (tokens u) ((sizes.getD []).map (·.node)) := by
  cases sizes with
  | none =>
    obtain rfl : u = [] := h
    exact .omitted
  | some sizes =>
    obtain ⟨v, ⟨w, rest, size, rfl, hsize, hrest⟩, hv⟩ := bracketed_tokens h
    rw [hv]
    cases size with
    | none =>
      obtain ⟨rfl, rfl⟩ := hrest
      obtain rfl : w = [] := hsize
      exact .empty
    | some size =>
      obtain ⟨more, hmore, rfl⟩ := bind_pure_iff.mp hrest
      obtain ⟨t, ht, hderives⟩ := arraySize_derives hsize.1
      rw [tokens_append, ht]
      exact .listed hderives (many_derives (fun _ _ => nextSize_derives) hmore)

theorem arrayHead_derives {sizes : Option (List (Located ArraySize))} (h : arrayHead u sizes) :
    ∃ w tokens w', Language.tokens u = .word w :: (tokens ++ [.word w']) ∧
      isKeyword .ARRAY w = true ∧ DerivesSizes tokens ((sizes.getD []).map (·.node)) ∧
      isKeyword .OF w' = true := by
  obtain ⟨v₁, _, _, rfl, h₁, v₂, v₃, _, rfl, h₂, h₃⟩ := h
  obtain ⟨_, hof, rfl⟩ := bind_pure_iff.mp h₃
  obtain ⟨w, hw, harray⟩ := keyword_tokens h₁
  obtain ⟨w', hw', hkeyword⟩ := keyword_tokens hof
  refine ⟨w, tokens v₂, w', ?_, harray, arraySizes_derives h₂, hkeyword⟩
  rw [tokens_append, tokens_append, hw, hw']
  rfl

theorem dataTypeTo_derives {depth : Nat} {t : DataType} (h : dataTypeTo depth u t) :
    t.settle.bare.Derives (tokens u) := by
  induction depth generalizing u t with
  | zero =>
    rcases h with hstring | hpath | hnamed
    · exact stringType_derives hstring
    · exact pathType_derives hpath
    · exact nameOrPosition_derives hnamed
  | succ depth ih =>
    rcases h with hstring | harray | hpath | hnamed
    · exact stringType_derives hstring
    · obtain ⟨v, w, sizes, element, rfl, hv, helement, rfl⟩ := arrayType_iff.mp harray
      obtain ⟨k, sizeTokens, k', hhead, hk, hsizes, hk'⟩ := arrayHead_derives hv
      have hderives := DataType.Derives.array hk hsizes hk' (ih helement)
      rw [tokens_append, hhead, DataType.settle, DataType.bare]
      rw [List.map_map] at hderives
      rwa [List.cons_append, List.append_assoc, List.singleton_append]
    · exact pathType_derives hpath
    · exact nameOrPosition_derives hnamed

theorem dataType_derives {t : DataType} (h : dataType u t) :
    t.settle.bare.Derives (tokens u) := by
  obtain ⟨depth, h⟩ := h
  exact dataTypeTo_derives h

theorem field_derives {f : Field} (h : field u f) : f.settle.bare.Derives (tokens u) := by
  obtain ⟨v₁, _, name, rfl, h₁, v₂, w, _, rfl, h₂, hw⟩ := h
  obtain ⟨dataType, ⟨htype, -⟩, rfl⟩ := bind_pure_iff.mp hw
  obtain ⟨hname, hreserved⟩ := name_tokens h₁
  rw [tokens_append, tokens_append, hname, mark_tokens h₂]
  exact .mk hreserved (dataType_derives htype)

/-- Items with comments after them. -/
theorem items_derives {item : List Token → β → Prop} {f : α → β} {items : List (Located α)}
    (hitem : ∀ {v a}, L v a → item (tokens v) (f a)) (h : (many (trailed (located L))) u items) :
    Repeats item (tokens u) (items.map fun x => f x.node) := by
  apply many_derives (f := fun x : Located α => f x.node) _ h
  intro v x hx
  obtain ⟨v, ⟨hv, -⟩, htokens⟩ := trailed_tokens hx
  rw [htokens]
  exact hitem hv

theorem recordType_derives {t : UserType} (h : recordType u t) :
    t.settle.bare.Derives (tokens u) := by
  obtain ⟨v₁, _, _, rfl, h₁, v₂, v₃, fields, rfl, h₂, h₃⟩ := h
  obtain ⟨_, hend, rfl⟩ := bind_pure_iff.mp h₃
  obtain ⟨w, hw, hstructure⟩ := keyword_tokens h₁
  obtain ⟨w', hw', hkeyword⟩ := keyword_tokens hend
  have hne : fields ≠ [] := by
    obtain ⟨v, v', item, rfl, hv, hv'⟩ := h₂
    obtain ⟨items, -, rfl⟩ := bind_pure_iff.mp hv'
    exact List.cons_ne_nil _ _
  have hmany : (many (trailed (located field))) v₂ fields := by
    rw [Outlined.many_eq_optional]
    exact bind_pure (a := some fields) h₂
  have hfields := items_derives (f := fun f => f.settle.bare) field_derives hmany
  have hderives := UserType.Derives.record hstructure hfields (by simpa using hne) hkeyword
  rw [tokens_append, tokens_append, hw, hw', UserType.settle, UserType.bare, List.map_map]
  rw [List.map_map] at hderives
  exact hderives

theorem userType_derives {t : UserType} (h : userType u t) : t.settle.bare.Derives (tokens u) := by
  rcases h with hrecord | hdata
  · exact recordType_derives hrecord
  · obtain ⟨dataType, htype, rfl⟩ := bind_pure_iff.mp hdata
    exact .data (dataType_derives htype)

theorem fromProgram_derives {fromProgram : Option String}
    (h : (optional (keyword .FROM >>= fun _ => Language.name)) u fromProgram) :
    DerivesFrom (tokens u) fromProgram := by
  cases fromProgram with
  | none =>
    obtain rfl : u = [] := h
    exact .none
  | some program =>
    obtain ⟨v, w, _, rfl, hv, hw⟩ := h
    obtain ⟨k, hk, hfrom⟩ := keyword_tokens hv
    obtain ⟨hname, hreserved⟩ := name_tokens hw
    rw [tokens_append, hk, hname]
    exact .some hfrom hreserved

theorem typeDeclaration_derives {d : TypeDeclaration} (h : typeDeclaration u d) :
    d.settle.bare.Derives (tokens u) := by
  obtain ⟨v₁, _, name, rfl, h₁, v₂, _, fromProgram, rfl, h₂, v₃, w, _, rfl, h₃, hw⟩ := h
  obtain ⟨userType, ⟨htype, -⟩, rfl⟩ := bind_pure_iff.mp hw
  obtain ⟨hname, hreserved⟩ := name_tokens h₁
  rw [tokens_append, tokens_append, tokens_append, hname, mark_tokens h₃]
  exact .mk hreserved (fromProgram_derives h₂) (userType_derives htype)

theorem typeSection_derives {d : Declarations} (h : typeSection u d) {tokens : List Token}
    {rest : Declarations} (hrest : rest.Derives tokens) :
    (d.settle.bare ++ rest).Derives (Language.tokens u ++ tokens) := by
  obtain ⟨v, w, _, rfl, hv, hw⟩ := h
  obtain ⟨types, htypes, rfl⟩ := bind_pure_iff.mp hw
  obtain ⟨k, hk, htype⟩ := keyword_tokens hv
  have hitems := items_derives (f := fun d => d.settle.bare) typeDeclaration_derives htypes
  have hderives := Declarations.Derives.types htype hitems hrest
  rw [List.map_map] at hderives
  rw [tokens_append, hk, Declarations.settle, Declarations.bare, List.map_map]
  exact hderives

theorem constantSection_derives {d : Declarations} (h : constantSection u d) {tokens : List Token}
    {rest : Declarations} (hrest : rest.Derives tokens) :
    (d.settle.bare ++ rest).Derives (Language.tokens u ++ tokens) := by
  obtain ⟨v, w, _, rfl, hv, hw⟩ := h
  obtain ⟨constants, hconstants, rfl⟩ := bind_pure_iff.mp hw
  obtain ⟨k, hk, hconst⟩ := keyword_tokens hv
  have hitems := items_derives (f := fun c => c.bare) constant_derives hconstants
  have hderives := Declarations.Derives.constants hconst hitems hrest
  rw [List.map_map] at hderives
  rw [tokens_append, hk]
  exact hderives

theorem sections_derives {s : List Declarations} (h : sections u s) :
    (Declarations.join s).settle.bare.Derives (tokens u) := by
  unfold sections at h
  induction h with
  | nil => exact .nil
  | @cons u v d s head tail ih =>
    -- the sections of a tree stand in the order of the text
    rw [tokens_append, Declarations.join_cons, Declarations.settle_append, Declarations.bare_append]
    rcases head with htype | hconst
    · exact typeSection_derives htype ih
    · exact constantSection_derives hconst ih

/-- A whole text is a located node with comments around it. -/
theorem whole_tokens {f : Located α → β} {b : β}
    (h : Language.whole (do return f (← located L)) u b) :
    ∃ v x, L v x.node ∧ tokens u = tokens v ∧ b = f x := by
  obtain ⟨v, w, _, rfl, hv, hw⟩ := h
  obtain ⟨v', hv', htokens⟩ := trailed_tokens hw
  obtain ⟨x, ⟨hx, -⟩, hb⟩ := bind_pure_iff.mp hv'
  exact ⟨v', x, hx, by rw [tokens_append, tokens_of_comments hv, List.nil_append, htokens], hb⟩

end Language

open KarelKit.Language in
theorem Entry.derives_of_language {entry : Entry} {u : List Lexeme} {t : Tree}
    (h : entry.language u t) : entry.Derives (tokens u) t.settle.bare := by
  cases entry with
  | declarations =>
    obtain ⟨v, w, _, rfl, hv, hw⟩ := h
    obtain ⟨s, hs, rfl⟩ := bind_pure_iff.mp hw
    rw [tokens_append, tokens_of_comments hv, List.nil_append]
    exact .declarations (sections_derives hs)
  | typeDeclaration =>
    obtain ⟨v, x, hx, htokens, rfl⟩ := whole_tokens h
    rw [htokens]
    exact .typeDeclaration (typeDeclaration_derives hx)
  | userType =>
    obtain ⟨v, x, hx, htokens, rfl⟩ := whole_tokens h
    rw [htokens]
    exact .userType (userType_derives hx)
  | dataType =>
    obtain ⟨v, x, hx, htokens, rfl⟩ := whole_tokens h
    rw [htokens]
    exact .dataType (dataType_derives hx)
  | constant =>
    obtain ⟨v, x, hx, htokens, rfl⟩ := whole_tokens h
    rw [htokens]
    exact .constant (constant_derives hx)
  | value =>
    obtain ⟨v, x, hx, htokens, rfl⟩ := whole_tokens h
    rw [htokens]
    exact .value (value_derives hx)

end KarelKit
