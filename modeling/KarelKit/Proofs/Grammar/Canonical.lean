import KarelKit.Proofs.Grammar.RoundTrip

namespace KarelKit

open KarelKit.Language

/-- A keyword in upper case; any other token as it is. -/
def Token.canonical : Token → Token
  | word text =>
    if Keyword.all.any (KarelKit.isKeyword · text) then .word (Text.upcase text) else .word text
  | t => t

/-- Brackets are put after each `ARRAY` that has none. -/
def canonical : List Token → List Token
  | [] => []
  | t :: ts =>
    if t.isKeyword .ARRAY ∧ ts.head? ≠ some (.mark .leftBracket) then
      t.canonical :: .mark .leftBracket :: .mark .rightBracket :: canonical ts
    else t.canonical :: canonical ts

def Token.isHeader (t : Token) : Bool := t.isKeyword .TYPE || t.isKeyword .CONST

/-- What stands in the sections that the keyword opens, without the headers. The tokens begin inside
of such a section or not. -/
def sectionContents (k : Keyword) (inside : Bool) : List Token → List Token
  | [] => []
  | t :: ts =>
    if t.isHeader then sectionContents k (t.isKeyword k) ts
    else if inside then t :: sectionContents k inside ts
    else sectionContents k inside ts

/-- All sections that the keyword opens as one section in canonical form. Sections without contents
leave nothing, not even the header. -/
def canonicalSection (k : Keyword) (ts : List Token) : List Token :=
  if (sectionContents k false ts).isEmpty then []
  else .word k.spelling :: canonical (sectionContents k false ts)

/-- The tokens of the canonical text, from those of a text that the entry accepts. -/
def Entry.canonical (ts : List Token) : Entry → List Token
  | declarations => canonicalSection .CONST ts ++ canonicalSection .TYPE ts
  | _ => KarelKit.canonical ts

theorem canonical_keyword {k : Keyword} {w : String} (h : isKeyword k w = true) :
    (Token.word w).canonical = .word k.spelling := by
  have hany : Keyword.all.any (isKeyword · w) = true := List.any_eq_true.mpr ⟨k, k.mem_all, h⟩
  have hword : Text.upcase w = k.spelling := by simpa [isKeyword] using h
  simp only [Token.canonical, hany, hword, if_true]

theorem isKeyword_typeName {name : String} (k : Keyword)
    (h : isReserved name = false ∨ isBuiltinType name = true) : isKeyword k name = false := by
  rw [← Bool.not_eq_true]
  intro hk
  rcases h with h | h
  · rw [isReserved_of_isKeyword hk] at h
    contradiction
  · rw [Token.isBuiltinType_eq_false_of_isKeyword hk] at h
    contradiction

theorem canonical_typeName {name : String}
    (h : isReserved name = false ∨ isBuiltinType name = true) :
    (Token.word name).canonical = .word name := by
  have hany : Keyword.all.any (isKeyword · name) = false := by
    rw [List.any_eq_false]
    intro k _
    simp [isKeyword_typeName k h]
  simp [Token.canonical, hany]

theorem isKeyword_ne {k k' : Keyword} {w : String} (h : isKeyword k w = true) (hne : k ≠ k') :
    isKeyword k' w = false := by
  rw [← Bool.not_eq_true]
  intro hk'
  simp only [isKeyword, beq_iff_eq] at h hk'
  exact hne (Keyword.spelling_injective (h.symm.trans hk'))

/-- Tokens without a header that become others in the canonical text, whatever comes after them. -/
structure Becomes (ts us : List Token) : Prop where
  canonical_append : ∀ rest, canonical (ts ++ rest) = us ++ canonical rest
  headless : ∀ t ∈ ts, t.isHeader = false

namespace Becomes

variable {ts us vs ws : List Token}

theorem nil : Becomes [] [] := ⟨fun _ => rfl, fun _ ht => absurd ht List.not_mem_nil⟩

theorem append (h : Becomes ts us) (h' : Becomes vs ws) : Becomes (ts ++ vs) (us ++ ws) := by
  constructor
  · intro rest
    rw [List.append_assoc, h.canonical_append, h'.canonical_append, List.append_assoc]
  · intro t ht
    rcases List.mem_append.mp ht with ht | ht
    · exact h.headless t ht
    · exact h'.headless t ht

theorem canonical_eq (h : Becomes ts us) : canonical ts = us := by
  have hnil := h.canonical_append []
  rwa [List.append_nil, canonical, List.append_nil] at hnil

theorem cons {t : Token} (ht : t.isHeader = false) (harray : t.isKeyword .ARRAY = false)
    (h : Becomes ts us) : Becomes (t :: ts) (t.canonical :: us) := by
  constructor
  · intro rest
    have hcons := h.canonical_append rest
    simp [canonical, harray, hcons]
  · intro u hu
    rcases List.mem_cons.mp hu with rfl | hu
    · exact ht
    · exact h.headless u hu

theorem mark (m : Mark) (h : Becomes ts us) : Becomes (.mark m :: ts) (.mark m :: us) :=
  h.cons (t := .mark m) rfl rfl

theorem integer (n : Int) (h : Becomes ts us) : Becomes (.integer n :: ts) (.integer n :: us) :=
  h.cons (t := .integer n) rfl rfl

theorem keyword {k : Keyword} {w : String} (hw : isKeyword k w = true) (h : Becomes ts us)
    (hne : k ≠ .TYPE ∧ k ≠ .CONST ∧ k ≠ .ARRAY := by decide) :
    Becomes (.word w :: ts) (.word k.spelling :: us) := by
  have hheader : (Token.word w).isHeader = false := by
    simp [Token.isHeader, Token.isKeyword, isKeyword_ne hw hne.1, isKeyword_ne hw hne.2.1]
  rw [← canonical_keyword hw]
  exact h.cons hheader (isKeyword_ne hw hne.2.2)

theorem typeName {name : String} (hname : isReserved name = false ∨ isBuiltinType name = true)
    (h : Becomes ts us) : Becomes (.word name :: ts) (.word name :: us) := by
  have hheader : (Token.word name).isHeader = false := by
    simp [Token.isHeader, Token.isKeyword, isKeyword_typeName _ hname]
  have hcons := h.cons hheader (isKeyword_typeName .ARRAY hname)
  rwa [canonical_typeName hname] at hcons

theorem name {name : String} (hname : isReserved name = false) (h : Becomes ts us) :
    Becomes (.word name :: ts) (.word name :: us) := h.typeName (.inl hname)

/-- `ARRAY` and the brackets that it has. -/
theorem array {w : String} (hw : isKeyword .ARRAY w = true)
    (h : Becomes (.mark .leftBracket :: ts) us) :
    Becomes (.word w :: .mark .leftBracket :: ts) (.word "ARRAY" :: us) := by
  constructor
  · intro rest
    have htail := h.canonical_append rest
    rw [List.cons_append] at htail ⊢
    rw [List.cons_append, canonical, if_neg (by simp), canonical_keyword hw, htail]
    rfl
  · intro t ht
    rcases List.mem_cons.mp ht with rfl | ht
    · simp [Token.isHeader, Token.isKeyword, isKeyword_ne hw]
    · exact h.headless t ht

/-- `ARRAY` and the brackets that it gets. -/
theorem array_open {w : String} {t : Token} (hw : isKeyword .ARRAY w = true)
    (ht : t ≠ .mark .leftBracket) (h : Becomes (t :: ts) us) :
    Becomes (.word w :: t :: ts)
      (.word "ARRAY" :: .mark .leftBracket :: .mark .rightBracket :: us) := by
  constructor
  · intro rest
    have htail := h.canonical_append rest
    have hopen : (Token.word w).isKeyword .ARRAY = true ∧
        (t :: (ts ++ rest)).head? ≠ some (.mark .leftBracket) := by
      simp [Token.isKeyword, hw, ht]
    rw [List.cons_append] at htail ⊢
    rw [List.cons_append, canonical, if_pos hopen, canonical_keyword hw, htail]
    rfl
  · intro u hu
    rcases List.mem_cons.mp hu with rfl | hu
    · simp [Token.isHeader, Token.isKeyword, isKeyword_ne hw]
    · exact h.headless u hu

theorem repeats {α : Type} {item : List Token → α → Prop} {f : α → List Token}
    {items : List α} (hitem : ∀ vs a, item vs a → Becomes vs (f a))
    (h : Repeats item ts items) :
    Becomes ts (items.flatMap f) := by
  induction h with
  | nil => exact nil
  | cons head tail ih => exact (hitem _ _ head).append ih

end Becomes

section

variable {ts : List Token}

theorem Value.becomes {v : Value} (h : v.Derives ts) : Becomes ts v.tokens := by
  cases h with
  | integer value => exact .integer value .nil
  | real literal => exact Becomes.nil.cons (t := .real literal) rfl rfl
  | string content => exact Becomes.nil.cons (t := .string content) rfl rfl
  | true hw => exact .keyword hw .nil
  | false hw => exact .keyword hw .nil
  | reference hname hpath =>
    apply Becomes.name hname
    apply Becomes.repeats _ hpath
    intro vs n hn
    cases hn with
    | mk hn => exact .mark .dot (.name hn .nil)

theorem Constant.becomes {c : Constant} (h : c.Derives ts) : Becomes ts c.tokens := by
  cases h with
  | mk hname hvalue => exact .name hname (.mark .equals (Value.becomes hvalue))

theorem ArraySize.becomes {t : Token} {size : ArraySize} (h : size.Derives t) :
    Becomes [t] [size.token] := by
  cases h with
  | literal value => exact .integer value .nil
  | named hname => exact .name hname .nil

theorem becomes_group {n : Nat} (h : DerivesGroup ts n) : Becomes ts (groupTokens n) := by
  cases h with
  | mk hw hw' hn =>
    apply Becomes.keyword hw
    apply Becomes.keyword hw'
    apply Becomes.mark
    apply Becomes.integer
    exact .mark .rightBracket .nil

theorem becomes_array {w w' : String} {sizes : List ArraySize} {rest us : List Token}
    (hw : isKeyword .ARRAY w = true) (h : DerivesSizes ts sizes) (hw' : isKeyword .OF w' = true)
    (hrest : Becomes rest us) :
    Becomes (.word w :: (ts ++ .word w' :: rest)) (.word "ARRAY" :: .mark .leftBracket ::
      (ArraySize.listTokens sizes ++ .mark .rightBracket :: .word "OF" :: us)) := by
  have hof : Becomes (.word w' :: rest) (.word "OF" :: us) := .keyword hw' hrest
  cases h with
  | omitted => exact .array_open hw (by simp) hof
  | empty => exact .array hw (.mark .leftBracket (.mark .rightBracket hof))
  | @listed t size tokens sizes hsize hsizes =>
    have htail : Becomes tokens (sizes.flatMap fun s => [.mark .comma, s.token]) := by
      apply Becomes.repeats _ hsizes
      intro vs s hs
      cases hs with
      | mk hs => exact .mark .comma (ArraySize.becomes hs)
    have hlist := (ArraySize.becomes hsize).append
      (htail.append (.mark .rightBracket hof))
    have harray := Becomes.array hw (.mark .leftBracket hlist)
    simpa [ArraySize.listTokens] using harray

theorem DataType.becomes {t : DataType} (h : t.Derives ts) : Becomes ts t.tokens := by
  induction h with
  | string hw hn =>
    apply Becomes.keyword hw
    apply Becomes.mark
    apply Becomes.integer
    exact .mark .rightBracket .nil
  | @array w w' tokens rest sizes element hw hsizes hw' helement ih =>
    have hnodes : (sizes.map Located.unplaced).map (·.node) = sizes := by
      simp [Located.unplaced, Function.comp_def]
    rw [DataType.tokens, hnodes]
    exact becomes_array hw hsizes hw' ih
  | position hname hgroup => exact .name hname (becomes_group hgroup)
  | path hw hheader hw' hname =>
    have hdata := Becomes.keyword hw' (.mark .equals (.name hname .nil))
    cases hheader with
    | none => exact .keyword hw hdata
    | some hk hprogram =>
      exact .keyword hw (.keyword hk (.mark .equals (.name hprogram (.mark .comma hdata))))
  | named hname => exact .typeName hname .nil
  | predefined hname hgroup => exact .typeName (.inr hname) (becomes_group hgroup)

theorem Field.becomes {f : Field} (h : f.Derives ts) : Becomes ts f.tokens := by
  cases h with
  | mk hname htype => exact .name hname (.mark .colon (DataType.becomes htype))

theorem UserType.becomes {t : UserType} (h : t.Derives ts) : Becomes ts t.tokens := by
  cases h with
  | record hw hfields hne hw' =>
    have hlines := Becomes.repeats (fun _ _ h => Field.becomes h) hfields
    rw [UserType.tokens, List.flatMap_map]
    exact .keyword hw (hlines.append (.keyword hw' .nil))
  | data htype => exact DataType.becomes htype

theorem TypeDeclaration.becomes {d : TypeDeclaration} (h : d.Derives ts) :
    Becomes ts d.tokens := by
  cases h with
  | mk hname hfrom htype =>
    have htail := Becomes.mark .equals (UserType.becomes htype)
    cases hfrom with
    | none => exact .name hname htail
    | some hk hprogram => exact .name hname (.keyword hk (.name hprogram htail))

theorem sectionContents_append {k : Keyword} {inside : Bool} {rest : List Token}
    (h : ∀ t ∈ ts, t.isHeader = false) : sectionContents k inside (ts ++ rest) =
      (if inside then ts else []) ++ sectionContents k inside rest := by
  induction ts with
  | nil => simp
  | cons t ts ih =>
    have ht : t.isHeader = false := h t (List.mem_cons_self ..)
    have ih := ih fun u hu => h u (List.mem_cons_of_mem t hu)
    rw [List.cons_append, sectionContents, ht, ih]
    cases inside <;> rfl

/-- A header and what follows it up to the next one. -/
theorem sectionContents_header {k k' : Keyword} {inside : Bool} {w : String} {us rest : List Token}
    (hw : isKeyword k' w = true) (hk' : k' = .TYPE ∨ k' = .CONST) (h : Becomes ts us) :
    canonical (sectionContents k inside (.word w :: (ts ++ rest))) =
      (if k' = k then us else []) ++ canonical (sectionContents k (k' = k) rest) := by
  have hheader : (Token.word w).isHeader = true := by
    rcases hk' with rfl | rfl <;> simp [Token.isHeader, Token.isKeyword, hw]
  -- a header opens sections of its own keyword and closes those of the other
  have hkeyword : (Token.word w).isKeyword k = (k' = k : Bool) := by
    by_cases heq : k' = k
    · simp [← heq, Token.isKeyword, hw]
    · simp [heq, Token.isKeyword, isKeyword_ne hw heq]
  rw [sectionContents, if_pos hheader, hkeyword, sectionContents_append h.headless]
  by_cases heq : k' = k
  · simp [heq, h.canonical_append]
  · simp [heq]

theorem Declarations.sectionContents_of_derives {d : Declarations} (h : d.Derives ts)
    (inside : Bool) :
    canonical (sectionContents .CONST inside ts) = d.constants.flatMap (·.node.tokens) ∧
      canonical (sectionContents .TYPE inside ts) = d.types.flatMap (·.node.tokens) := by
  induction h generalizing inside with
  | nil => exact ⟨rfl, rfl⟩
  | @types w tokens rest types d hw htypes tail ih =>
    have hbody := Becomes.repeats (fun _ _ h => TypeDeclaration.becomes h) htypes
    rw [sectionContents_header hw (.inl rfl) hbody, sectionContents_header hw (.inl rfl) hbody]
    rw [(ih _).1, (ih _).2]
    simp [List.flatMap_map, Located.unplaced]
  | @constants w tokens rest constants d hw hconstants tail ih =>
    have hbody := Becomes.repeats (fun _ _ h => Constant.becomes h) hconstants
    rw [sectionContents_header hw (.inr rfl) hbody, sectionContents_header hw (.inr rfl) hbody]
    rw [(ih _).1, (ih _).2]
    simp [List.flatMap_map, Located.unplaced]

theorem isEmpty_canonical (ts : List Token) : (canonical ts).isEmpty = ts.isEmpty := by
  cases ts with
  | nil => rfl
  | cons t ts =>
    rw [canonical]
    split <;> rfl

theorem canonicalSection_eq {α : Type} {k : Keyword} {items : List α} {f : α → List Token}
    (hf : ∀ a, f a ≠ []) (h : canonical (sectionContents k false ts) = items.flatMap f) :
    canonicalSection k ts = sectionTokens k.spelling items f := by
  -- the contents are empty exactly if there are no items, as each item has tokens
  rw [canonicalSection, ← isEmpty_canonical, h, sectionTokens]
  cases items with
  | nil => rfl
  | cons a items => simp [hf a]

theorem TypeDeclaration.tokens_ne_nil (d : TypeDeclaration) : d.tokens ≠ [] := by
  rw [tokens]
  split <;> exact List.cons_ne_nil _ _

theorem Tree.tokens_of_derives {entry : Entry} {b : Tree} (h : entry.Derives ts b) :
    b.tokens = entry.canonical ts := by
  cases h with
  | @declarations tokens tree h =>
    obtain ⟨hconstants, htypes⟩ := Declarations.sectionContents_of_derives h false
    rw [Entry.canonical, canonicalSection_eq (fun _ => List.cons_ne_nil _ _) hconstants,
      canonicalSection_eq (fun x => x.node.tokens_ne_nil) htypes]
    rfl
  | typeDeclaration h => exact (TypeDeclaration.becomes h).canonical_eq.symm
  | userType h => exact (UserType.becomes h).canonical_eq.symm
  | dataType h => exact (DataType.becomes h).canonical_eq.symm
  | constant h => exact (Constant.becomes h).canonical_eq.symm
  | value h => exact (Value.becomes h).canonical_eq.symm

end

/-- What is parsed is printed as the tokens of its text, comments apart, in canonical form. Printed
again, the canonical text stays as it is. -/
theorem lex_print_of_parse {entry : Entry} {source : String} {text : Lexed} {t : Tree}
    (hlex : lex source = .ok text) (h : parse entry source = .ok t) :
    (∃ printed, lex t.print = .ok printed ∧
      printed.lexemes.map (·.node) = entry.canonical (tokens text.lexemes)) ∧
    ∃ t', parse entry t.print = .ok t' ∧ t'.print = t.print := by
  obtain ⟨printed, hprinted, hnodes⟩ := lex_print (wellFormed_of_parse h).1
  obtain ⟨t', hparse, hbare⟩ := parse_print_of_parse h
  constructor
  · refine ⟨printed, ?_, ?_⟩
    · rwa [Tree.print_settle_bare] at hprinted
    · rw [hnodes, Tree.tokens_of_derives (derives_of_parse hlex h)]
  · have hprint : t'.print = t.print := by
      rw [← t'.print_bare, hbare, t.print_settle_bare]
    exact ⟨t', hparse, hprint⟩

theorem lex_print_sections : (∃ printed,
    lex "CONST\n    a = 1\nTYPE\n    t = ARRAY[] OF k\n" = .ok printed ∧
      printed.lexemes.map (·.node) = [.word "CONST", .word "a", .mark .equals, .integer 1,
        .word "TYPE", .word "t", .mark .equals, .word "ARRAY", .mark .leftBracket,
        .mark .rightBracket, .word "OF", .word "k"]) ∧
    ∃ t', parse .declarations "CONST\n    a = 1\nTYPE\n    t = ARRAY[] OF k\n" = .ok t' ∧
      t'.print = "CONST\n    a = 1\nTYPE\n    t = ARRAY[] OF k\n" := by
  obtain ⟨hlex, hparse, hprint⟩ := parse_sections
  have h := lex_print_of_parse hlex hparse
  rw [hprint] at h
  exact h

end KarelKit
