import KarelKit.Proofs.Declaration.Settle
import KarelKit.Proofs.Declaration.Tokens
import KarelKit.Proofs.Declaration.WellFormed
import KarelKit.Proofs.Grammar.Derivation
import KarelKit.Proofs.Token.Printing
import KarelKit.Proofs.Token.Terminal

namespace KarelKit

open Token

theorem repeats_flatMap {α β : Type} {item : List Token → β → Prop} {f : α → List Token}
    {g : α → β} {items : List α} (h : ∀ x ∈ items, item (f x) (g x)) :
    Repeats item (items.flatMap f) (items.map g) := by
  induction items with
  | nil => exact .nil
  | cons a items ih =>
    exact .cons (h a (List.mem_cons_self ..)) (ih fun x hx => h x (List.mem_cons_of_mem a hx))

/-- Items on lines of their own, indented. -/
theorem reads_lines {α : Type} {f : α → String} {tokens : α → List Token} {items : List α}
    (h : ∀ x ∈ items, Prints (f x).toList (tokens x)) {rest : List Char} {us : List Token}
    (hread : Reads rest us) :
    Reads ((String.join (items.map fun x => s!"    {f x}\n")).toList ++ rest)
      (items.flatMap tokens ++ us) := by
  induction items with
  | nil => exact hread
  | cons a items ih =>
    have hrest := ih fun x hx => h x (List.mem_cons_of_mem a hx)
    have hline : (s!"    {f a}\n").toList =
        ' ' :: ' ' :: ' ' :: ' ' :: ((f a).toList ++ ['\n']) := by
      change (toString "    " ++ f a ++ toString "\n").toList = _
      rw [String.toList_append, String.toList_append]
      rfl
    rw [List.map_cons, String.join_cons, String.toList_append, hline, List.flatMap_cons]
    simp only [List.cons_append, List.append_assoc]
    apply Reads.space
    apply Reads.space
    apply Reads.space
    apply Reads.space
    apply h a (List.mem_cons_self ..) _ _ (breaks_cons (by decide) _)
    exact .blank isBlank_newline hrest

theorem IsName.isWord {name : String} (h : IsName name) : IsWord name := (isName_iff.mp h).1

theorem prints_path {name : String} {path : List String} (h : ∀ n ∈ name :: path, IsName n) :
    Prints (".".intercalate (name :: path)).toList
      (.word name :: path.flatMap fun n => [.mark .dot, .word n]) := by
  intro rest us hrest hread
  have hnames : ∀ n ∈ name :: path, (id n).toList = (Token.word n).spelling ∧
      (Token.word n).Legible ∧ (Token.word n).isComment = false ∧
      ∀ text, (Token.word n).Closes ('.' :: text) := by
    intro n hn
    refine ⟨rfl, (h n hn).isWord, rfl, fun text c hc => ?_⟩
    cases hc
    exact continuesWord_char .dot
  have hread' := reads_intercalate (m := .dot) (show ".".toList = ['.'] from rfl) id Token.word
    hnames hrest hread
  rw [List.map_id] at hread'
  exact hread'

theorem Value.printed {v : Value} (h : v.WellFormed) :
    Prints v.print.toList v.tokens ∧ v.Derives v.tokens := by
  cases v with
  | integer value =>
    exact ⟨Prints.of_token (t := .integer value) h rfl, .integer value⟩
  | real literal => exact ⟨Prints.of_token (t := .real literal) h rfl, .real literal⟩
  | string content =>
    have hlegible : (Token.string content).Legible := by
      intro c hc
      have hc' := h c hc
      simp [isQuotable, isLineBreak, hc']
    have hprint : (Value.string content).print.toList = (Token.string content).spelling := by
      change (toString "'" ++ content ++ toString "'").toList = _
      rw [String.toList_append, String.toList_append]
      rfl
    exact ⟨hprint ▸ Prints.of_token hlegible rfl, .string content⟩
  | boolean value =>
    cases value with
    | true =>
      exact ⟨Prints.of_token (t := .word "TRUE") (isWord_spelling .TRUE) rfl,
        .true (isKeyword_spelling .TRUE)⟩
    | false =>
      exact ⟨Prints.of_token (t := .word "FALSE") (isWord_spelling .FALSE) rfl,
        .false (isKeyword_spelling .FALSE)⟩
  | reference path =>
    cases path with
    | nil => exact absurd rfl h.1
    | cons name path =>
      refine ⟨prints_path h.2, .reference (h.2 name (List.mem_cons_self ..)).2 ?_⟩
      have hpath : Repeats DerivesComponent (path.flatMap fun n => [.mark .dot, .word n])
          (path.map id) :=
        repeats_flatMap fun n hn => .mk (h.2 n (List.mem_cons_of_mem _ hn)).2
      rwa [List.map_id] at hpath

theorem Constant.printed {c : Constant} (h : c.WellFormed) :
    Prints c.print.toList c.tokens ∧ c.bare.Derives c.tokens := by
  obtain ⟨hprints, hderives⟩ := Value.printed h.2
  refine ⟨?_, .mk h.1.2 hderives⟩
  have htext : c.print.toList =
      c.name.toList ++ ' ' :: '=' :: ' ' :: c.value.node.print.toList := by
    change (c.name ++ toString " = " ++ c.value.node.print).toList = _
    rw [String.toList_append, String.toList_append, List.append_assoc]
    rfl
  rw [htext]
  exact (hprints.mark_space .equals).word_space h.1.isWord

theorem ArraySize.derives_token {size : ArraySize} (h : size.WellFormed) :
    size.Derives size.token := by
  cases size with
  | literal value => exact .literal value
  | named name => exact .named h.2

theorem ArraySize.token_printed {size : ArraySize} (h : size.WellFormed) :
    size.print.toList = size.token.spelling ∧ size.token.Legible ∧ size.token.isComment = false ∧
      ∀ text, size.token.Closes (',' :: text) := by
  cases size with
  | literal value =>
    refine ⟨rfl, h, rfl, fun text => ?_⟩
    exact (breaks_cons (by decide) text).closes rfl
  | named name =>
    refine ⟨rfl, h.isWord, rfl, fun text => ?_⟩
    exact (breaks_cons (by decide) text).closes rfl

theorem sizes_printed {sizes : List ArraySize} (h : ∀ size ∈ sizes, size.WellFormed) :
    DerivesSizes (.mark .leftBracket :: (ArraySize.listTokens sizes ++ [.mark .rightBracket]))
        sizes ∧
      ∀ rest us, Reads rest us →
        Reads ('[' :: ((",".intercalate (sizes.map ArraySize.print)).toList ++ ']' :: rest))
          (.mark .leftBracket :: (ArraySize.listTokens sizes ++ .mark .rightBracket :: us)) := by
  cases sizes with
  | nil =>
    refine ⟨.empty, fun rest us hread => ?_⟩
    exact Reads.mark .leftBracket (Reads.mark .rightBracket hread)
  | cons size sizes =>
    have htail : Repeats DerivesNextSize
        (sizes.flatMap fun s => [.mark .comma, s.token]) (sizes.map id) :=
      repeats_flatMap fun s hs => .mk (ArraySize.derives_token (h s (List.mem_cons_of_mem _ hs)))
    have hsize := ArraySize.derives_token (h size (List.mem_cons_self ..))
    rw [List.map_id] at htail
    refine ⟨.listed hsize htail, fun rest us hread => ?_⟩
    apply Reads.mark .leftBracket
    exact reads_intercalate (m := .comma) (show ",".toList = [','] from rfl) ArraySize.print
      ArraySize.token (fun s hs => ArraySize.token_printed (h s hs))
      (breaks_cons (by decide) rest) (Reads.mark .rightBracket hread)

/-- `name IN GROUP[n]` -/
theorem prints_group {name : String} {n : Nat} (hname : IsWord name) (hn : n < 0x100000000) :
    Prints (DataType.position name n).print.toList (.word name :: groupTokens n) := by
  have htext : (DataType.position name n).print.toList = name.toList ++ ' ' :: ("IN".toList ++
      ' ' :: ("GROUP".toList ++ '[' :: ((toString n).toList ++ [']']))) := by
    change (name ++ toString " IN GROUP[" ++ toString n ++ toString "]").toList = _
    simp only [String.toList_append, List.append_assoc]
    rfl
  have hgroup := Prints.word_mark (m := .leftBracket) (isWord_spelling .GROUP) (Prints.size hn)
  rw [htext]
  exact (hgroup.word_space (isWord_spelling .IN)).word_space hname

theorem derivesGroup {n : Nat} (hn : n < 0x100000000) :
    DerivesGroup (groupTokens n) n := .mk (isKeyword_spelling .IN) (isKeyword_spelling .GROUP) hn

theorem string_printed {n : Nat} (hn : n < 0x100000000) :
    Prints (DataType.string n).print.toList (DataType.string n).tokens ∧
      (DataType.string n).Derives (DataType.string n).tokens := by
  refine ⟨?_, .string (isKeyword_spelling .STRING) hn⟩
  have htext : (DataType.string n).print.toList =
      "STRING".toList ++ '[' :: ((toString n).toList ++ [']']) := by
    change (toString "STRING[" ++ toString n ++ toString "]").toList = _
    simp only [String.toList_append, List.append_assoc]
    rfl
  rw [htext]
  exact Prints.word_mark (m := .leftBracket) (isWord_spelling .STRING) (Prints.size hn)

theorem path_printed {header : Option String} {nodeData : String}
    (hheader : ∀ name ∈ header, IsName name) (hdata : IsName nodeData) :
    Prints (DataType.path header nodeData).print.toList (DataType.path header nodeData).tokens ∧
      (DataType.path header nodeData).Derives (DataType.path header nodeData).tokens := by
  have hpath := isKeyword_spelling .PATH
  have hkeyword := isKeyword_spelling .NODEDATA
  -- both forms end in the node data
  have hname : Prints nodeData.toList [.word nodeData] :=
    Prints.of_token (t := .word nodeData) hdata.isWord rfl
  have htail := (hname.mark_space .equals).word_space (isWord_spelling .NODEDATA)
  cases header with
  | none =>
    refine ⟨?_, .path hpath .none hkeyword hdata.2⟩
    have htext : (DataType.path none nodeData).print.toList = "PATH".toList ++
        ' ' :: ("NODEDATA".toList ++ ' ' :: '=' :: ' ' :: nodeData.toList) := by
      change (toString "PATH NODEDATA = " ++ nodeData).toList = _
      rw [String.toList_append]
      rfl
    rw [htext]
    exact htail.word_space (isWord_spelling .PATH)
  | some header =>
    have hheader := hheader header rfl
    refine ⟨?_, .path hpath (.some (isKeyword_spelling .PATHHEADER) hheader.2) hkeyword hdata.2⟩
    have htext : (DataType.path (some header) nodeData).print.toList = "PATH".toList ++
        ' ' :: ("PATHHEADER".toList ++ ' ' :: '=' :: ' ' :: (header.toList ++
          ',' :: ' ' :: ("NODEDATA".toList ++ ' ' :: '=' :: ' ' :: nodeData.toList))) := by
      change (toString "PATH PATHHEADER = " ++ header ++ toString ", NODEDATA = " ++
        nodeData).toList = _
      simp only [String.toList_append, List.append_assoc]
      rfl
    have hprogram := (htail.mark_space .comma).word_mark hheader.isWord
    rw [htext]
    exact ((hprogram.mark_space .equals).word_space (isWord_spelling .PATHHEADER)).word_space
      (isWord_spelling .PATH)

theorem DataType.printed {t : DataType} (h : t.WellFormed) :
    Prints t.print.toList t.tokens ∧ t.bare.Derives t.tokens := by
  induction t with
  | named name group =>
    cases group with
    | none =>
      have hword : IsWord name := h.elim IsName.isWord isWord_of_isBuiltinType
      exact ⟨Prints.of_token (t := .word name) hword rfl, .named (h.imp_left (·.2))⟩
    | some n =>
      have hword := isWord_of_isBuiltinType h.1
      exact ⟨prints_group hword h.2, .predefined h.1 (derivesGroup h.2)⟩
  | string n => exact string_printed h
  | array sizes element elementRange ih =>
    have hall : ∀ size ∈ sizes.map (·.node), size.WellFormed := by
      intro size hsize
      obtain ⟨x, hx, rfl⟩ := List.mem_map.mp hsize
      exact h.1 x hx
    obtain ⟨hderives, hsizes⟩ := sizes_printed hall
    obtain ⟨helement, hderives'⟩ := ih h.2
    have hkeyword := isKeyword_spelling .ARRAY
    constructor
    · intro rest vs hrest hread
      have htext : (array sizes element elementRange).print.toList = "ARRAY".toList ++
          '[' :: ((",".intercalate (sizes.map (·.node.print))).toList ++
            ']' :: ' ' :: ("OF".toList ++ ' ' :: element.print.toList)) := by
        rw [print_array]
        simp only [String.toList_append, List.append_assoc]
        rfl
      rw [htext]
      simp only [tokens, List.append_assoc, List.cons_append]
      apply Reads.word (isWord_spelling .ARRAY) (continuesWord_char .leftBracket)
      rw [List.map_map] at hsizes
      apply hsizes
      apply Reads.space
      apply Reads.word_space (isWord_spelling .OF)
      exact helement rest vs hrest hread
    · have harray := Derives.array hkeyword hderives (isKeyword_spelling .OF) hderives'
      rw [List.map_map, List.cons_append, List.append_assoc, List.singleton_append] at harray
      exact harray
  | position name n => exact ⟨prints_group h.1.isWord h.2, .position h.1.2 (derivesGroup h.2)⟩
  | path header nodeData => exact path_printed h.1 h.2

theorem Field.printed {f : Field} (h : f.WellFormed) :
    Prints f.print.toList f.tokens ∧ f.bare.Derives f.tokens := by
  obtain ⟨hprints, hderives⟩ := DataType.printed h.2
  refine ⟨?_, .mk h.1.2 hderives⟩
  have htext : f.print.toList =
      f.name.toList ++ ' ' :: ':' :: ' ' :: f.dataType.node.print.toList := by
    change (f.name ++ toString " : " ++ f.dataType.node.print).toList = _
    rw [String.toList_append, String.toList_append, List.append_assoc]
    rfl
  rw [htext]
  exact (hprints.mark_space .colon).word_space h.1.isWord

theorem UserType.printed {t : UserType} (h : t.WellFormed) :
    Prints t.print.toList t.tokens ∧ t.bare.Derives t.tokens := by
  cases t with
  | data dataType =>
    obtain ⟨hprints, hderives⟩ := DataType.printed h
    exact ⟨hprints, .data hderives⟩
  | record fields =>
    have hrepeats : Repeats Field.Derives (fields.flatMap (·.node.tokens))
        (fields.map (·.node.bare)) :=
      repeats_flatMap fun x hx => (Field.printed (h.2 x hx)).2
    constructor
    · intro rest us hrest hread
      have htext : (record fields).print.toList = "STRUCTURE".toList ++ '\n' ::
          ((String.join (fields.map fun x => s!"    {x.node.print}\n")).toList ++
            "ENDSTRUCTURE".toList) := by
        rw [print, String.toList_append, String.toList_append, List.append_assoc]
        rfl
      rw [htext]
      simp only [tokens, List.append_assoc, List.cons_append]
      apply Reads.word_newline (isWord_spelling .STRUCTURE)
      apply reads_lines fun x hx => (Field.printed (h.2 x hx)).1
      exact Prints.of_token (t := .word "ENDSTRUCTURE") (isWord_spelling .ENDSTRUCTURE) rfl rest us
        hrest hread
    · have hrecord := Derives.record (isKeyword_spelling .STRUCTURE) hrepeats (by simpa using h.1)
        (isKeyword_spelling .ENDSTRUCTURE)
      rw [List.map_map] at hrecord
      exact hrecord

theorem TypeDeclaration.printed {d : TypeDeclaration} (h : d.WellFormed) :
    Prints d.print.toList d.tokens ∧ d.bare.Derives d.tokens := by
  obtain ⟨hprints, hderives⟩ := UserType.printed h.2.1
  obtain ⟨name, userType, fromProgram⟩ := d
  have htail := hprints.mark_space .equals
  cases fromProgram with
  | none =>
    refine ⟨?_, .mk h.1.2 .none hderives⟩
    have htext : (TypeDeclaration.mk name userType none).print.toList =
        name.toList ++ ' ' :: '=' :: ' ' :: userType.node.print.toList := by
      change (name ++ toString " = " ++ userType.node.print).toList = _
      rw [String.toList_append, String.toList_append, List.append_assoc]
      rfl
    rw [htext]
    exact htail.word_space h.1.isWord
  | some program =>
    have hprogram : IsName program := h.2.2 program rfl
    refine ⟨?_, .mk h.1.2 (.some (isKeyword_spelling .FROM) hprogram.2) hderives⟩
    have htext : (TypeDeclaration.mk name userType (some program)).print.toList =
        name.toList ++ ' ' :: ("FROM".toList ++ ' ' :: (program.toList ++
          ' ' :: '=' :: ' ' :: userType.node.print.toList)) := by
      change (name ++ toString " FROM " ++ program ++ toString " = " ++ userType.node.print).toList
        = _
      simp only [String.toList_append, List.append_assoc]
      rfl
    have hfrom := (htail.word_space hprogram.isWord).word_space (isWord_spelling .FROM)
    rw [htext]
    exact hfrom.word_space h.1.isWord

theorem sectionTokens_cons {α : Type} (header : String) (a : α) (items : List α)
    (tokens : α → List Token) : sectionTokens header (a :: items) tokens =
      .word header :: (a :: items).flatMap tokens := rfl

theorem reads_section {α : Type} {header : String} (hheader : IsWord header) {f : α → String}
    {tokens : α → List Token} {items : List α} (h : ∀ x ∈ items, Prints (f x).toList (tokens x))
    {rest : List Char} {us : List Token} (hread : Reads rest us) :
    Reads ((Declarations.printSection header (items.map f)).toList ++ rest)
      (sectionTokens header items tokens ++ us) := by
  cases items with
  | nil => exact hread
  | cons a items =>
    have htext : (Declarations.printSection header ((a :: items).map f)).toList =
        header.toList ++ '\n' ::
          (String.join ((a :: items).map fun x => s!"    {f x}\n")).toList := by
      rw [Declarations.printSection, if_neg (by simp), List.map_map]
      change ((header ++ toString "\n") ++ String.join _).toList = _
      rw [String.toList_append, String.toList_append, List.append_assoc]
      rfl
    rw [htext, sectionTokens_cons]
    simp only [List.append_assoc, List.cons_append]
    apply Reads.word_newline hheader
    exact reads_lines h hread

theorem Declarations.derives_types {types : List (Located TypeDeclaration)}
    (h : ∀ x ∈ types, x.node.WellFormed) :
    Derives (sectionTokens "TYPE" types (·.node.tokens))
      ⟨types.map (·.bare TypeDeclaration.bare), []⟩ := by
  cases types with
  | nil => exact .nil
  | cons x types =>
    have hrepeats : Repeats TypeDeclaration.Derives ((x :: types).flatMap (·.node.tokens))
        ((x :: types).map (·.node.bare)) :=
      repeats_flatMap fun y hy => (TypeDeclaration.printed (h y hy)).2
    have hderives := Derives.types (isKeyword_spelling .TYPE) hrepeats .nil
    have happend : (⟨((x :: types).map (·.node.bare)).map .unplaced, []⟩ ++ ∅ : Declarations) =
        ⟨(x :: types).map (·.bare TypeDeclaration.bare), []⟩ := by
      rw [List.map_map]
      change (⟨_ ++ [], _⟩ : Declarations) = _
      rw [List.append_nil]
      rfl
    rw [happend, List.append_nil] at hderives
    exact hderives

theorem Declarations.derives_constants {constants : List (Located Constant)}
    (h : ∀ x ∈ constants, x.node.WellFormed) {us : List Token} {d : Declarations}
    (hd : d.Derives us) :
    (⟨[], constants.map (·.bare Constant.bare)⟩ ++ d : Declarations).Derives
      (sectionTokens "CONST" constants (·.node.tokens) ++ us) := by
  cases constants with
  | nil => exact hd
  | cons x constants =>
    have hrepeats : Repeats Constant.Derives ((x :: constants).flatMap (·.node.tokens))
        ((x :: constants).map (·.node.bare)) :=
      repeats_flatMap fun y hy => (Constant.printed (h y hy)).2
    have hderives := Derives.constants (isKeyword_spelling .CONST) hrepeats hd
    rw [List.map_map] at hderives
    exact hderives

theorem Declarations.printed {d : Declarations} (h : d.WellFormed) :
    Reads d.print.toList d.tokens ∧ d.bare.Derives d.tokens := by
  constructor
  · have htypes := reads_section (isWord_spelling .TYPE)
      (fun x hx => (TypeDeclaration.printed (h.1 x hx)).1) Reads.nil
    rw [List.append_nil, List.append_nil] at htypes
    rw [print, String.toList_append]
    exact reads_section (isWord_spelling .CONST)
      (fun x hx => (Constant.printed (h.2 x hx)).1) htypes
  · have hall := derives_constants h.2 (derives_types h.1)
    change Declarations.Derives _ ⟨[] ++ _, _ ++ []⟩ at hall
    rwa [List.nil_append, List.append_nil] at hall

/-- The canonical text of a well-formed tree is read as the tree's tokens, and these derive it. -/
theorem Tree.printed {t : Tree} (h : t.WellFormed) :
    Reads t.print.toList t.tokens ∧ t.entry.Derives t.tokens t.bare := by
  cases t with
  | declarations tree =>
    obtain ⟨hreads, hderives⟩ := Declarations.printed h
    exact ⟨hreads, .declarations hderives⟩
  | typeDeclaration tree =>
    obtain ⟨hprints, hderives⟩ := TypeDeclaration.printed h
    exact ⟨hprints.reads, .typeDeclaration hderives⟩
  | userType tree =>
    obtain ⟨hprints, hderives⟩ := UserType.printed h
    exact ⟨hprints.reads, .userType hderives⟩
  | dataType tree =>
    obtain ⟨hprints, hderives⟩ := DataType.printed h
    exact ⟨hprints.reads, .dataType hderives⟩
  | constant tree =>
    obtain ⟨hprints, hderives⟩ := Constant.printed h
    exact ⟨hprints.reads, .constant hderives⟩
  | value tree =>
    obtain ⟨hprints, hderives⟩ := Value.printed h
    exact ⟨hprints.reads, .value hderives⟩

end KarelKit
