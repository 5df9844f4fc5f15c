import KarelKit.Proofs.Declaration.Printing
import KarelKit.Proofs.Grammar.Interruption
import KarelKit.Proofs.Grammar.Parsing

namespace KarelKit

open KarelKit.Language Token

variable {ts : List Token}

theorem isName_of_legible {name : String} (h : (Token.word name).Legible)
    (hname : isReserved name = false) : IsName name := isName_iff.mpr ⟨h, hname⟩

theorem mem_of_repeats {α : Type} {item : List Token → α → Prop} {items : List α}
    (h : Repeats item ts items) (hlegible : ∀ t ∈ ts, t.Legible) {a : α} (ha : a ∈ items) :
    ∃ us, item us a ∧ ∀ t ∈ us, t.Legible := by
  induction h with
  | nil => contradiction
  | cons head tail ih =>
    rcases List.mem_cons.mp ha with rfl | ha
    · exact ⟨_, head, fun t ht => hlegible t (List.mem_append_left _ ht)⟩
    · exact ih (fun t ht => hlegible t (List.mem_append_right _ ht)) ha

theorem Value.wellFormed_of_derives {v : Value} (h : v.Derives ts)
    (hlegible : ∀ t ∈ ts, t.Legible) : v.WellFormed := by
  cases h with
  | integer value => exact hlegible _ (List.mem_singleton_self _)
  | real literal => exact hlegible _ (List.mem_singleton_self _)
  | string content =>
    intro c hc
    have hquotable : isQuotable c = true := hlegible _ (List.mem_singleton_self _) c hc
    simpa [isQuotable, isLineBreak] using hquotable
  | true => trivial
  | false => trivial
  | @reference name tokens path hname hpath =>
    refine ⟨List.cons_ne_nil _ _, ?_⟩
    intro n hn
    rcases List.mem_cons.mp hn with rfl | hn
    · exact isName_of_legible (hlegible _ (List.mem_cons_self ..)) hname
    · obtain ⟨us, ⟨hn'⟩, hus⟩ := mem_of_repeats hpath
        (fun t ht => hlegible t (List.mem_cons_of_mem _ ht)) hn
      exact isName_of_legible (hus _ (by simp)) hn'

theorem Constant.wellFormed_of_derives {c : Constant} (h : c.Derives ts)
    (hlegible : ∀ t ∈ ts, t.Legible) : c.WellFormed := by
  cases h with
  | mk hname hvalue =>
    refine ⟨isName_of_legible (hlegible _ (List.mem_cons_self ..)) hname, ?_⟩
    exact Value.wellFormed_of_derives hvalue fun t ht => hlegible t (by simp [ht])

theorem ArraySize.wellFormed_of_derives {t : Token} {size : ArraySize} (h : size.Derives t)
    (hlegible : t.Legible) : size.WellFormed := by
  cases h with
  | literal value => exact hlegible
  | named hname => exact isName_of_legible hlegible hname

theorem sizes_wellFormed {sizes : List ArraySize} (h : DerivesSizes ts sizes)
    (hlegible : ∀ t ∈ ts, t.Legible) : ∀ size ∈ sizes, size.WellFormed := by
  intro size hsize
  cases h with
  | omitted => contradiction
  | empty => contradiction
  | listed hfirst hsizes =>
    rcases List.mem_cons.mp hsize with rfl | hsize
    · exact ArraySize.wellFormed_of_derives hfirst (hlegible _ (by simp))
    · obtain ⟨us, ⟨hsize'⟩, hus⟩ := mem_of_repeats hsizes
        (fun t ht => hlegible t (by simp [ht])) hsize
      exact ArraySize.wellFormed_of_derives hsize' (hus _ (by simp))

theorem DataType.wellFormed_of_derives {t : DataType} (h : t.Derives ts)
    (hlegible : ∀ t ∈ ts, t.Legible) : t.WellFormed := by
  induction h with
  | string hw hn => exact hn
  | @array w w' tokens rest sizes element hw hsizes hw' helement ih =>
    refine ⟨?_, ih fun t ht => hlegible t (by simp [ht])⟩
    intro x hx
    obtain ⟨size, hsize, rfl⟩ := List.mem_map.mp hx
    exact sizes_wellFormed hsizes (fun t ht => hlegible t (by simp [ht])) size hsize
  | position hname hgroup =>
    cases hgroup with
    | mk _ _ hn => exact ⟨isName_of_legible (hlegible _ (List.mem_cons_self ..)) hname, hn⟩
  | path hw hheader hw' hname =>
    refine ⟨?_, isName_of_legible (hlegible _ (by simp)) hname⟩
    intro header hmem
    cases hheader with
    | none => contradiction
    | some hk hprogram =>
      cases hmem
      exact isName_of_legible (hlegible _ (by simp)) hprogram
  | named hname =>
    exact hname.imp_left (isName_of_legible (hlegible _ (List.mem_singleton_self _)))
  | predefined hname hgroup =>
    cases hgroup with
    | mk _ _ hn => exact ⟨hname, hn⟩

theorem Field.wellFormed_of_derives {f : Field} (h : f.Derives ts)
    (hlegible : ∀ t ∈ ts, t.Legible) : f.WellFormed := by
  cases h with
  | mk hname htype =>
    refine ⟨isName_of_legible (hlegible _ (List.mem_cons_self ..)) hname, ?_⟩
    exact DataType.wellFormed_of_derives htype fun t ht => hlegible t (by simp [ht])

theorem UserType.wellFormed_of_derives {t : UserType} (h : t.Derives ts)
    (hlegible : ∀ t ∈ ts, t.Legible) : t.WellFormed := by
  cases h with
  | record hw hfields hne hw' =>
    refine ⟨by simpa using hne, ?_⟩
    intro x hx
    obtain ⟨f, hf, rfl⟩ := List.mem_map.mp hx
    obtain ⟨us, hderives, hus⟩ := mem_of_repeats hfields
      (fun t ht => hlegible t (by simp [ht])) hf
    exact Field.wellFormed_of_derives hderives hus
  | data htype => exact DataType.wellFormed_of_derives htype hlegible

theorem TypeDeclaration.wellFormed_of_derives {d : TypeDeclaration} (h : d.Derives ts)
    (hlegible : ∀ t ∈ ts, t.Legible) : d.WellFormed := by
  cases h with
  | mk hname hfrom htype =>
    refine ⟨isName_of_legible (hlegible _ (List.mem_cons_self ..)) hname, ?_, ?_⟩
    · exact UserType.wellFormed_of_derives htype fun t ht => hlegible t (by simp [ht])
    · intro program hmem
      cases hfrom with
      | none => contradiction
      | some hk hprogram =>
        cases hmem
        exact isName_of_legible (hlegible _ (by simp)) hprogram

theorem Declarations.wellFormed_of_derives {d : Declarations} (h : d.Derives ts)
    (hlegible : ∀ t ∈ ts, t.Legible) : d.WellFormed := by
  induction h with
  | nil => exact ⟨fun x hx => by contradiction, fun x hx => by contradiction⟩
  | types hw htypes _ ih =>
    obtain ⟨hrest, hconstants⟩ := ih fun t ht => hlegible t (by simp [ht])
    refine ⟨?_, hconstants⟩
    intro x hx
    rcases List.mem_append.mp hx with hx | hx
    · obtain ⟨d, hd, rfl⟩ := List.mem_map.mp hx
      obtain ⟨us, hderives, hus⟩ := mem_of_repeats htypes
        (fun t ht => hlegible t (by simp [ht])) hd
      exact TypeDeclaration.wellFormed_of_derives hderives hus
    · exact hrest x hx
  | constants hw hconstants _ ih =>
    obtain ⟨htypes, hrest⟩ := ih fun t ht => hlegible t (by simp [ht])
    refine ⟨htypes, ?_⟩
    intro x hx
    rcases List.mem_append.mp hx with hx | hx
    · obtain ⟨c, hc, rfl⟩ := List.mem_map.mp hx
      obtain ⟨us, hderives, hus⟩ := mem_of_repeats hconstants
        (fun t ht => hlegible t (by simp [ht])) hc
      exact Constant.wellFormed_of_derives hderives hus
    · exact hrest x hx

theorem Tree.wellFormed_of_derives {entry : Entry} {b : Tree} (h : entry.Derives ts b)
    (hlegible : ∀ t ∈ ts, t.Legible) : b.WellFormed ∧ b.entry = entry := by
  cases h with
  | declarations h => exact ⟨Declarations.wellFormed_of_derives h hlegible, rfl⟩
  | typeDeclaration h => exact ⟨TypeDeclaration.wellFormed_of_derives h hlegible, rfl⟩
  | userType h => exact ⟨UserType.wellFormed_of_derives h hlegible, rfl⟩
  | dataType h => exact ⟨DataType.wellFormed_of_derives h hlegible, rfl⟩
  | constant h => exact ⟨Constant.wellFormed_of_derives h hlegible, rfl⟩
  | value h => exact ⟨Value.wellFormed_of_derives h hlegible, rfl⟩

theorem lex_print {t : Tree} (h : t.WellFormed) :
    ∃ text, lex t.print = .ok text ∧ text.lexemes.map (·.node) = t.tokens :=
  lex_of_reads (Tree.printed h).1

theorem lex_of_wellFormed {t : Tree} (h : t.WellFormed) :
    ∃ text, lex t.print = .ok text ∧
      t.entry.Derives (text.lexemes.map (·.node)) t.bare := by
  obtain ⟨text, hlex, hnodes⟩ := lex_print h
  exact ⟨text, hlex, hnodes ▸ (Tree.printed h).2⟩

/-- A well-formed tree is parsed back from its canonical text. -/
theorem print_parses {t : Tree} (h : t.WellFormed) :
    ∃ t', parse t.entry t.print = .ok t' ∧ t'.bare = t.bare := by
  obtain ⟨text, hlex, hderives⟩ := lex_of_wellFormed h
  exact parse_of_derives hlex hderives

theorem print_parses_array : ∃ t', parse .typeDeclaration
    "zone = ARRAY[rows] OF JOINTPOS IN GROUP[2]" = .ok t' ∧
      t'.bare = .typeDeclaration ⟨⟨"zone", ⟨.data (.array [⟨.named "rows", .erased⟩]
        (.named "JOINTPOS" (some 2)) .erased), .erased⟩, none⟩, .erased⟩ := by
  have hname : ∀ name ∈ ["zone", "rows"], IsName name := by
    intro name hmem
    simp only [List.mem_cons, List.not_mem_nil, or_false] at hmem
    rcases hmem with rfl | rfl <;> decide +kernel
  have hprint : Tree.print (.typeDeclaration ⟨⟨"zone", ⟨.data (.array [⟨.named "rows", .erased⟩]
      (.named "JOINTPOS" (some 2)) .erased), .erased⟩, none⟩, .erased⟩) =
        "zone = ARRAY[rows] OF JOINTPOS IN GROUP[2]" := by
    decide +kernel
  rw [← hprint]
  apply print_parses
  refine ⟨hname "zone" (by simp), ⟨?_, by decide +kernel, by decide⟩, ?_⟩
  · intro size hsize
    rw [List.mem_singleton.mp hsize]
    exact hname "rows" (by simp)
  · intro program hprogram
    contradiction

theorem wellFormed_of_parse {entry : Entry} {source : String} {t : Tree}
    (h : parse entry source = .ok t) : t.settle.bare.WellFormed ∧ t.settle.bare.entry = entry := by
  obtain ⟨text, hlex⟩ := lex_of_parse h
  apply Tree.wellFormed_of_derives (derives_of_parse hlex h)
  intro t ht
  obtain ⟨l, hl, rfl⟩ := List.mem_map.mp (List.mem_filter.mp ht).1
  exact legible_of_lex hlex l hl

/-- The canonical text of what is parsed is parsed to the same tree, but settled. -/
theorem parse_print_of_parse {entry : Entry} {source : String} {t : Tree}
    (h : parse entry source = .ok t) :
    ∃ t', parse entry t.print = .ok t' ∧ t'.bare = t.settle.bare := by
  obtain ⟨hwell, hentry⟩ := wellFormed_of_parse h
  obtain ⟨text, hlex, hderives⟩ := lex_of_wellFormed hwell
  rw [hentry, Tree.bare_bare] at hderives
  rw [Tree.print_settle_bare] at hlex
  exact parse_of_derives hlex hderives

/-- What is parsed is parsed again from its canonical text. The trees agree exactly if no comment
hides a position type of the first text. -/
theorem reparse_eq_iff {entry : Entry} {source : String} {text : Lexed} {t : Tree}
    (hlex : lex source = .ok text) (h : parse entry source = .ok t) :
    ∃ t', parse entry t.print = .ok t' ∧ t'.bare = t.settle.bare ∧
      (t'.bare = t.bare ↔ interrupted text.lexemes = false) := by
  obtain ⟨t', hparse, hbare⟩ := parse_print_of_parse h
  refine ⟨t', hparse, hbare, ?_⟩
  rw [hbare, Tree.settle_bare_eq_iff, interrupted_of_language ((parse_eq_ok_iff hlex).mp h)]
  cases t.isSettled <;> decide

theorem parse_hidden_position :
    lex "foo IN -- c\nGROUP[1]" = .ok ⟨[⟨.word "foo", ⟨⟨1, 1⟩, ⟨1, 4⟩⟩⟩,
      ⟨.word "IN", ⟨⟨1, 5⟩, ⟨1, 7⟩⟩⟩, ⟨.comment " c", ⟨⟨1, 8⟩, ⟨1, 12⟩⟩⟩,
      ⟨.word "GROUP", ⟨⟨2, 1⟩, ⟨2, 6⟩⟩⟩, ⟨.mark .leftBracket, ⟨⟨2, 6⟩, ⟨2, 7⟩⟩⟩,
      ⟨.integer 1, ⟨⟨2, 7⟩, ⟨2, 8⟩⟩⟩, ⟨.mark .rightBracket, ⟨⟨2, 8⟩, ⟨2, 9⟩⟩⟩], ⟨2, 9⟩⟩ ∧
    parse .dataType "foo IN -- c\nGROUP[1]" =
      .ok (.dataType ⟨.named "foo" (some 1), ⟨⟨1, 1⟩, ⟨2, 9⟩⟩⟩) ∧
    parse .dataType "foo IN GROUP[1]" =
      .ok (.dataType ⟨.position "foo" 1, ⟨⟨1, 1⟩, ⟨1, 16⟩⟩⟩) := by
  decide +kernel

theorem reparse_hidden_position : ∃ t', parse .dataType "foo IN GROUP[1]" = .ok t' ∧
    t'.bare = .dataType ⟨.position "foo" 1, .erased⟩ := by
  obtain ⟨hlex, hparse, -⟩ := parse_hidden_position
  obtain ⟨t', ht', hbare, -⟩ := reparse_eq_iff hlex hparse
  exact ⟨t', ht', hbare⟩

theorem not_reparse_eq : ¬∀ entry source t, parse entry source = .ok t →
    ∃ t', parse entry t.print = .ok t' ∧ t'.bare = t.bare := by
  intro h
  obtain ⟨-, hparse, hreparse⟩ := parse_hidden_position
  obtain ⟨t', ht', hbare⟩ := h _ _ _ hparse
  change parse .dataType "foo IN GROUP[1]" = .ok t' at ht'
  rw [hreparse] at ht'
  cases ht'
  revert hbare
  decide

end KarelKit
