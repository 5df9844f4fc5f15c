import KarelKit.Proofs.Json.Reading

namespace KarelKit.Json

/-- A value whose numbers are whole and have 64 bits, apart from the sign. -/
inductive Plain : Json → Prop
  | null : Plain null
  | bool (value : Bool) : Plain (bool value)
  | integer {value : Int} (h : value.natAbs < 0x10000000000000000) : Plain (integer value)
  | string (value : String) : Plain (string value)
  | array {items : List Json} (each : ∀ item ∈ items, Plain item) : Plain (array items)
  | object {fields : List (String × Json)} (each : ∀ field ∈ fields, Plain field.2) :
    Plain (object fields)

attribute [simp] Plain.null Plain.bool Plain.string

@[simp] theorem plain_integer {value : Int} :
    Plain (.integer value) ↔ value.natAbs < 0x10000000000000000 := by
  constructor
  · rintro ⟨⟩
    assumption
  · exact .integer

@[simp] theorem plain_array {items : List Json} :
    Plain (.array items) ↔ ∀ item ∈ items, item.Plain := by
  constructor
  · rintro ⟨⟩
    assumption
  · exact .array

@[simp] theorem plain_object {fields : List (String × Json)} :
    Plain (.object fields) ↔ ∀ field ∈ fields, field.2.Plain := by
  constructor
  · rintro ⟨⟩
    assumption
  · exact .object

theorem Written.list {inner outer : List Char} (hinner : Blank inner) (houter : Blank outer)
    (write : Json → List Char) {items : List Json}
    (each : ∀ item ∈ items, Written item (write item)) :
    Written (.array items) (bracketed inner outer '[' ']' (items.map write)) := by
  have heach : ∀ e ∈ items.map (fun item => (item, write item)), Written e.1 e.2 := by
    intro e he
    obtain ⟨item, hitem, rfl⟩ := List.mem_map.mp he
    exact each item hitem
  have h := Written.array hinner houter heach
  simpa [Function.comp_def] using h

theorem Written.record {inner outer gap : List Char} (hinner : Blank inner) (houter : Blank outer)
    (hgap : Blank gap) (write : Json → List Char) {fields : List (String × Json)}
    (each : ∀ field ∈ fields, Written field.2 (write field.2)) :
    Written (.object fields) (bracketed inner outer '\x7b' '\x7d'
      (fields.map fun field => fieldText gap field.1 (write field.2))) := by
  have heach : ∀ e ∈ fields.map (fun field => (field.1, field.2, write field.2)),
      Written e.2.1 e.2.2 := by
    intro e he
    obtain ⟨field, hfield, rfl⟩ := List.mem_map.mp he
    exact each field hfield
  have h := Written.object hinner houter hgap heach
  simpa [Function.comp_def] using h

/-- Entries with one separator, each behind the same indentation. -/
theorem intercalate_eq_more (gap indent text : List Char) (texts : List (List Char))
    (outer : List Char) (closing : Char) :
    (',' :: gap).intercalate ((text :: texts).map (indent ++ ·)) ++ (outer ++ [closing]) =
      indent ++ (text ++ more (gap ++ indent) outer closing texts) := by
  -- the gap of a separator and the next indentation are the blanks in front of an entry
  induction texts generalizing text with
  | nil => simp [more]
  | cons following texts ih =>
    have hrest := ih following
    simp only [List.map_cons] at hrest ⊢
    rw [List.intercalate_cons_cons, List.append_assoc, List.append_assoc, hrest]
    simp [more]

theorem toList_compactBlock {opening closing : String} {first last : Char}
    (hopening : opening.toList = [first]) (hclosing : closing.toList = [last])
    (entries : List String) : (opening ++ ",".intercalate entries ++ closing).toList =
      bracketed [] [] first last (entries.map String.toList) := by
  cases entries with
  | nil => simp [hopening, hclosing, bracketed]
  | cons entry entries =>
    have hentries := intercalate_eq_more [] [] entry.toList (entries.map String.toList) [] last
    simp only [List.nil_append, List.map_id'] at hentries
    simp [hopening, hclosing, bracketed, hentries]

theorem toList_block {opening closing : String} {first last : Char}
    (hopening : opening.toList = [first]) (hclosing : closing.toList = [last])
    (indent : String) {entries : List String} (hne : entries ≠ []) :
    (block indent opening closing entries).toList =
      bracketed ("\n".toList ++ (indent ++ "  ").toList) ("\n".toList ++ indent.toList) first last
        (entries.map String.toList) := by
  obtain ⟨entry, entries, rfl⟩ := List.exists_cons_of_ne_nil hne
  have hentries := intercalate_eq_more "\n".toList (indent ++ "  ").toList entry.toList
    (entries.map String.toList) ("\n".toList ++ indent.toList) last
  change (opening ++ "\n" ++ ",\n".intercalate
    ((entry :: entries).map (indent ++ "  " ++ ·)) ++ "\n" ++ indent ++ closing).toList = _
  have hlines : ((entry :: entries).map (indent ++ "  " ++ ·)).map String.toList =
      (entry.toList :: entries.map String.toList).map ((indent ++ "  ").toList ++ ·) := by
    simp
  have hcomma : ",\n".toList = ',' :: "\n".toList := rfl
  simp only [String.toList_append, String.toList_intercalate, hlines, hcomma, hopening,
    hclosing, List.append_assoc] at hentries ⊢
  rw [hentries]
  simp [bracketed]

theorem compactItems_eq (items : List Json) : compactItems items = items.map compact := by
  induction items with
  | nil => rfl
  | cons item items ih => rw [compactItems, ih, List.map_cons]

theorem compactFields_eq (fields : List (String × Json)) : compactFields fields =
    fields.map fun field => quote field.1 ++ ":" ++ field.2.compact := by
  induction fields with
  | nil => rfl
  | cons field fields ih =>
    rw [compactFields, ih, List.map_cons]
    rfl

theorem prettyItems_eq (indent : String) (items : List Json) :
    prettyItems indent items = items.map (pretty indent) := by
  induction items with
  | nil => rfl
  | cons item items ih => rw [prettyItems, ih, List.map_cons]

theorem prettyFields_eq (indent : String) (fields : List (String × Json)) :
    prettyFields indent fields =
      fields.map fun field => quote field.1 ++ ": " ++ field.2.pretty indent := by
  induction fields with
  | nil => rfl
  | cons field fields ih =>
    rw [prettyFields, ih, List.map_cons]
    rfl

theorem written_compact {j : Json} (h : j.Plain) : Written j j.compact.toList := by
  induction h with
  | null => exact .null
  | bool value => exact .bool value
  | integer h => exact .integer h
  | string value => exact .string value
  | @array items each ih =>
    have hlist := Written.list blank_nil blank_nil (fun item => item.compact.toList) ih
    rw [compact, compactItems_eq, toList_compactBlock rfl rfl, List.map_map]
    exact hlist
  | @object fields each ih =>
    have hrecord := Written.record blank_nil blank_nil blank_nil (fun j => j.compact.toList) ih
    have hopening : "\x7b".toList = ['\x7b'] := rfl
    have hclosing : "\x7d".toList = ['\x7d'] := rfl
    rw [compact, compactFields_eq, toList_compactBlock hopening hclosing, List.map_map]
    simpa [fieldText, Function.comp_def] using hrecord

theorem written_pretty {j : Json} (h : j.Plain) {indent : String} (hindent : Blank indent.toList) :
    Written j (j.pretty indent).toList := by
  have hline : Blank "\n".toList := blank_of_all rfl
  have hgap : Blank " ".toList := blank_of_all rfl
  have hdeeper : Blank "  ".toList := blank_of_all rfl
  induction h generalizing indent with
  | null => exact .null
  | bool value => exact .bool value
  | integer h => exact .integer h
  | string value => exact .string value
  | @array items each ih =>
    have hinner : Blank (indent ++ "  ").toList := by
      rw [String.toList_append]
      exact blank_append hindent hdeeper
    have hlist := Written.list (blank_append hline hinner) (blank_append hline hindent)
      (fun item => (item.pretty (indent ++ "  ")).toList) fun item hitem => ih item hitem hinner
    -- without items there are no lines, only the brackets
    cases items with
    | nil => simpa [pretty, bracketed] using hlist
    | cons item items =>
      rw [pretty, prettyItems_eq, toList_block rfl rfl indent (by simp), List.map_map]
      exact hlist
  | @object fields each ih =>
    have hinner : Blank (indent ++ "  ").toList := by
      rw [String.toList_append]
      exact blank_append hindent hdeeper
    have hrecord := Written.record (blank_append hline hinner) (blank_append hline hindent) hgap
      (fun j => (j.pretty (indent ++ "  ")).toList) fun field hfield => ih field hfield hinner
    have hopening : "\x7b".toList = ['\x7b'] := rfl
    have hclosing : "\x7d".toList = ['\x7d'] := rfl
    cases fields with
    | nil => simpa [pretty, bracketed] using hrecord
    | cons field fields =>
      rw [pretty, prettyFields_eq, toList_block hopening hclosing indent (by simp), List.map_map]
      simpa [fieldText, Function.comp_def] using hrecord

theorem read_compact {j : Json} (h : j.Plain) : read (j.compact ++ "\n") = some j :=
  read_of_written (written_compact h)

theorem read_pretty {j : Json} (h : j.Plain) : read (j.pretty "" ++ "\n") = some j :=
  read_of_written (written_pretty h blank_nil)

end KarelKit.Json
