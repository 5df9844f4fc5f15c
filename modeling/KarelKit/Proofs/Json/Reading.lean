import KarelKit.Proofs.Json.Scalars

namespace KarelKit.Json

def Blank (text : List Char) : Prop := ∀ c ∈ text, isBlank c = true

/-- The entries behind the first one, up to the closing bracket. Blanks stand before an entry, and
before the bracket. -/
def more (inner outer : List Char) (closing : Char) : List (List Char) → List Char
  | [] => outer ++ [closing]
  | text :: texts => ',' :: (inner ++ (text ++ more inner outer closing texts))

def bracketed (inner outer : List Char) (opening closing : Char) : List (List Char) → List Char
  | [] => [opening, closing]
  | text :: texts => opening :: (inner ++ (text ++ more inner outer closing texts))

def fieldText (gap : List Char) (name : String) (text : List Char) : List Char :=
  (quote name).toList ++ ':' :: (gap ++ text)

/-- The texts of a value. Its lists and objects may be laid out with blanks. -/
inductive Written : Json → List Char → Prop
  | null : Written null "null".toList
  | bool (value : Bool) : Written (bool value) (toString value).toList
  | integer {value : Int} (h : value.natAbs < 0x10000000000000000) :
    Written (integer value) (toString value).toList
  | string (value : String) : Written (string value) (quote value).toList
  | array {inner outer : List Char} (hinner : Blank inner) (houter : Blank outer)
    {items : List (Json × List Char)} (each : ∀ item ∈ items, Written item.1 item.2) :
    Written (array (items.map (·.1))) (bracketed inner outer '[' ']' (items.map (·.2)))
  | object {inner outer gap : List Char} (hinner : Blank inner) (houter : Blank outer)
    (hgap : Blank gap) {fields : List (String × Json × List Char)}
    (each : ∀ field ∈ fields, Written field.2.1 field.2.2) :
    Written (object (fields.map fun field => (field.1, field.2.1)))
      (bracketed inner outer '\x7b' '\x7d'
        (fields.map fun field => fieldText gap field.1 field.2.2))

theorem blank_of_all {text : List Char} (h : text.all isBlank = true) : Blank text :=
  List.all_eq_true.mp h

theorem blank_nil : Blank [] := blank_of_all rfl

theorem blank_append {front back : List Char} (hfront : Blank front) (hback : Blank back) :
    Blank (front ++ back) := List.forall_mem_append.mpr ⟨hfront, hback⟩

theorem skipBlank_append {blank : List Char} (h : Blank blank) (text : List Char) :
    skipBlank (blank ++ text) = skipBlank text := List.dropWhile_append_of_pos h

theorem skipBlank_cons {c : Char} (h : isBlank c = false) (text : List Char) :
    skipBlank (c :: text) = c :: text := by simp [skipBlank, h]

theorem isBlank_cases {c : Char} (h : isBlank c = true) :
    c = ' ' ∨ c = '\t' ∨ c = '\n' ∨ c = '\r' := by
  simpa [isBlank, or_assoc] using h

theorem closes_of_isBlank {c : Char} (h : isBlank c = true) (text : List Char) :
    Numeral.Closes (c :: text) := by
  rintro d ⟨⟩
  rcases isBlank_cases h with rfl | rfl | rfl | rfl <;> decide

theorem closes_blank {blank text : List Char} (h : Blank blank) (htext : Numeral.Closes text) :
    Numeral.Closes (blank ++ text) := by
  cases blank with
  | nil => exact htext
  | cons c blank => exact closes_of_isBlank (h c (List.mem_cons_self ..)) _

/-- A bracket that closes a list or an object. -/
def Closing (c : Char) : Prop := c = ']' ∨ c = '\x7d'

theorem closes_closing {closing : Char} (h : Closing closing) {blank : List Char}
    (hblank : Blank blank) (rest : List Char) : Numeral.Closes (blank ++ closing :: rest) := by
  apply closes_blank hblank
  rintro d ⟨⟩
  rcases h with rfl | rfl <;> decide

theorem closes_comma (rest : List Char) : Numeral.Closes (',' :: rest) := by
  rintro d ⟨⟩
  decide

/-- How a value begins: not with a blank, and not with a bracket that closes a list. -/
def Begins (text : List Char) : Prop :=
  ∃ c tail, text = c :: tail ∧ isBlank c = false ∧ c ≠ ']'

theorem isBlank_digit {c : Char} (h : c = '-' ∨ c.isDigit = true) : isBlank c = false := by
  by_contra hblank
  rw [Bool.not_eq_false] at hblank
  rcases isBlank_cases hblank with rfl | rfl | rfl | rfl <;> simp at h

theorem begins_bracketed {inner outer : List Char} {opening closing : Char}
    (hblank : isBlank opening = false) (hopening : opening ≠ ']') (texts : List (List Char)) :
    Begins (bracketed inner outer opening closing texts) := by
  cases texts with
  | nil => exact ⟨opening, _, rfl, hblank, hopening⟩
  | cons text texts => exact ⟨opening, _, rfl, hblank, hopening⟩

theorem toList_quote (s : String) : (quote s).toList = '"' :: s.toList.flatMap escape ++ ['"'] := by
  simp [quote]

theorem Written.begins {j : Json} {text : List Char} (h : Written j text) : Begins text := by
  cases h with
  | null => exact ⟨'n', _, rfl, rfl, by decide⟩
  | bool value =>
    cases value with
    | true => exact ⟨'t', _, rfl, rfl, by decide⟩
    | false => exact ⟨'f', _, rfl, rfl, by decide⟩
  | integer h =>
    rename_i value
    obtain ⟨c, tail, htext, hc⟩ := head_integer value
    refine ⟨c, tail, htext, isBlank_digit hc, ?_⟩
    rintro rfl
    simp at hc
  | string value => exact ⟨'"', _, toList_quote value, rfl, by decide⟩
  | array => exact begins_bracketed rfl (by decide) _
  | object => exact begins_bracketed rfl (by decide) _

/-- With fuel for its length, a value is read off the front of a text. -/
def Reads (j : Json) (text : List Char) : Prop :=
  ∀ fuel, 2 * text.length ≤ fuel → ∀ blank rest, Blank blank → Numeral.Closes rest →
    readValue fuel (blank ++ (text ++ rest)) = some (j, rest)

theorem readValue_blank {blank : List Char} (hblank : Blank blank) (fuel : Nat) (text : List Char) :
    readValue fuel (blank ++ text) = readValue fuel text := by
  cases fuel with
  | zero => rfl
  | succ fuel => rw [readValue, readValue, skipBlank_append hblank]

theorem Reads.of_front {j : Json} {text : List Char} (hne : text ≠ [])
    (h : ∀ fuel, 2 * text.length ≤ fuel + 1 → ∀ rest, Numeral.Closes rest →
      readValue (fuel + 1) (text ++ rest) = some (j, rest)) : Reads j text := by
  intro fuel hfuel blank rest hblank hrest
  have hlength := List.length_pos_iff.mpr hne
  obtain ⟨n, rfl⟩ : ∃ n, fuel = n + 1 := ⟨fuel - 1, by omega⟩
  rw [readValue_blank hblank]
  exact h n hfuel rest hrest

theorem readValue_number {c : Char} (hc : c = '-' ∨ c.isDigit = true) (fuel : Nat)
    (text : List Char) : readValue (fuel + 1) (c :: text) = readNumber (c :: text) := by
  rw [readValue, skipBlank_cons (isBlank_digit hc)]
  split <;> simp_all

theorem reads_integer {value : Int} (h : value.natAbs < 0x10000000000000000) :
    Reads (.integer value) (toString value).toList := by
  obtain ⟨c, tail, htext, hc⟩ := head_integer value
  apply Reads.of_front (htext ▸ List.cons_ne_nil c tail)
  intro fuel _ rest hrest
  have hread := readNumber_integer h hrest
  rw [htext, List.cons_append] at hread ⊢
  rw [readValue_number hc, hread]

theorem reads_string (value : String) : Reads (.string value) (quote value).toList := by
  apply Reads.of_front (by simp [quote])
  intro fuel _ rest _
  simp [toList_quote, readValue, skipBlank, isBlank, readString_quote]

/-- How `readAll` reads one entry: it ends with the last one, and goes on behind a comma. -/
structure ReadsEntry {α : Type} (readAll : Nat → List Char → Option (List α × List Char))
    (closing : Char) (a : α) (text : List Char) : Prop where
  last (fuel : Nat) (hfuel : 2 * text.length ≤ fuel) {blank outer : List Char}
    (hblank : Blank blank) (houter : Blank outer) (rest : List Char) :
    readAll (fuel + 1) (blank ++ (text ++ (outer ++ closing :: rest))) = some ([a], rest)
  next (fuel : Nat) (hfuel : 2 * text.length ≤ fuel) {blank rest after : List Char}
    (hblank : Blank blank) {as : List α} (hrest : readAll fuel rest = some (as, after)) :
    readAll (fuel + 1) (blank ++ (text ++ ',' :: rest)) = some (a :: as, after)

theorem readAll_of_readsEntry {α : Type} {readAll : Nat → List Char → Option (List α × List Char)}
    {closing : Char} {inner outer : List Char} (hinner : Blank inner) (houter : Blank outer)
    {entry : α × List Char} {entries : List (α × List Char)}
    (each : ∀ e ∈ entry :: entries, ReadsEntry readAll closing e.1 e.2) (fuel : Nat)
    (hfuel : 2 * (entry.2 ++ more inner outer closing (entries.map (·.2))).length ≤ fuel)
    {blank : List Char} (hblank : Blank blank) (rest : List Char) :
    readAll fuel (blank ++ (entry.2 ++ (more inner outer closing (entries.map (·.2)) ++ rest))) =
      some (entry.1 :: entries.map (·.1), rest) := by
  -- an entry takes one unit of fuel, and the comma or bracket behind it pays for that
  induction entries generalizing entry fuel blank with
  | nil =>
    obtain ⟨n, rfl⟩ : ∃ n, fuel = n + 1 := ⟨fuel - 1, by simp [more] at hfuel; omega⟩
    have hentry := each entry (List.mem_cons_self ..)
    have hlength : 2 * entry.2.length ≤ n := by simp [more] at hfuel; omega
    have hlast := hentry.last n hlength hblank houter rest
    simpa [more] using hlast
  | cons following entries ih =>
    obtain ⟨n, rfl⟩ : ∃ n, fuel = n + 1 := ⟨fuel - 1, by simp [more] at hfuel; omega⟩
    have hentry := each entry (List.mem_cons_self ..)
    have hlength : 2 * entry.2.length ≤ n := by simp [more] at hfuel; omega
    have hmore := ih (fun e he => each e (List.mem_cons_of_mem _ he)) n
      (by simp [more] at hfuel ⊢; omega) hinner
    have hnext := hentry.next n hlength hblank hmore
    simpa [more] using hnext

theorem readsEntry_item {j : Json} {text : List Char} (h : Reads j text) :
    ReadsEntry readItems ']' j text where
  last fuel hfuel blank outer hblank houter rest := by
    have hread := h fuel hfuel blank _ hblank (closes_closing (Or.inl rfl) houter rest)
    have hskip : skipBlank (outer ++ ']' :: rest) = ']' :: rest := skipBlank_append houter _
    simp [readItems, hread, hskip]
  next fuel hfuel blank rest after hblank as hrest := by
    have hread := h fuel hfuel blank _ hblank (closes_comma rest)
    have hskip : skipBlank (',' :: rest) = ',' :: rest := rfl
    simp [readItems, hread, hskip, hrest]

theorem skipBlank_fieldText {blank : List Char} (hblank : Blank blank) (gap : List Char)
    (name : String) (text rest : List Char) :
    skipBlank (blank ++ (fieldText gap name text ++ rest)) =
      '"' :: (name.toList.flatMap escape ++ '"' :: ':' :: (gap ++ (text ++ rest))) := by
  rw [skipBlank_append hblank, fieldText, toList_quote]
  simp [skipBlank, isBlank]

theorem skipBlank_colon (text : List Char) : skipBlank (':' :: text) = ':' :: text := rfl

theorem head_fieldText (gap : List Char) (name : String) (text : List Char) :
    ∃ tail, fieldText gap name text = '"' :: tail := by
  rw [fieldText, toList_quote]
  exact ⟨_, rfl⟩

theorem length_le_fieldText (gap : List Char) (name : String) (text : List Char) :
    2 * text.length ≤ 2 * (fieldText gap name text).length := by
  simp only [fieldText, List.length_append, List.length_cons]
  omega

theorem readsEntry_field {gap : List Char} (hgap : Blank gap) (name : String) {j : Json}
    {text : List Char} (h : Reads j text) :
    ReadsEntry readFields '\x7d' (some name, j) (fieldText gap name text) where
  last fuel hfuel blank outer hblank houter rest := by
    have hlength := (length_le_fieldText gap name text).trans hfuel
    have hread := h fuel hlength gap _ hgap (closes_closing (Or.inr rfl) houter rest)
    have hskip : skipBlank (outer ++ '\x7d' :: rest) = '\x7d' :: rest := skipBlank_append houter _
    simp [readFields, skipBlank_fieldText hblank, readString_quote, skipBlank_colon, hread, hskip]
  next fuel hfuel blank rest after hblank as hrest := by
    have hlength := (length_le_fieldText gap name text).trans hfuel
    have hread := h fuel hlength gap _ hgap (closes_comma rest)
    have hskip : skipBlank (',' :: rest) = ',' :: rest := rfl
    simp [readFields, skipBlank_fieldText hblank, readString_quote, skipBlank_colon, hread, hskip,
      hrest]

theorem ofFields_some (fields : List (String × Json)) :
    ofFields (fields.map fun field => (some field.1, field.2)) = .object fields := by
  have hnames : (fields.map fun field => (some field.1, field.2)).mapM
      (fun field : Option String × Json => (·, field.2) <$> field.1) = some fields := by
    induction fields with
    | nil => rfl
    | cons field fields ih =>
      rw [List.map_cons, List.mapM_cons, ih]
      rfl
  rw [ofFields, hnames]

theorem readValue_items {c : Char} (hc : c ≠ ']') {text tail rest : List Char}
    (hskip : skipBlank text = c :: tail) {fuel : Nat} {items : List Json}
    (hitems : readItems fuel (c :: tail) = some (items, rest)) :
    readValue (fuel + 1) ('[' :: text) = some (.array items, rest) := by
  have hopening : skipBlank ('[' :: text) = '[' :: text := rfl
  simp [readValue, hopening, hskip, hc, hitems]

theorem readValue_fields {c : Char} (hc : c ≠ '\x7d') {text tail rest : List Char}
    (hskip : skipBlank text = c :: tail) {fuel : Nat} {fields : List (Option String × Json)}
    (hfields : readFields fuel (c :: tail) = some (fields, rest)) :
    readValue (fuel + 1) ('\x7b' :: text) = some (ofFields fields, rest) := by
  have hopening : skipBlank ('\x7b' :: text) = '\x7b' :: text := rfl
  simp [readValue, hopening, hskip, hc, hfields]

theorem bracketed_ne_nil {inner outer : List Char} {opening closing : Char}
    (texts : List (List Char)) : bracketed inner outer opening closing texts ≠ [] := by
  cases texts <;> exact List.cons_ne_nil _ _

theorem reads_array {inner outer : List Char} (hinner : Blank inner) (houter : Blank outer)
    {items : List (Json × List Char)} (begins : ∀ item ∈ items, Begins item.2)
    (each : ∀ item ∈ items, Reads item.1 item.2) :
    Reads (.array (items.map (·.1))) (bracketed inner outer '[' ']' (items.map (·.2))) := by
  apply Reads.of_front (bracketed_ne_nil _)
  intro fuel hfuel rest _
  cases items with
  | nil => rfl
  | cons item items =>
    -- what stands behind the blanks does not close the list
    obtain ⟨c, tail, htext, hc, hclosing⟩ := begins item (List.mem_cons_self ..)
    have hitems := readAll_of_readsEntry hinner houter (fun e he => readsEntry_item (each e he))
      fuel (by simp [bracketed] at hfuel ⊢; omega) blank_nil rest
    rw [List.nil_append, htext, List.cons_append] at hitems
    have hskip := skipBlank_append hinner
      (item.2 ++ (more inner outer ']' (items.map (·.2)) ++ rest))
    rw [htext, List.cons_append, skipBlank_cons hc] at hskip
    have hvalue := readValue_items hclosing hskip hitems
    simpa [bracketed, htext] using hvalue

/-- A field as the reader gives it, with its text. -/
def fieldEntry (gap : List Char) (field : String × Json × List Char) :
    (Option String × Json) × List Char :=
  ((some field.1, field.2.1), fieldText gap field.1 field.2.2)

theorem map_fieldEntry_text (gap : List Char) (fields : List (String × Json × List Char)) :
    (fields.map (fieldEntry gap)).map (·.2) =
      fields.map fun field => fieldText gap field.1 field.2.2 := by
  rw [List.map_map]
  rfl

theorem ofFields_fieldEntry (gap : List Char) (fields : List (String × Json × List Char)) :
    ofFields ((fields.map (fieldEntry gap)).map (·.1)) =
      .object (fields.map fun field => (field.1, field.2.1)) := by
  rw [← ofFields_some, List.map_map, List.map_map]
  rfl

theorem reads_object {inner outer gap : List Char} (hinner : Blank inner) (houter : Blank outer)
    (hgap : Blank gap) {fields : List (String × Json × List Char)}
    (each : ∀ field ∈ fields, Reads field.2.1 field.2.2) :
    Reads (.object (fields.map fun field => (field.1, field.2.1)))
      (bracketed inner outer '\x7b' '\x7d'
        (fields.map fun field => fieldText gap field.1 field.2.2)) := by
  apply Reads.of_front (bracketed_ne_nil _)
  intro fuel hfuel rest _
  rw [← ofFields_fieldEntry gap]
  rw [← map_fieldEntry_text gap] at hfuel ⊢
  cases fields with
  | nil => rfl
  | cons field fields =>
    have heach : ∀ e ∈ fieldEntry gap field :: fields.map (fieldEntry gap),
        ReadsEntry readFields '\x7d' e.1 e.2 := by
      intro e he
      rw [← List.map_cons] at he
      obtain ⟨source, hsource, rfl⟩ := List.mem_map.mp he
      exact readsEntry_field hgap source.1 (each source hsource)
    have hfields := readAll_of_readsEntry hinner houter heach fuel
      (by simp only [List.map_cons, bracketed, List.length_cons, List.length_append] at hfuel ⊢
          omega) blank_nil rest
    -- the first field begins with a quote, so the object is not taken for an empty one
    obtain ⟨tail, htext⟩ := head_fieldText gap field.1 field.2.2
    have hentry : (fieldEntry gap field).2 = '"' :: tail := htext
    rw [List.nil_append, hentry, List.cons_append] at hfields
    have hskip := skipBlank_append hinner ((fieldEntry gap field).2 ++
      (more inner outer '\x7d' ((fields.map (fieldEntry gap)).map (·.2)) ++ rest))
    rw [hentry, List.cons_append, skipBlank_cons rfl] at hskip
    have hvalue := readValue_fields (by decide) hskip hfields
    simpa only [List.map_cons, bracketed, hentry, List.cons_append, List.append_assoc] using hvalue

/-- A text that is written by the rules is read as the value it is written for. -/
theorem reads_of_written {j : Json} {text : List Char} (h : Written j text) : Reads j text := by
  induction h with
  | null => exact Reads.of_front (by decide) fun fuel _ rest _ => rfl
  | bool value =>
    cases value with
    | true => exact Reads.of_front (by decide) fun fuel _ rest _ => rfl
    | false => exact Reads.of_front (by decide) fun fuel _ rest _ => rfl
  | integer h => exact reads_integer h
  | string value => exact reads_string value
  | array hinner houter each ih =>
    exact reads_array hinner houter (fun item hitem => (each item hitem).begins) ih
  | object hinner houter hgap each ih => exact reads_object hinner houter hgap ih

theorem read_of_written {j : Json} {text : String} (h : Written j text.toList) :
    read (text ++ "\n") = some j := by
  have hreads := reads_of_written h (2 * (text.toList ++ ['\n']).length + 2) (by simp; omega) []
    ['\n'] blank_nil (closes_of_isBlank rfl [])
  have hskip : skipBlank ['\n'] = [] := rfl
  have htext : (text ++ "\n").toList = text.toList ++ ['\n'] := by simp
  rw [List.nil_append] at hreads
  simp only [read, htext, hreads]
  simp [hskip]

end KarelKit.Json
