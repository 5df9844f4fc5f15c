import KarelKit.Json.Basic

namespace KarelKit.Json

/-- A value all of whose parts have values, with no name twice in an object. -/
inductive IsValue : Json → Prop
  | null : IsValue null
  | bool (value : Bool) : IsValue (bool value)
  | integer (value : Int) : IsValue (integer value)
  | decimal (literal : String) : IsValue (decimal literal)
  | string (value : String) : IsValue (string value)
  | array {items : List Json} (each : ∀ item ∈ items, IsValue item) : IsValue (array items)
  | object {fields : List (String × Json)} (distinct : (fields.map Prod.fst).Nodup)
    (each : ∀ field ∈ fields, IsValue field.2) : IsValue (object fields)

theorem allHaveValue_iff {items : List Json} :
    allHaveValue items = true ↔ ∀ item ∈ items, item.hasValue = true := by
  induction items with
  | nil => simp [allHaveValue]
  | cons item items ih => simp [allHaveValue, ih]

theorem fieldsHaveValue_iff {fields : List (String × Json)} :
    fieldsHaveValue fields = true ↔ ∀ field ∈ fields, field.2.hasValue = true := by
  induction fields with
  | nil => simp [fieldsHaveValue]
  | cons field fields ih => simp [fieldsHaveValue, ih]

attribute [simp] IsValue.null IsValue.bool IsValue.integer IsValue.decimal IsValue.string

@[simp] theorem isValue_array {items : List Json} :
    IsValue (.array items) ↔ ∀ item ∈ items, item.IsValue := by
  constructor
  · intro h
    cases h with
    | array each => exact each
  · exact .array

@[simp] theorem isValue_object {fields : List (String × Json)} : IsValue (.object fields) ↔
    (fields.map Prod.fst).Nodup ∧ ∀ field ∈ fields, field.2.IsValue := by
  constructor
  · intro h
    cases h with
    | object distinct each => exact ⟨distinct, each⟩
  · rintro ⟨distinct, each⟩
    exact .object distinct each

theorem IsValue.distinct {fields : List (String × Json)} (h : IsValue (.object fields)) :
    (fields.map Prod.fst).Nodup := (isValue_object.mp h).1

theorem IsValue.of_mem {fields : List (String × Json)} {field : String × Json}
    (h : IsValue (.object fields)) (hfield : field ∈ fields) : field.2.IsValue :=
  (isValue_object.mp h).2 field hfield

theorem IsValue.hasValue {j : Json} (h : j.IsValue) : j.hasValue = true := by
  induction h with
  | array each ih => exact allHaveValue_iff.mpr ih
  | object distinct each ih => exact fieldsHaveValue_iff.mpr ih
  | _ => rfl

variable {fields : List (String × Json)} {name : String} {v : Json}

theorem mem_of_lookup {α : Type} {entries : List (String × α)} {a : α}
    (h : entries.lookup name = some a) : (name, a) ∈ entries := by
  obtain ⟨front, back, rfl, -⟩ := List.lookup_eq_some_iff.mp h
  simp

theorem sizeOf_lt_of_lookup (h : fields.lookup name = some v) : sizeOf v < sizeOf fields := by
  have hsize := List.sizeOf_lt_of_mem (mem_of_lookup h)
  rw [Prod.mk.sizeOf_spec] at hsize
  omega

theorem lookup_eq_some_iff (distinct : (fields.map Prod.fst).Nodup) :
    fields.lookup name = some v ↔ (name, v) ∈ fields := by
  induction fields with
  | nil => simp
  | cons field fields ih =>
    obtain ⟨other, w⟩ := field
    rw [List.map_cons, List.nodup_cons] at distinct
    by_cases hname : name = other
    · subst hname
      have hnot : (name, v) ∉ fields := by
        intro h
        exact distinct.1 (List.mem_map.mpr ⟨(name, v), h, rfl⟩)
      simp [hnot, eq_comm]
    · have hbeq : (name == other) = false := by simpa using hname
      simp [List.lookup_cons, hbeq, hname, ih distinct.2]

theorem lookup_eq_none : fields.lookup name = none ↔ name ∉ fields.map Prod.fst := by
  rw [List.lookup_eq_none_iff]
  constructor
  · intro h hmem
    obtain ⟨field, hfield, hname⟩ := List.mem_map.mp hmem
    simpa [hname] using h field hfield
  · intro h field hfield
    have hne : name ≠ field.1 := fun hname => h (hname ▸ List.mem_map_of_mem hfield)
    simpa using hne

theorem fieldsNamed_object (distinct : (fields.map Prod.fst).Nodup) :
    (object fields).fieldsNamed name = (fields.lookup name).toList := by
  induction fields with
  | nil => rfl
  | cons field fields ih =>
    obtain ⟨other, w⟩ := field
    rw [List.map_cons, List.nodup_cons] at distinct
    have hrest := ih distinct.2
    simp only [fieldsNamed] at hrest ⊢
    by_cases hname : other = name
    · subst hname
      have hnone : fields.lookup other = none := lookup_eq_none.mpr distinct.1
      rw [List.filter_cons_of_pos (by simp), List.map_cons, hrest, hnone]
      simp
    · have hbeq : (name == other) = false := by simpa using fun h : name = other => hname h.symm
      rw [List.filter_cons_of_neg (by simpa using hname), hrest, List.lookup_cons, hbeq]

theorem field?_object (distinct : (fields.map Prod.fst).Nodup) :
    (object fields).field? name = fields.lookup name := by
  rw [field?, fieldsNamed_object distinct]
  cases fields.lookup name <;> rfl

theorem fieldOrNull?_object (distinct : (fields.map Prod.fst).Nodup) :
    (object fields).fieldOrNull? name = some ((fields.lookup name).getD null) := by
  rw [fieldOrNull?, fieldsNamed_object distinct]
  cases fields.lookup name <;> rfl

end KarelKit.Json
