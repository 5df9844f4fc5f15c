import KarelKit.Proofs.Json.Fields

namespace KarelKit.Json

/-- Equality of values, where an object has one field of a name: it matters which names there are
and what they hold, not the order of the fields. -/
inductive Same : Json → Json → Prop
  | null : Same null null
  | bool (value : Bool) : Same (bool value) (bool value)
  | integer (value : Int) : Same (integer value) (integer value)
  | decimal (literal : String) : Same (decimal literal) (decimal literal)
  | string (value : String) : Same (string value) (string value)
  | array {items others : List Json} (length : items.length = others.length)
    (each : ∀ (i : Nat) (v w : Json), items[i]? = some v → others[i]? = some w → Same v w) :
    Same (array items) (array others)
  | object {fields others : List (String × Json)}
    (names : ∀ name, name ∈ fields.map Prod.fst ↔ name ∈ others.map Prod.fst)
    (each : ∀ name v w, (name, v) ∈ fields → (name, w) ∈ others → Same v w) :
    Same (object fields) (object others)

namespace Same

theorem symm {j k : Json} (h : Same j k) : Same k j := by
  induction h with
  | array length each ih =>
    exact .array length.symm fun i v w hv hw => ih i w v hw hv
  | object names each ih =>
    exact .object (fun name => (names name).symm) fun name v w hv hw => ih name w v hw hv
  | _ => constructor

theorem field {fields others : List (String × Json)} {v w : Json} (name : String)
    (h : Same (.object fields) (.object others)) (hv : (name, v) ∈ fields)
    (hw : (name, w) ∈ others) : Same v w := by
  cases h with
  | object names each => exact each name v w hv hw

/-- Objects that tell a choice differ when their kinds do. -/
theorem kind {k k' : String} {fields others : List (String × Json)}
    (h : Same (.object (("kind", .string k) :: fields))
      (.object (("kind", .string k') :: others))) : k = k' := by
  have hkind := h.field "kind" (List.mem_cons_self ..) (List.mem_cons_self ..)
  cases hkind with
  | string => rfl

theorem eq_null {j : Json} (h : Same .null j) : j = .null := by
  cases h with
  | null => rfl

theorem exists_object {fields : List (String × Json)} {j : Json} (h : Same (.object fields) j) :
    ∃ others, j = .object others := by
  cases h with
  | object names each => exact ⟨_, rfl⟩

theorem eq_empty {j : Json} (h : Same (.object []) j) : j = .object [] := by
  cases h with
  | @object _ others names each =>
    cases others with
    | nil => rfl
    | cons field others => simpa using (names field.1).mpr (by simp)

theorem exists_field {fields others : List (String × Json)} {name : String} {v : Json}
    (h : Same (.object fields) (.object others)) (hv : (name, v) ∈ fields) :
    ∃ w, (name, w) ∈ others ∧ Same v w := by
  cases h with
  | object names each =>
    obtain ⟨⟨_, w⟩, hw, rfl⟩ := List.mem_map.mp ((names name).mp (List.mem_map_of_mem hv))
    exact ⟨w, hw, each _ v w hv hw⟩

/-- With distinct names, what is the same as an object of one field is an object of one field. -/
theorem single {name : String} {v k : Json} (h : Same (.object [(name, v)]) k)
    (hk : k.IsValue) : ∃ w, k = .object [(name, w)] ∧ Same v w := by
  obtain ⟨others, rfl⟩ := h.exists_object
  obtain ⟨w, hw, hsame⟩ := h.exists_field (List.mem_cons_self ..)
  have honly : ∀ field ∈ others, field = (name, w) := by
    rintro ⟨other, u⟩ hu
    obtain ⟨_, hmem, -⟩ := h.symm.exists_field hu
    cases List.mem_singleton.mp hmem
    have hlookup := (lookup_eq_some_iff hk.distinct).mpr hw
    rw [(lookup_eq_some_iff hk.distinct).mpr hu] at hlookup
    cases hlookup
    rfl
  refine ⟨w, ?_, hsame⟩
  cases others with
  | nil => contradiction
  | cons first rest =>
    cases rest with
    | nil => rw [honly first (by simp)]
    | cons second rest =>
      have hdistinct := hk.distinct
      rw [honly first (by simp), honly second (by simp)] at hdistinct
      simp at hdistinct

end Same

/-- Different things have different encodings. -/
def Faithful {α : Type} (write : α → Json) : Prop := ∀ a b, Same (write a) (write b) → a = b

theorem faithful_string : Faithful string := by
  intro a b h
  cases h with
  | string => rfl

theorem faithful_bool : Faithful bool := by
  intro a b h
  cases h with
  | bool => rfl

theorem faithful_integer : Faithful integer := by
  intro a b h
  cases h with
  | integer => rfl

theorem faithful_natural : Faithful fun n : Nat => integer n := by
  intro a b h
  exact Int.ofNat.inj (faithful_integer _ _ h)

theorem faithful_array {α : Type} {write : α → Json} (hwrite : Faithful write) :
    Faithful fun items : List α => array (items.map write) := by
  intro a b h
  cases h with
  | array length each =>
    rw [List.length_map, List.length_map] at length
    apply List.ext_getElem length
    intro i hi hi'
    apply hwrite
    apply each i <;> simp [hi, hi']

theorem faithful_ofOption {α : Type} {write : α → Json} (hwrite : Faithful write)
    (hnull : ∀ a, write a ≠ null) : Faithful (ofOption write) := by
  intro a b h
  cases a with
  | none =>
    cases b with
    | none => rfl
    | some b => exact absurd h.eq_null (hnull b)
  | some a =>
    cases b with
    | none => exact absurd h.symm.eq_null (hnull a)
    | some b => exact congrArg some (hwrite a b h)

end KarelKit.Json
