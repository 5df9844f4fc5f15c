import KarelKit.Proofs.Json.Equality

namespace KarelKit.Pendant

open Json

/-- The sorts of objects. -/
inductive Node
  | position
  | range
  | labelNumber
  | label
  | motionOption
  | wait
  | action
  | instruction
  | program
deriving DecidableEq

/-- What a field holds: a text, a number of 32 bits without sign, one of some names, an object or a
list of objects. -/
inductive Content
  | text
  | word
  | oneOf (names : List String)
  | node (n : Node)
  | nodes (n : Node)

/-- A field that an object has; a nullable one may hold `null`, or be missing. -/
structure Slot where
  name : String
  content : Content
  nullable : Bool

def Slot.required (name : String) (content : Content) : Slot := ⟨name, content, false⟩

def Slot.optional (name : String) (content : Content) : Slot := ⟨name, content, true⟩

/-- The fields of a sort of objects. Where there is a choice, the field `kind` tells which. -/
inductive Layout
  | record (slots : List Slot)
  | choice (kinds : List (String × List Slot))

def motionTypes : List String := ["joint", "linear", "circular", "circular_arc"]

def Node.layout : Node → Layout
  | position => .record [.required "line" .word, .required "column" .word]
  | range => .record [.required "start" (.node position), .required "end" (.node position)]
  | labelNumber => .choice [
      ("direct", [.required "number" .word, .optional "comment" .text]),
      ("indirect", [.required "register" .word])]
  | label => .record [.required "number" (.node labelNumber), .required "range" (.node range)]
  | motionOption => .choice [
      ("skip", [.required "label" (.node label)]),
      ("skip_jump", [.required "label" (.node label), .required "register" .text]),
      ("acceleration", [.required "percent" .word]),
      ("offset", [.optional "register" .text]),
      ("tool_offset", [.optional "register" .text]),
      ("other", [.required "text" .text])]
  | wait => .choice [
      ("time", [.required "seconds" .text]),
      ("condition", [.required "condition" .text, .optional "timeout_label" (.node label)])]
  | action => .choice [
      ("jump_label", [.required "label" (.node label)]),
      ("motion", [
        .required "motion_type" (.oneOf motionTypes), .required "position" .text,
        .required "speed" .text, .required "termination" .text,
        .required "options" (.nodes motionOption)]),
      ("if", [.required "condition" .text, .required "action" (.node action)]),
      ("wait", [.required "wait" (.node wait)]),
      ("mixed_logic_wait", [.required "condition" .text,
        .required "timeout_label" (.node label)]),
      ("label_definition", [.required "label" (.node label)]),
      ("call", [.required "program" .text]),
      ("assignment", [.required "text" .text]),
      ("comment", [.required "text" .text]),
      ("end", [])]
  | instruction => .record [.required "line_number" .word, .required "kind" (.node action)]
  | program => .record [.required "name" .text, .required "instructions" (.nodes instruction)]

/-- The fields that an object has to have, told by its kind where there is a choice. There are none
to tell of if the kind is missing or unknown. -/
def Node.slots? (n : Node) (fields : List (String × Json)) : Option (List Slot) :=
  match n.layout with
  | .record slots => some slots
  | .choice kinds =>
    match fields.lookup "kind" with
    | some (.string kind) => (kinds.lookup kind).map (.required "kind" .text :: ·)
    | _ => none

/-- The value looks as the schema has it. -/
inductive Conforms : Content → Json → Prop
  | text (s : String) : Conforms .text (.string s)
  | word {n : Nat} (h : n < 0x100000000) : Conforms .word (.integer n)
  | oneOf {names : List String} {name : String} (h : name ∈ names) :
    Conforms (.oneOf names) (.string name)
  /-- A name may also be the only one of an object that holds nothing. -/
  | oneOfAlone {names : List String} {name : String} {v : Json} (h : name ∈ names)
    (hv : v = .null ∨ v = .object []) : Conforms (.oneOf names) (.object [(name, v)])
  | node {n : Node} {fields : List (String × Json)} {slots : List Slot}
    (hslots : n.slots? fields = some slots)
    (present : ∀ s ∈ slots, s.nullable = false → s.name ∈ fields.map Prod.fst)
    (each : ∀ s ∈ slots, ∀ v, (s.name, v) ∈ fields → ¬(s.nullable = true ∧ v = .null) →
      Conforms s.content v) :
    Conforms (.node n) (.object fields)
  | nodes {n : Node} {items : List Json} (each : ∀ item ∈ items, Conforms (.node n) item) :
    Conforms (.nodes n) (.array items)

/-- A value arranged by the schema, as far as it conforms. -/
def Content.arrange (c : Content) (j : Json) : Json :=
  match c, j with
  | .node n, .object fields =>
    match n.slots? fields with
    | some slots =>
      .object (slots.map fun s =>
        (s.name, ((fields.lookup s.name).attach.map fun v => s.content.arrange v.1).getD .null))
    | none => .object fields
  | .nodes n, .array items => .array (items.map fun item => (Content.node n).arrange item)
  | .oneOf _, .object [(name, .null)] => .string name
  | .oneOf _, .object [(name, .object [])] => .string name
  | _, j => j
termination_by sizeOf j
decreasing_by
  · have hsize := sizeOf_lt_of_lookup v.2
    rw [object.sizeOf_spec]
    omega
  · decreasing_tactic

/-- What a field is arranged to be. -/
def Slot.value (s : Slot) (fields : List (String × Json)) : Json :=
  ((fields.lookup s.name).map s.content.arrange).getD .null

/-- A field is there unless it is nullable, and holds what it should unless it holds `null`. -/
def Slot.Holds (s : Slot) (fields : List (String × Json)) : Prop :=
  (s.nullable = false → s.name ∈ fields.map Prod.fst) ∧
    ∀ v, (s.name, v) ∈ fields → ¬(s.nullable = true ∧ v = .null) → Conforms s.content v

namespace Content

@[simp] theorem arrange_text (j : Json) : text.arrange j = j := by
  simp [arrange]

@[simp] theorem arrange_word (j : Json) : word.arrange j = j := by
  simp [arrange]

theorem arrange_nodes (n : Node) (items : List Json) :
    (nodes n).arrange (.array items) = .array (items.map (node n).arrange) := by
  simp [arrange]

theorem arrange_node {n : Node} {fields : List (String × Json)} {slots : List Slot}
    (h : n.slots? fields = some slots) : (node n).arrange (.object fields) =
      .object (slots.map fun s => (s.name, s.value fields)) := by
  rw [arrange]
  simp only [h, Slot.value, Option.attach_map_val]

theorem arrange_untold {n : Node} {fields : List (String × Json)} (h : n.slots? fields = none) :
    (node n).arrange (.object fields) = .object fields := by
  rw [arrange, h]

theorem eq_null_of_arrange {c : Content} {j : Json} (h : c.arrange j = .null) : j = .null := by
  revert h
  fun_cases arrange c j
  case case6 => exact id
  all_goals
    intro h
    contradiction

end Content

def Layout.IsDistinct : Layout → Prop
  | .record slots => (slots.map Slot.name).Nodup
  | .choice kinds => ∀ kind ∈ kinds, ("kind" :: kind.2.map Slot.name).Nodup

theorem Node.layout_isDistinct (n : Node) : n.layout.IsDistinct := by
  cases n <;> simp [layout, Layout.IsDistinct, Slot.required, Slot.optional]

variable {n : Node} {fields : List (String × Json)} {slots : List Slot}

theorem slots?_choice {kinds : List (String × List Slot)} (hlayout : n.layout = .choice kinds)
    (h : n.slots? fields = some slots) : ∃ kind rest, fields.lookup "kind" = some (.string kind) ∧
      kinds.lookup kind = some rest ∧ slots = .required "kind" .text :: rest := by
  simp only [Node.slots?, hlayout] at h
  split at h
  · rename_i kind hkind
    obtain ⟨rest, hrest, rfl⟩ := Option.map_eq_some_iff.mp h
    exact ⟨kind, rest, hkind, hrest, rfl⟩
  · contradiction

theorem slots_distinct (h : n.slots? fields = some slots) : (slots.map Slot.name).Nodup := by
  have hdistinct := n.layout_isDistinct
  cases hlayout : n.layout with
  | record slots' =>
    simp only [Node.slots?, hlayout] at h
    cases h
    rwa [hlayout] at hdistinct
  | choice kinds =>
    obtain ⟨kind, rest, -, hrest, rfl⟩ := slots?_choice hlayout h
    rw [hlayout] at hdistinct
    obtain ⟨front, back, rfl, -⟩ := List.lookup_eq_some_iff.mp hrest
    exact hdistinct (kind, rest) (by simp)

/-- Arranged fields are told the same slots: their kind is the same. -/
theorem slots?_arranged (h : n.slots? fields = some slots) :
    n.slots? (slots.map fun s => (s.name, s.value fields)) = some slots := by
  cases hlayout : n.layout with
  | record slots' =>
    simp only [Node.slots?, hlayout] at h ⊢
    exact h
  | choice kinds =>
    obtain ⟨kind, rest, hkind, hrest, rfl⟩ := slots?_choice hlayout h
    have hvalue : (Slot.required "kind" .text).value fields = .string kind := by
      simp [Slot.value, Slot.required, hkind]
    have hlookup : ((Slot.required "kind" .text :: rest).map fun s =>
        (s.name, s.value fields)).lookup "kind" = some (.string kind) := by
      rw [List.map_cons, hvalue]
      simp [Slot.required]
    simp only [Node.slots?, hlayout, hlookup, hrest, Option.map_some]

theorem conforms_node_iff (hslots : n.slots? fields = some slots) :
    Conforms (.node n) (.object fields) ↔ ∀ s ∈ slots, s.Holds fields := by
  constructor
  · intro h
    cases h with
    | node hslots' present each =>
      rw [hslots] at hslots'
      cases hslots'
      exact fun s hs => ⟨present s hs, each s hs⟩
  · intro h
    exact .node hslots (fun s hs => (h s hs).1) fun s hs => (h s hs).2

theorem not_conforms_null (c : Content) : ¬Conforms c .null := by
  intro h
  cases h

theorem value_of_mem (distinct : (fields.map Prod.fst).Nodup) {s : Slot} {v : Json}
    (h : (s.name, v) ∈ fields) : s.value fields = s.content.arrange v := by
  rw [Slot.value, (lookup_eq_some_iff distinct).mpr h]
  rfl

theorem value_of_not_mem {s : Slot} (h : s.name ∉ fields.map Prod.fst) :
    s.value fields = .null := by
  rw [Slot.value, lookup_eq_none.mpr h]
  rfl

theorem holds_of_mem (distinct : (fields.map Prod.fst).Nodup) {s : Slot} {v : Json}
    (hv : (s.name, v) ∈ fields) (h : ¬(s.nullable = true ∧ v = .null) → Conforms s.content v) :
    s.Holds fields := by
  refine ⟨fun _ => List.mem_map_of_mem hv, fun w hw hnot => ?_⟩
  have hlookup := (lookup_eq_some_iff distinct).mpr hv
  rw [(lookup_eq_some_iff distinct).mpr hw] at hlookup
  cases hlookup
  exact h hnot

/-- Arranging makes no value conform that does not. -/
theorem conforms_of_arrange {c : Content} {j : Json} (hj : j.IsValue)
    (h : Conforms c (c.arrange j)) : Conforms c j := by
  induction c, j using Content.arrange.induct with
  | case1 n fields slots hslots ih =>
    rw [Content.arrange_node hslots, conforms_node_iff (slots?_arranged hslots)] at h
    refine (conforms_node_iff hslots).mpr fun s hs => ?_
    have harranged : (s.name, s.value fields) ∈ slots.map fun s => (s.name, s.value fields) :=
      List.mem_map_of_mem hs
    have hvalue := (h s hs).2 _ harranged
    constructor
    · intro hrequired
      -- a field that is missing is null once arranged, which its content does not allow
      apply Classical.byContradiction
      intro hmissing
      rw [value_of_not_mem hmissing, hrequired] at hvalue
      exact not_conforms_null _ (hvalue (by simp))
    · intro v hv hnull
      rw [value_of_mem hj.distinct hv] at hvalue
      have hlookup : fields.lookup s.name = some v := (lookup_eq_some_iff hj.distinct).mpr hv
      refine ih s ⟨v, hlookup⟩ (hj.of_mem hv) (hvalue fun hboth => ?_)
      exact hnull ⟨hboth.1, Content.eq_null_of_arrange hboth.2⟩
  | case2 n fields hslots => rwa [Content.arrange_untold hslots] at h
  | case3 n items ih =>
    rw [Content.arrange_nodes] at h
    cases h with
    | nodes each =>
      refine .nodes fun item hitem => ?_
      exact ih item hitem (isValue_array.mp hj item hitem) (each _ (List.mem_map_of_mem hitem))
  | case4 names name =>
    simp only [Content.arrange] at h
    cases h with
    | oneOf hname => exact .oneOfAlone hname (Or.inl rfl)
  | case5 names name =>
    simp only [Content.arrange] at h
    cases h with
    | oneOf hname => exact .oneOfAlone hname (Or.inr rfl)
  | case6 c j => rwa [Content.arrange] at h <;> assumption

theorem isValue_arrange {j : Json} (hj : j.IsValue) (c : Content) : (c.arrange j).IsValue := by
  induction c, j using Content.arrange.induct with
  | case1 n fields slots hslots ih =>
    rw [Content.arrange_node hslots, isValue_object]
    constructor
    · rw [List.map_map]
      exact slots_distinct hslots
    · intro field hfield
      obtain ⟨s, -, rfl⟩ := List.mem_map.mp hfield
      cases hlookup : fields.lookup s.name with
      | none =>
        rw [Slot.value, hlookup]
        exact .null
      | some v =>
        rw [Slot.value, hlookup]
        exact ih s ⟨v, hlookup⟩ (hj.of_mem (mem_of_lookup hlookup))
  | case2 n fields hslots => rwa [Content.arrange_untold hslots]
  | case3 n items ih =>
    rw [Content.arrange_nodes, isValue_array]
    intro other hother
    obtain ⟨item, hitem, rfl⟩ := List.mem_map.mp hother
    exact ih item hitem (isValue_array.mp hj item hitem)
  | case4 names name => simp [Content.arrange]
  | case5 names name => simp [Content.arrange]
  | case6 c j => rwa [Content.arrange] <;> assumption

section Same

variable {others : List (String × Json)}

theorem slots?_same (hothers : (others.map Prod.fst).Nodup)
    (hsame : Same (.object fields) (.object others)) (h : n.slots? fields = some slots) :
    n.slots? others = some slots := by
  cases hlayout : n.layout with
  | record slots' =>
    simp only [Node.slots?, hlayout] at h ⊢
    exact h
  | choice kinds =>
    obtain ⟨kind, rest, hkind, hrest, rfl⟩ := slots?_choice hlayout h
    obtain ⟨w, hw, hsame⟩ := hsame.exists_field (mem_of_lookup hkind)
    cases hsame
    have hlookup : others.lookup "kind" = some (.string kind) :=
      (lookup_eq_some_iff hothers).mpr hw
    simp only [Node.slots?, hlayout, hlookup, hrest, Option.map_some]

theorem slot_same (hj : IsValue (.object fields)) (hk : IsValue (.object others))
    (hsame : Same (.object fields) (.object others)) {s : Slot}
    (present : s.nullable = false → s.name ∈ fields.map Prod.fst)
    (each : ∀ v w, (s.name, v) ∈ fields → (s.name, w) ∈ others → Same v w →
      ¬(s.nullable = true ∧ v = .null) →
      Conforms s.content w ∧ s.content.arrange w = s.content.arrange v) :
    s.Holds others ∧ s.value others = s.value fields := by
  by_cases hname : s.name ∈ fields.map Prod.fst
  · obtain ⟨⟨other, v⟩, hv, hfield⟩ := List.mem_map.mp hname
    change other = s.name at hfield
    subst hfield
    obtain ⟨w, hw, hvw⟩ := hsame.exists_field hv
    rw [value_of_mem hk.distinct hw, value_of_mem hj.distinct hv]
    -- null stands for a field without a value, and only null is the same as null
    by_cases hnull : s.nullable = true ∧ v = .null
    · have hw' : w = .null := by
        rw [hnull.2] at hvw
        exact hvw.eq_null
      rw [hw', hnull.2]
      exact ⟨holds_of_mem hk.distinct hw fun hnot => absurd ⟨hnull.1, hw'⟩ hnot, rfl⟩
    · obtain ⟨hconforms, harrange⟩ := each v w hv hw hvw hnull
      exact ⟨holds_of_mem hk.distinct hw fun _ => hconforms, harrange⟩
  -- what the one has not, the other has not
  · have hother : s.name ∉ others.map Prod.fst := by
      intro hmem
      obtain ⟨⟨other, w⟩, hw, hfield⟩ := List.mem_map.mp hmem
      obtain ⟨v, hv, -⟩ := hsame.symm.exists_field hw
      exact hname (List.mem_map.mpr ⟨(other, v), hv, hfield⟩)
    rw [value_of_not_mem hname, value_of_not_mem hother]
    refine ⟨⟨fun hrequired => absurd (present hrequired) hname, fun w hw => ?_⟩, rfl⟩
    exact absurd (List.mem_map_of_mem hw) hother

theorem conforms_same {c : Content} {j k : Json} (h : Conforms c j) (hj : j.IsValue)
    (hk : k.IsValue) (hsame : Same j k) : Conforms c k ∧ c.arrange k = c.arrange j := by
  induction h generalizing k with
  | text s =>
    cases hsame
    exact ⟨.text s, rfl⟩
  | word hn =>
    cases hsame
    exact ⟨.word hn, rfl⟩
  | oneOf hname =>
    cases hsame
    exact ⟨.oneOf hname, rfl⟩
  | @oneOfAlone names name v hname hv =>
    obtain ⟨w, rfl, hw⟩ := hsame.single hk
    obtain rfl : w = v := by
      rcases hv with rfl | rfl
      · exact hw.eq_null
      · exact hw.eq_empty
    exact ⟨.oneOfAlone hname hv, rfl⟩
  | @node n fields slots hslots present each ih =>
    obtain ⟨others, rfl⟩ := hsame.exists_object
    have hslots' := slots?_same hk.distinct hsame hslots
    have hslot : ∀ s ∈ slots, s.Holds others ∧ s.value others = s.value fields :=
      fun s hs => slot_same hj hk hsame (present s hs) fun v w hv hw hvw hnull =>
        ih s hs v hv hnull (hj.of_mem hv) (hk.of_mem hw) hvw
    refine ⟨(conforms_node_iff hslots').mpr fun s hs => (hslot s hs).1, ?_⟩
    rw [Content.arrange_node hslots', Content.arrange_node hslots]
    congr 1
    apply List.map_congr_left
    intro s hs
    rw [(hslot s hs).2]
  | @nodes n items each ih =>
    cases hsame with
    | @array _ others length same =>
      have hitem : ∀ (i : Nat) (hi : i < items.length) (hi' : i < others.length),
          Conforms (.node n) others[i] ∧
            (Content.node n).arrange others[i] = (Content.node n).arrange items[i] := by
        intro i hi hi'
        have hsame : Same items[i] others[i] := by
          apply same i <;> simp
        exact ih _ (List.getElem_mem hi) (isValue_array.mp hj _ (List.getElem_mem hi))
          (isValue_array.mp hk _ (List.getElem_mem hi')) hsame
      constructor
      · refine .nodes fun other hother => ?_
        obtain ⟨i, hi, rfl⟩ := List.getElem_of_mem hother
        exact (hitem i (length ▸ hi) hi).1
      · rw [Content.arrange_nodes, Content.arrange_nodes]
        congr 1
        apply List.ext_getElem (by simp [length])
        intro i hi hi'
        simp only [List.length_map] at hi hi'
        simpa using (hitem i hi' hi).2

end Same

end KarelKit.Pendant
