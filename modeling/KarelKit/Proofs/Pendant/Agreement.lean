import KarelKit.Proofs.Pendant.RoundTrip
import KarelKit.Proofs.Pendant.Schema

namespace KarelKit.Pendant

open Json

variable {α β : Type} {fits : α → Prop} {write : α → Json} {read : Json → Option α}

/-- What is read of a value agrees with the schema: it is there if the value conforms, and only
then, its numbers have 32 bits, and it is written as the value arranged. -/
structure Agrees (c : Content) (fits : α → Prop) (write : α → Json) (j : Json) (r : Option α) :
    Prop where
  sound : ∀ a, r = some a → fits a ∧ Conforms c j ∧ c.arrange j = write a
  complete : Conforms c j → ∃ a, r = some a

/-- The same for one field of an object. -/
structure Fills (fields : List (String × Json)) (s : Slot) (fits : α → Prop) (write : α → Json)
    (r : Option α) : Prop where
  sound : ∀ a, r = some a → fits a ∧ s.Holds fields ∧ s.value fields = write a
  complete : s.Holds fields → ∃ a, r = some a

/-- The same for some fields of an object, which are written behind those in `front`. -/
structure Reads (fields : List (String × Json)) (slots : List Slot) (front : List (String × Json))
    (fits : α → Prop) (write : α → Json) (r : Option α) : Prop where
  sound : ∀ a, r = some a → fits a ∧ (∀ s ∈ slots, s.Holds fields) ∧
    write a = .object (front ++ slots.map (fun s => (s.name, s.value fields)))
  complete : (∀ s ∈ slots, s.Holds fields) → ∃ a, r = some a

theorem string?_eq_some_iff {j : Json} {text : String} :
    j.string? = some text ↔ j = .string text := by
  cases j <;> simp [string?]

theorem agrees_text (j : Json) : Agrees .text (fun _ => True) .string j j.string? where
  sound := by
    intro a h
    rw [string?_eq_some_iff] at h
    subst h
    exact ⟨trivial, .text a, Content.arrange_text _⟩
  complete := by
    intro h
    cases h with
    | text s => exact ⟨s, rfl⟩

theorem agrees_word (j : Json) :
    Agrees .word (· < 0x100000000) (fun n : Nat => .integer n) j j.word? where
  sound := by
    intro n h
    unfold word? at h
    split at h
    · rename_i m
      split at h
      · rename_i hm
        cases h
        exact ⟨hm, .word hm, Content.arrange_word _⟩
      · contradiction
    · contradiction
  complete := by
    intro h
    cases h with
    | @word n hn => exact ⟨n, word?_natural hn⟩

variable {fields : List (String × Json)} {slots : List Slot} {name : String} {c : Content}

theorem fills_required (hfields : IsValue (.object fields))
    (hread : ∀ v, (name, v) ∈ fields → Agrees c fits write v (read v)) :
    Fills fields (.required name c) fits write (((Json.object fields).field? name).bind read) := by
  rw [field?_object hfields.distinct]
  constructor
  · intro a h
    obtain ⟨v, hlookup, ha⟩ := Option.bind_eq_some_iff.mp h
    have hv : (name, v) ∈ fields := mem_of_lookup hlookup
    obtain ⟨hfits, hconforms, harrange⟩ := (hread v hv).sound a ha
    refine ⟨hfits, holds_of_mem hfields.distinct hv fun _ => hconforms, ?_⟩
    rw [value_of_mem hfields.distinct hv]
    exact harrange
  · intro h
    obtain ⟨⟨other, v⟩, hv, rfl⟩ := List.mem_map.mp (h.1 rfl)
    obtain ⟨a, ha⟩ := (hread v hv).complete (h.2 v hv (by simp [Slot.required]))
    rw [(lookup_eq_some_iff hfields.distinct).mpr hv]
    exact ⟨a, ha⟩

theorem nullable_eq {v : Json} (h : v ≠ .null) : v.nullable read = some <$> read v := by
  cases v with
  | null => contradiction
  | _ => rfl

theorem fills_optional (hfields : IsValue (.object fields))
    (hread : ∀ v, (name, v) ∈ fields → Agrees c fits write v (read v)) :
    Fills fields (.optional name c) (fun a => ∀ b ∈ a, fits b) (ofOption write)
      (((Json.object fields).fieldOrNull? name).bind (·.nullable read)) := by
  rw [fieldOrNull?_object hfields.distinct]
  cases hlookup : fields.lookup name with
  | none =>
    have hmissing := lookup_eq_none.mp hlookup
    refine ⟨fun a h => ?_, fun _ => ⟨none, rfl⟩⟩
    cases h
    refine ⟨by simp, ⟨by simp [Slot.optional], fun v hv => ?_⟩, value_of_not_mem hmissing⟩
    exact absurd (List.mem_map_of_mem hv) hmissing
  | some v =>
    have hv : (name, v) ∈ fields := mem_of_lookup hlookup
    have hvalue : (Slot.optional name c).value fields = c.arrange v :=
      value_of_mem hfields.distinct hv
    rw [Option.getD_some, Option.bind_some]
    -- null is read as no value, as a field that is missing
    by_cases hnull : v = .null
    · subst hnull
      refine ⟨fun a h => ?_, fun _ => ⟨none, rfl⟩⟩
      cases h
      refine ⟨by simp, holds_of_mem hfields.distinct hv fun hnot => absurd ⟨rfl, rfl⟩ hnot, ?_⟩
      rw [hvalue]
      simp [Content.arrange, ofOption]
    · rw [nullable_eq hnull]
      refine ⟨fun a h => ?_, fun h => ?_⟩
      · obtain ⟨b, hb, rfl⟩ := Option.map_eq_some_iff.mp h
        obtain ⟨hfits, hconforms, harrange⟩ := (hread v hv).sound b hb
        refine ⟨by simpa using hfits, holds_of_mem hfields.distinct hv fun _ => hconforms, ?_⟩
        rw [hvalue, harrange]
        rfl
      · obtain ⟨b, hb⟩ := (hread v hv).complete (h.2 v hv fun hboth => hnull hboth.2)
        exact ⟨some b, by rw [hb]; rfl⟩

namespace Reads

variable {front : List (String × Json)} {fitsOne : β → Prop} {writeOne : β → Json}
  {readOne : Json → Option β} {g : β → Option α}

theorem last {a : α} (hfits : fits a) (hwrite : write a = .object front) :
    Reads fields [] front fits write (some a) where
  sound := by
    intro a' h
    cases h
    exact ⟨hfits, by simp, by simpa using hwrite⟩
  complete := fun _ => ⟨a, rfl⟩

theorem bind {s : Slot} {r : Option β} (h : Fills fields s fitsOne writeOne r)
    (hrest : ∀ b, fitsOne b →
      Reads fields slots (front ++ [(s.name, writeOne b)]) fits write (g b)) :
    Reads fields (s :: slots) front fits write (r.bind g) where
  sound := by
    intro a ha
    obtain ⟨b, hb, hg⟩ := Option.bind_eq_some_iff.mp ha
    obtain ⟨hfitsOne, hholds, hvalue⟩ := h.sound b hb
    obtain ⟨hfits, hslots, hwrite⟩ := (hrest b hfitsOne).sound a hg
    refine ⟨hfits, List.forall_mem_cons.mpr ⟨hholds, hslots⟩, ?_⟩
    rw [hwrite, ← hvalue]
    simp
  complete := by
    intro hslots
    rw [List.forall_mem_cons] at hslots
    obtain ⟨b, hb⟩ := h.complete hslots.1
    obtain ⟨a, ha⟩ := (hrest b (h.sound b hb).1).complete hslots.2
    exact ⟨a, by rw [hb, Option.bind_some, ha]⟩

theorem required (hfields : IsValue (.object fields))
    (hread : ∀ v, (name, v) ∈ fields → Agrees c fitsOne writeOne v (readOne v))
    (hrest : ∀ b, fitsOne b → Reads fields slots (front ++ [(name, writeOne b)]) fits write (g b)) :
    Reads fields (.required name c :: slots) front fits write
      (((Json.object fields).field? name).bind fun v => (readOne v).bind g) := by
  rw [← Option.bind_assoc]
  exact bind (fills_required hfields hread) hrest

theorem optional (hfields : IsValue (.object fields))
    (hread : ∀ v, (name, v) ∈ fields → Agrees c fitsOne writeOne v (readOne v))
    {g : Option β → Option α} (hrest : ∀ b, (∀ x ∈ b, fitsOne x) →
      Reads fields slots (front ++ [(name, ofOption writeOne b)]) fits write (g b)) :
    Reads fields (.optional name c :: slots) front fits write
      (((Json.object fields).fieldOrNull? name).bind fun v => (v.nullable readOne).bind g) := by
  rw [← Option.bind_assoc]
  exact bind (fills_optional hfields hread) hrest

end Reads

section Lists

variable {n : Node} {items : List Json}

theorem mapM_sound (hread : ∀ item ∈ items, Agrees (.node n) fits write item (read item))
    {as : List α} (h : items.mapM read = some as) : (∀ a ∈ as, fits a) ∧
      (∀ item ∈ items, Conforms (.node n) item) ∧
      items.map (Content.node n).arrange = as.map write := by
  induction items generalizing as with
  | nil =>
    cases h
    simp
  | cons item items ih =>
    rw [List.mapM_cons] at h
    obtain ⟨a, ha, h⟩ := Option.bind_eq_some_iff.mp h
    obtain ⟨rest, hrest, h⟩ := Option.bind_eq_some_iff.mp h
    cases h
    rw [List.forall_mem_cons] at hread
    obtain ⟨hfits, hconforms, harrange⟩ := hread.1.sound a ha
    obtain ⟨hfitsRest, hconformsRest, harrangeRest⟩ := ih hread.2 hrest
    refine ⟨List.forall_mem_cons.mpr ⟨hfits, hfitsRest⟩,
      List.forall_mem_cons.mpr ⟨hconforms, hconformsRest⟩, ?_⟩
    rw [List.map_cons, List.map_cons, harrange, harrangeRest]

theorem mapM_complete (hread : ∀ item ∈ items, Agrees (.node n) fits write item (read item))
    (h : ∀ item ∈ items, Conforms (.node n) item) : ∃ as, items.mapM read = some as := by
  induction items with
  | nil => exact ⟨[], rfl⟩
  | cons item items ih =>
    rw [List.forall_mem_cons] at hread h
    obtain ⟨a, ha⟩ := hread.1.complete h.1
    obtain ⟨rest, hrest⟩ := ih hread.2 h.2
    exact ⟨a :: rest, by rw [List.mapM_cons, ha, hrest]; rfl⟩

theorem agrees_nodes {j : Json} (hj : j.IsValue)
    (hread : ∀ item : Json, item.IsValue → Agrees (.node n) fits write item (read item)) :
    Agrees (.nodes n) (∀ a ∈ ·, fits a) (fun as => .array (as.map write)) j
      (j.array?.bind fun items => items.mapM read) where
  sound := by
    intro as h
    obtain ⟨items, hitems, has⟩ := Option.bind_eq_some_iff.mp h
    cases j with
    | array others =>
      cases hitems
      obtain ⟨hfits, hconforms, harrange⟩ :=
        mapM_sound (fun item hitem => hread item (isValue_array.mp hj item hitem)) has
      exact ⟨hfits, .nodes hconforms, by rw [Content.arrange_nodes, harrange]⟩
    | _ => contradiction
  complete := by
    intro h
    cases h with
    | nodes each =>
      exact mapM_complete (fun item hitem => hread item (isValue_array.mp hj item hitem)) each

end Lists

theorem Reads.list {n : Node} {front : List (String × Json)} {fitsOne : β → Prop}
    {writeOne : β → Json} {readOne : Json → Option β} {g : List β → Option α}
    (hfields : IsValue (.object fields))
    (hread : ∀ v : Json, v.IsValue → Agrees (.node n) fitsOne writeOne v (readOne v))
    (hrest : ∀ bs, (∀ b ∈ bs, fitsOne b) →
      Reads fields slots (front ++ [(name, .array (bs.map writeOne))]) fits write (g bs)) :
    Reads fields (.required name (.nodes n) :: slots) front fits write
      (((Json.object fields).field? name).bind fun v =>
        v.array?.bind fun items => (items.mapM readOne).bind g) := by
  have h := required (c := .nodes n) hfields
    (fun v hv => agrees_nodes (hfields.of_mem hv) hread) hrest
  simp only [Option.bind_assoc] at h
  exact h

section Nodes

variable {n : Node}

/-- What is no object has no fields, and does not conform. -/
theorem agrees_node {j : Json} {g : Json → Json → Option α} (hj : j.IsValue)
    (h : ∀ fields, IsValue (.object fields) → Agrees (.node n) fits write (.object fields)
      (((object fields).field? name).bind (g (.object fields)))) :
    Agrees (.node n) fits write j ((j.field? name).bind (g j)) := by
  cases j with
  | object fields => exact h fields hj
  | _ =>
    refine ⟨fun a ha => ?_, fun hconforms => ?_⟩
    · contradiction
    · contradiction

theorem agrees_record {r : Option α} (hlayout : n.layout = .record slots)
    (h : Reads fields slots [] fits write r) : Agrees (.node n) fits write (.object fields) r := by
  have hslots : n.slots? fields = some slots := by rw [Node.slots?, hlayout]
  constructor
  · intro a ha
    obtain ⟨hfits, hholds, hwrite⟩ := h.sound a ha
    refine ⟨hfits, (conforms_node_iff hslots).mpr hholds, ?_⟩
    rw [Content.arrange_node hslots, hwrite, List.nil_append]
  · intro hconforms
    exact h.complete ((conforms_node_iff hslots).mp hconforms)

/-- The kind decides which fields are read. -/
theorem agrees_choice {kinds : List (String × List Slot)} {g : String → Option α}
    (hlayout : n.layout = .choice kinds) (hfields : IsValue (.object fields))
    (hknown : ∀ entry ∈ kinds,
      Reads fields entry.2 [("kind", .string entry.1)] fits write (g entry.1))
    (hunknown : ∀ kind, kinds.lookup kind = none → g kind = none) :
    Agrees (.node n) fits write (.object fields)
      (((object fields).field? "kind").bind fun v => v.string?.bind g) := by
  have hslots : ∀ kind rest, fields.lookup "kind" = some (.string kind) →
      kinds.lookup kind = some rest →
      n.slots? fields = some (.required "kind" .text :: rest) := by
    intro kind rest hkind hrest
    simp only [Node.slots?, hlayout, hkind, hrest, Option.map_some]
  -- the kind is a slot like the others, which is filled first
  have htext : Fills fields (.required "kind" .text) (fun _ => True) .string
      (((object fields).field? "kind").bind string?) :=
    fills_required hfields fun v _ => agrees_text v
  rw [← Option.bind_assoc]
  constructor
  · intro a h
    obtain ⟨kind, hkind, ha⟩ := Option.bind_eq_some_iff.mp h
    have hlookup : fields.lookup "kind" = some (.string kind) := by
      rw [field?_object hfields.distinct] at hkind
      obtain ⟨v, hv, hstring⟩ := Option.bind_eq_some_iff.mp hkind
      rwa [string?_eq_some_iff.mp hstring] at hv
    cases hrest : kinds.lookup kind with
    | none =>
      rw [hunknown kind hrest] at ha
      contradiction
    | some rest =>
      obtain ⟨-, hholds, hvalue⟩ := htext.sound kind hkind
      obtain ⟨hfits, hholdsRest, hwrite⟩ := (hknown _ (mem_of_lookup hrest)).sound a ha
      refine ⟨hfits, (conforms_node_iff (hslots kind rest hlookup hrest)).mpr ?_, ?_⟩
      · exact List.forall_mem_cons.mpr ⟨hholds, hholdsRest⟩
      · rw [Content.arrange_node (hslots kind rest hlookup hrest), hwrite, List.map_cons, hvalue]
        rfl
  · intro h
    cases h with
    | @node _ _ slots hslots' present each =>
      obtain ⟨kind, rest, hkind, hrest, rfl⟩ := slots?_choice hlayout hslots'
      have hholds := (conforms_node_iff hslots').mp (.node hslots' present each)
      rw [List.forall_mem_cons] at hholds
      obtain ⟨a, ha⟩ := (hknown _ (mem_of_lookup hrest)).complete hholds.2
      refine ⟨a, ?_⟩
      rw [field?_object hfields.distinct, hkind]
      exact ha

end Nodes

end KarelKit.Pendant
