import KarelKit.Proofs.Pendant.Agreement

namespace KarelKit.Pendant

open Json

theorem MotionType.ofName?_eq_some_iff {name : String} {t : MotionType} :
    ofName? name = some t ↔ name = t.name := by
  constructor
  · intro h
    unfold ofName? at h
    split at h <;> cases h <;> rfl
  · rintro rfl
    exact ofName?_name t

theorem MotionType.name_mem (t : MotionType) : t.name ∈ motionTypes := by
  cases t <;> decide

theorem MotionType.exists_of_mem {name : String} (h : name ∈ motionTypes) :
    ∃ t, ofName? name = some t := by
  simp only [motionTypes, List.mem_cons, List.not_mem_nil, or_false] at h
  rcases h with rfl | rfl | rfl | rfl
  · exact ⟨joint, rfl⟩
  · exact ⟨linear, rfl⟩
  · exact ⟨circular, rfl⟩
  · exact ⟨circularArc, rfl⟩

theorem agrees_motionType (j : Json) : Agrees (.oneOf motionTypes) (fun _ => True)
    (fun t : MotionType => .string t.name) j (MotionType.ofJson? j) where
  sound := by
    intro t h
    unfold MotionType.ofJson? at h
    split at h
    · rw [MotionType.ofName?_eq_some_iff] at h
      subst h
      exact ⟨trivial, .oneOf t.name_mem, by simp [Content.arrange]⟩
    · rw [MotionType.ofName?_eq_some_iff] at h
      subst h
      exact ⟨trivial, .oneOfAlone t.name_mem (Or.inl rfl), by simp [Content.arrange]⟩
    · rw [MotionType.ofName?_eq_some_iff] at h
      subst h
      exact ⟨trivial, .oneOfAlone t.name_mem (Or.inr rfl), by simp [Content.arrange]⟩
    · contradiction
  complete := by
    intro h
    cases h with
    | oneOf hname => exact MotionType.exists_of_mem hname
    | oneOfAlone hname hv =>
      rcases hv with rfl | rfl
      · exact MotionType.exists_of_mem hname
      · exact MotionType.exists_of_mem hname

theorem agrees_position {j : Json} (hj : j.IsValue) :
    Agrees (.node .position) Position.Fits Position.toJson j (Position.ofJson? j) := by
  simp only [Position.ofJson?, Option.bind_eq_bind, Option.pure_def]
  apply agrees_node hj
  intro fields hfields
  refine agrees_record rfl ?_
  refine .required hfields (fun v _ => agrees_word v) fun line hline => ?_
  refine .required hfields (fun v _ => agrees_word v) fun column hcolumn => ?_
  exact .last ⟨hline, hcolumn⟩ rfl

theorem agrees_range {j : Json} (hj : j.IsValue) :
    Agrees (.node .range) Range.Fits Range.toJson j (Range.ofJson? j) := by
  simp only [Range.ofJson?, Option.bind_eq_bind, Option.pure_def]
  apply agrees_node hj
  intro fields hfields
  refine agrees_record rfl ?_
  refine .required hfields (fun v hv => agrees_position (hfields.of_mem hv)) fun start hstart => ?_
  refine .required hfields (fun v hv => agrees_position (hfields.of_mem hv)) fun stop hstop => ?_
  exact .last ⟨hstart, hstop⟩ rfl

theorem agrees_labelNumber {j : Json} (hj : j.IsValue) :
    Agrees (.node .labelNumber) LabelNumber.Fits LabelNumber.toJson j (LabelNumber.ofJson? j) := by
  simp only [LabelNumber.ofJson?, Option.bind_eq_bind, Option.pure_def]
  apply agrees_node hj
  intro fields hfields
  refine agrees_choice rfl hfields ?_ fun kind hkind => ?_
  · simp only [List.forall_mem_cons, List.not_mem_nil, false_imp_iff, implies_true, and_true]
    refine ⟨?direct, ?indirect⟩
    case direct =>
      refine .required hfields (fun v _ => agrees_word v) fun number hnumber => ?_
      refine .optional hfields (fun v _ => agrees_text v) fun comment _ => ?_
      exact .last hnumber rfl
    case indirect =>
      refine .required hfields (fun v _ => agrees_word v) fun register hregister => ?_
      exact .last hregister rfl
  · split <;> first | rfl | contradiction

theorem agrees_label {j : Json} (hj : j.IsValue) :
    Agrees (.node .label) Label.Fits Label.toJson j (Label.ofJson? j) := by
  simp only [Label.ofJson?, Option.bind_eq_bind, Option.pure_def]
  apply agrees_node hj
  intro fields hfields
  refine agrees_record rfl ?_
  refine .required hfields (fun v hv => agrees_labelNumber (hfields.of_mem hv)) fun number hn => ?_
  refine .required hfields (fun v hv => agrees_range (hfields.of_mem hv)) fun range hrange => ?_
  exact .last ⟨hn, hrange⟩ rfl

theorem agrees_motionOption {j : Json} (hj : j.IsValue) :
    Agrees (.node .motionOption) MotionOption.Fits MotionOption.toJson j
      (MotionOption.ofJson? j) := by
  simp only [MotionOption.ofJson?, Option.bind_eq_bind, Option.pure_def]
  apply agrees_node hj
  intro fields hfields
  have hlabel : ∀ v, ("label", v) ∈ fields →
      Agrees (.node .label) Label.Fits Label.toJson v (Label.ofJson? v) :=
    fun v hv => agrees_label (hfields.of_mem hv)
  refine agrees_choice rfl hfields ?_ fun kind hkind => ?_
  · simp only [List.forall_mem_cons, List.not_mem_nil, false_imp_iff, implies_true, and_true]
    refine ⟨?skip, ?skipJump, ?acceleration, ?offset, ?toolOffset, ?other⟩
    case skip => exact .required hfields hlabel fun label hl => .last hl rfl
    case skipJump =>
      refine .required hfields hlabel fun label hl => ?_
      exact .required hfields (fun v _ => agrees_text v) fun register _ => .last hl rfl
    case acceleration =>
      exact .required hfields (fun v _ => agrees_word v) fun percent hpercent =>
        .last hpercent rfl
    case offset =>
      exact .optional hfields (fun v _ => agrees_text v) fun register _ => .last trivial rfl
    case toolOffset =>
      exact .optional hfields (fun v _ => agrees_text v) fun register _ => .last trivial rfl
    case other =>
      exact .required hfields (fun v _ => agrees_text v) fun text _ => .last trivial rfl
  · split <;> first | rfl | contradiction

theorem agrees_wait {j : Json} (hj : j.IsValue) :
    Agrees (.node .wait) Wait.Fits Wait.toJson j (Wait.ofJson? j) := by
  simp only [Wait.ofJson?, Option.bind_eq_bind, Option.pure_def]
  apply agrees_node hj
  intro fields hfields
  refine agrees_choice rfl hfields ?_ fun kind hkind => ?_
  · simp only [List.forall_mem_cons, List.not_mem_nil, false_imp_iff, implies_true, and_true]
    refine ⟨?time, ?condition⟩
    case time =>
      exact .required hfields (fun v _ => agrees_text v) fun seconds _ => .last trivial rfl
    case condition =>
      refine .required hfields (fun v _ => agrees_text v) fun condition _ => ?_
      refine .optional hfields (fun v hv => agrees_label (hfields.of_mem hv)) fun label hlabel => ?_
      exact .last hlabel rfl
  · split <;> first | rfl | contradiction

theorem agrees_action {j : Json} (hj : j.IsValue) :
    Agrees (.node .action) Action.Fits Action.toJson j (Action.ofJson? j) := by
  induction hj with
  | @object fields distinct each ih =>
    have hfields : IsValue (.object fields) := .object distinct each
    have hlabel : ∀ name v, (name, v) ∈ fields →
        Agrees (.node .label) Label.Fits Label.toJson v (Label.ofJson? v) :=
      fun name v hv => agrees_label (hfields.of_mem hv)
    rw [Action.ofJson?, if_pos hfields.hasValue]
    simp only [Motion.ofJson?, Option.bind_eq_bind, Option.pure_def, Option.bind_assoc,
      Option.bind_some]
    refine agrees_choice rfl hfields ?_ fun kind hkind => ?_
    · simp only [List.forall_mem_cons, List.not_mem_nil, false_imp_iff, implies_true, and_true]
      refine ⟨?jump, ?motion, ?conditional, ?wait, ?mixedLogicWait, ?defineLabel, ?call,
        ?assignment, ?comment, ?stop⟩
      case jump => exact .required hfields (hlabel _) fun label hl => .last hl rfl
      case motion =>
        refine .required hfields (fun v _ => agrees_motionType v) fun motionType _ => ?_
        refine .required hfields (fun v _ => agrees_text v) fun position _ => ?_
        refine .required hfields (fun v _ => agrees_text v) fun speed _ => ?_
        refine .required hfields (fun v _ => agrees_text v) fun termination _ => ?_
        refine .list hfields (fun v hv => agrees_motionOption hv) fun options hoptions => ?_
        exact .last hoptions rfl
      case conditional =>
        refine .required hfields (fun v _ => agrees_text v) fun condition _ => ?_
        have haction : Reads fields [.required "action" (.node .action)]
            [("kind", .string "if"), ("condition", .string condition)] Action.Fits Action.toJson
            (((object fields).field? "action").bind fun v =>
              (Action.ofJson? v).bind fun a => some (.conditional condition a)) :=
          .required hfields (fun v hv => ih _ hv) fun action ha => .last ha rfl
        -- The action is read by recursion, under a case for the field.
        split
        · rename_i hnone
          rwa [hnone] at haction
        · rename_i v hv
          rwa [hv] at haction
      case wait =>
        exact .required hfields (fun v hv => agrees_wait (hfields.of_mem hv)) fun w hw =>
          .last hw rfl
      case mixedLogicWait =>
        refine .required hfields (fun v _ => agrees_text v) fun condition _ => ?_
        exact .required hfields (hlabel _) fun label hl => .last hl rfl
      case defineLabel => exact .required hfields (hlabel _) fun label hl => .last hl rfl
      case call =>
        exact .required hfields (fun v _ => agrees_text v) fun program _ => .last trivial rfl
      case assignment =>
        exact .required hfields (fun v _ => agrees_text v) fun text _ => .last trivial rfl
      case comment =>
        exact .required hfields (fun v _ => agrees_text v) fun text _ => .last trivial rfl
      case stop => exact .last trivial rfl
    · split <;> first | rfl | contradiction
  | _ =>
    rw [Action.ofJson?]
    split <;> exact ⟨fun a ha => by contradiction, fun hconforms => by contradiction⟩

theorem agrees_instruction {j : Json} (hj : j.IsValue) :
    Agrees (.node .instruction) Instruction.Fits Instruction.toJson j
      (Instruction.ofJson? j) := by
  simp only [Instruction.ofJson?, Option.bind_eq_bind, Option.pure_def]
  apply agrees_node hj
  intro fields hfields
  refine agrees_record rfl ?_
  refine .required hfields (fun v _ => agrees_word v) fun lineNumber hlineNumber => ?_
  refine .required hfields (fun v hv => agrees_action (hfields.of_mem hv)) fun action haction => ?_
  exact .last ⟨hlineNumber, haction⟩ rfl

theorem agrees_program {j : Json} (hj : j.IsValue) :
    Agrees (.node .program) Program.Fits Program.toJson j (Program.ofJson? j) := by
  simp only [Program.ofJson?, Option.bind_eq_bind, Option.pure_def]
  apply agrees_node hj
  intro fields hfields
  refine agrees_record rfl ?_
  refine .required hfields (fun v _ => agrees_text v) fun name _ => ?_
  refine .list hfields (fun v hv => agrees_instruction hv) fun instructions hinstructions => ?_
  exact .last hinstructions rfl

theorem ofJson?_arrange {j : Json} (hj : j.IsValue) :
    Program.ofJson? ((Content.node .program).arrange j) = Program.ofJson? j := by
  cases h : Program.ofJson? j with
  | some p =>
    obtain ⟨hfits, -, harrange⟩ := (agrees_program hj).sound p h
    rw [harrange]
    exact Program.ofJson?_toJson hfits
  | none =>
    cases harranged : Program.ofJson? ((Content.node .program).arrange j) with
    | none => rfl
    | some p =>
      obtain ⟨-, hconforms, -⟩ := (agrees_program (isValue_arrange hj _)).sound p harranged
      obtain ⟨q, hq⟩ := (agrees_program hj).complete (conforms_of_arrange hj hconforms)
      rw [h] at hq
      contradiction

theorem ofJson?_same {j k : Json} (hj : j.IsValue) (hk : k.IsValue) (h : Same j k) {p : Program}
    (hp : Program.ofJson? j = some p) : Program.ofJson? k = some p := by
  obtain ⟨-, hconforms, -⟩ := (agrees_program hj).sound p hp
  obtain ⟨-, harrange⟩ := conforms_same hconforms hj hk h
  rw [← ofJson?_arrange hk, harrange, ofJson?_arrange hj, hp]

/-- A program is read back exactly if its numbers have 32 bits. -/
theorem ofJson?_toJson_iff (p : Program) : Program.ofJson? p.toJson = some p ↔ p.Fits := by
  constructor
  · intro h
    exact ((agrees_program (isValue_program p)).sound p h).1
  · exact Program.ofJson?_toJson

/-- Exactly the values that conform to the schema are read, and written as they are arranged by it.
Fields outside of the schema, nullable fields that are missing, and the order of the fields make no
difference. -/
theorem decoding_follows_schema {j : Json} (hj : j.IsValue) :
    ((∃ p, Program.ofJson? j = some p) ↔ Conforms (.node .program) j) ∧
    (∀ p, Program.ofJson? j = some p → p.toJson = (Content.node .program).arrange j) ∧
    ∀ other : Json, other.IsValue →
      (Content.node .program).arrange other = (Content.node .program).arrange j ∨ Same other j →
      Program.ofJson? other = Program.ofJson? j := by
  refine ⟨⟨?_, (agrees_program hj).complete⟩, ?_, ?_⟩
  · rintro ⟨p, hp⟩
    exact ((agrees_program hj).sound p hp).2.1
  · intro p hp
    exact ((agrees_program hj).sound p hp).2.2.symm
  · rintro other hother (harrange | hsame)
    · rw [← ofJson?_arrange hother, harrange, ofJson?_arrange hj]
    · exact Option.ext fun p => ⟨ofJson?_same hother hj hsame, ofJson?_same hj hother hsame.symm⟩

/-- A label without a comment, with a note that nobody knows, and kinds that come last. -/
def unordered : Json :=
  .object [("instructions", .array [.object [
      ("kind", .object [
        ("label", .object [
          ("range", Range.toJson ⟨⟨1, 5⟩, ⟨1, 11⟩⟩),
          ("number", .object [("number", .integer 7), ("kind", .string "direct")]),
          ("note", .array [.null])]),
        ("kind", .string "label_definition")]),
      ("line_number", .integer 1)]]),
    ("name", .string "MAIN")]

theorem decoding_unordered : unordered.IsValue ∧ Conforms (.node .program) unordered ∧
    (Content.node .program).arrange unordered = (Program.mk "MAIN"
      [⟨1, .defineLabel ⟨.direct 7 none, ⟨⟨1, 5⟩, ⟨1, 11⟩⟩⟩⟩]).toJson := by
  have hvalue : unordered.IsValue := by
    simp [unordered]
  have harrange : (Content.node .program).arrange unordered = (Program.mk "MAIN"
      [⟨1, .defineLabel ⟨.direct 7 none, ⟨⟨1, 5⟩, ⟨1, 11⟩⟩⟩⟩]).toJson := by
    simp [unordered, Content.arrange, Node.slots?, Node.layout, Slot.required, Slot.optional,
      Program.toJson, Instruction.toJson, Action.toJson, Label.toJson, LabelNumber.toJson,
      Range.toJson, Position.toJson, ofOption, List.lookup_cons]
  have hread : Program.ofJson? unordered = some ⟨"MAIN",
      [⟨1, .defineLabel ⟨.direct 7 none, ⟨⟨1, 5⟩, ⟨1, 11⟩⟩⟩⟩]⟩ := by
    rw [← ofJson?_arrange hvalue, harrange]
    apply Program.ofJson?_toJson
    simp [Program.Fits, Instruction.Fits, Action.Fits, Label.Fits, LabelNumber.Fits, Range.Fits,
      Position.Fits]
  have h := decoding_follows_schema hvalue
  exact ⟨hvalue, h.1.mp ⟨_, hread⟩, (h.2.1 _ hread).symm⟩

end KarelKit.Pendant
