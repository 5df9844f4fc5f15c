import KarelKit.Pendant.Encoding

namespace KarelKit.Pendant

/-- The first of the items that have `p`. -/
def First {α : Type} (p : α → Prop) (items : List α) (a : α) : Prop :=
  ∃ before after, items = before ++ a :: after ∧ p a ∧ ∀ b ∈ before, ¬p b

theorem First.holds {α : Type} {p : α → Prop} {items : List α} {a : α} (h : First p items a) :
    p a := by
  obtain ⟨_, _, _, ha, _⟩ := h
  exact ha

/-- An option that skips to a label. -/
inductive MotionOption.Skips : MotionOption → Label → Prop
  | skip (label : Label) : Skips (.skip label) label
  | skipJump (label : Label) (register : String) : Skips (.skipJump label register) label

inductive Action.RefersTo : Action → Label → Prop
  | jump (label : Label) : RefersTo (.jump label) label
  | skip {m : Motion} {option : MotionOption} {label : Label}
    (first : First (fun o => ∃ l, o.Skips l) m.options option) (skips : option.Skips label) :
    RefersTo (.motion m) label
  | conditionalJump (condition : String) (label : Label) :
    RefersTo (.conditional condition (.jump label)) label
  | timeout (condition : String) (label : Label) :
    RefersTo (.wait (.condition condition (some label))) label
  | mixedLogicTimeout (condition : String) (label : Label) :
    RefersTo (.mixedLogicWait condition label) label

/-- An instruction that itself defines the label of a number given directly. -/
def Instruction.Defines (number : Nat) (i : Instruction) : Prop :=
  ∃ comment range, i.action = .defineLabel ⟨.direct number comment, range⟩

theorem first_iff_find? {α : Type} {p : α → Prop} {q : α → Bool} (h : ∀ a, q a = true ↔ p a)
    {items : List α} {a : α} : First p items a ↔ items.find? q = some a := by
  rw [List.find?_eq_some_iff_append]
  constructor
  · intro hfirst
    obtain ⟨before, after, hitems, ha, hbefore⟩ := hfirst
    refine ⟨(h a).mpr ha, before, after, hitems, ?_⟩
    intro b hb
    have hnot : ¬q b = true := fun hq => hbefore b hb ((h b).mp hq)
    simpa using hnot
  · intro hfind
    obtain ⟨ha, before, after, hitems, hbefore⟩ := hfind
    refine ⟨before, after, hitems, (h a).mp ha, ?_⟩
    intro b hb hp
    have hq : q b = true := (h b).mpr hp
    have hnot := hbefore b hb
    rw [hq] at hnot
    contradiction

theorem findSome?_eq_some_iff_first {α β : Type} {f : α → Option β} {items : List α} {b : β} :
    items.findSome? f = some b ↔
      ∃ a, First (fun a => ∃ b, f a = some b) items a ∧ f a = some b := by
  rw [List.findSome?_eq_some_iff]
  constructor
  · intro hfind
    obtain ⟨before, a, after, hitems, ha, hbefore⟩ := hfind
    refine ⟨a, ⟨before, after, hitems, ⟨b, ha⟩, ?_⟩, ha⟩
    intro c hc hsome
    obtain ⟨d, hd⟩ := hsome
    rw [hbefore c hc] at hd
    contradiction
  · intro hfirst
    obtain ⟨a, ⟨before, after, hitems, -, hbefore⟩, ha⟩ := hfirst
    refine ⟨before, a, after, hitems, ha, ?_⟩
    intro c hc
    have hnone : ¬∃ d, f c = some d := hbefore c hc
    exact Option.eq_none_iff_forall_ne_some.mpr fun d hd => hnone ⟨d, hd⟩

theorem instructionAt?_eq_some_iff {p : Program} {line : Nat} {i : Instruction} :
    p.instructionAt? line = some i ↔ First (·.lineNumber = line) p.instructions i :=
  (first_iff_find? fun _ => beq_iff_eq).symm

theorem skipLabel?_eq_some_iff {option : MotionOption} {label : Label} :
    option.skipLabel? = some label ↔ option.Skips label := by
  constructor
  · intro h
    cases option with
    | skip l =>
      cases h
      exact .skip label
    | skipJump l register =>
      cases h
      exact .skipJump label register
    | _ => contradiction
  · intro h
    cases h with
    | skip => rfl
    | skipJump => rfl

theorem skip_of_motion {m : Motion} {label : Label} :
    m.options.findSome? MotionOption.skipLabel? = some label ↔
      ∃ option, First (fun o => ∃ l, o.Skips l) m.options option ∧ option.Skips label := by
  simp only [findSome?_eq_some_iff_first, skipLabel?_eq_some_iff]

/-- An action refers to at most one label, and the search finds it. -/
theorem reference?_eq_some_iff {action : Action} {label : Label} :
    action.reference? = some label ↔ action.RefersTo label := by
  constructor
  · intro h
    unfold Action.reference? at h
    split at h
    case h_1 l =>
      cases h
      exact .jump label
    case h_2 m =>
      obtain ⟨option, first, skips⟩ := skip_of_motion.mp h
      exact .skip first skips
    case h_3 condition l =>
      cases h
      exact .conditionalJump condition label
    case h_4 condition timeoutLabel =>
      cases h
      exact .timeout condition label
    case h_5 condition l =>
      cases h
      exact .mixedLogicTimeout condition label
    case h_6 => contradiction
  · intro h
    cases h with
    | skip first skips => exact skip_of_motion.mpr ⟨_, first, skips⟩
    | _ => rfl

theorem direct?_eq_some_iff {number : LabelNumber} {n : Nat} :
    number.direct? = some n ↔ ∃ comment, number = .direct n comment := by
  cases number with
  | direct m comment => simp [LabelNumber.direct?]
  | indirect register => simp [LabelNumber.direct?]

theorem defines_iff {i : Instruction} {n : Nat} :
    (i.action.definition?.any fun label => label.number.direct? == some n) = true ↔
      i.Defines n := by
  unfold Instruction.Defines
  cases i.action with
  | defineLabel label =>
    obtain ⟨number, range⟩ := label
    simp [Action.definition?, direct?_eq_some_iff]
  | _ => simp [Action.definition?]

/-- Only instructions that are definitions themselves count, and of these only those with the number
given directly. -/
theorem definition?_eq_some_iff {p : Program} {n : Nat} {definition : Label} :
    p.definition? n = some definition ↔ ∃ i comment range,
      First (·.Defines n) p.instructions i ∧ i.action = .defineLabel definition ∧
        definition = ⟨.direct n comment, range⟩ := by
  unfold Program.definition?
  -- looking among the definitions finds what looking among all instructions does
  rw [List.find?_filterMap, Option.bind_eq_some_iff]
  constructor
  · intro h
    obtain ⟨i, hfind, hdefinition⟩ := h
    have hfirst := (first_iff_find? fun i => defines_iff (i := i) (n := n)).mpr hfind
    obtain ⟨comment, range, haction⟩ := hfirst.holds
    rw [haction, Action.definition?, Option.some.injEq] at hdefinition
    refine ⟨i, comment, range, hfirst, ?_, hdefinition.symm⟩
    rw [haction, hdefinition]
  · intro h
    obtain ⟨i, comment, range, hfirst, haction, -⟩ := h
    refine ⟨i, (first_iff_find? fun _ => defines_iff).mp hfirst, ?_⟩
    rw [haction, Action.definition?]

theorem describe_direct (n : Nat) (comment : Option String) (range : Range) :
    Label.describe ⟨.direct n comment, range⟩ =
      comment.getD s!"LBL[{n}]" ++ s!" (line {range.start.line})" := by
  cases comment with
  | none =>
    have hseam : "] (line " = "]" ++ " (line " := by decide
    change "LBL[" ++ toString n ++ "] (line " ++ toString range.start.line ++ ")" =
      "LBL[" ++ toString n ++ "]" ++ (" (line " ++ toString range.start.line ++ ")")
    rw [hseam]
    simp only [String.append_assoc]
  | some comment =>
    change comment ++ " (line " ++ toString range.start.line ++ ")" =
      comment ++ (" (line " ++ toString range.start.line ++ ")")
    simp only [String.append_assoc]

/-- There is a hover exactly if the first instruction on the line refers to a label by its number
and an instruction defines that label. The hover tells of the first such definition, in plain text
and with its place. -/
theorem hover?_eq_some_iff {p : Program} {cursor : EditorPosition} {hover : Hover} :
    p.hover? cursor = some hover ↔ ∃ i label d n comment range,
      First (·.lineNumber = cursor.line + 1) p.instructions i ∧
      i.action.RefersTo label ∧ (∃ c, label.number = .direct n c) ∧
      First (·.Defines n) p.instructions d ∧
      d.action = .defineLabel ⟨.direct n comment, range⟩ ∧
      hover.text = comment.getD s!"LBL[{n}]" ++ s!" (line {range.start.line})" ∧
      hover.range = ⟨⟨range.start.line - 1, range.start.column - 1⟩,
        ⟨range.stop.line - 1, range.stop.column - 1⟩⟩ ∧
      hover.toJson = .object [
        ("contents", .object [("kind", .string "plaintext"), ("value", .string hover.text)]),
        ("range", hover.range.toJson)] := by
  unfold Program.hover?
  simp only [Option.bind_eq_bind, Option.bind_eq_some_iff, instructionAt?_eq_some_iff,
    reference?_eq_some_iff, direct?_eq_some_iff, definition?_eq_some_iff]
  constructor
  · intro h
    obtain ⟨i, hi, label, hlabel, n, hnumber, definition, ⟨d, comment, range, hd, haction, rfl⟩,
      hhover⟩ := h
    cases hhover
    exact ⟨i, label, d, n, comment, range, hi, hlabel, hnumber, hd, haction,
      describe_direct n comment range, rfl, rfl⟩
  · intro h
    obtain ⟨i, label, d, n, comment, range, hi, hlabel, hnumber, hd, haction, htext, hrange, -⟩ := h
    refine ⟨i, hi, label, hlabel, n, hnumber, _, ⟨d, comment, range, hd, haction, rfl⟩, ?_⟩
    obtain ⟨text, editorRange⟩ := hover
    simp only at htext hrange
    rw [describe_direct, htext, hrange]
    rfl

end KarelKit.Pendant
