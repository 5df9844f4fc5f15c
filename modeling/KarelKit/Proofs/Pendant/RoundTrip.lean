import KarelKit.Pendant.Encoding
import KarelKit.Proofs.Json.Fields

namespace KarelKit

namespace Json

@[simp] theorem word?_natural {n : Nat} (h : n < 0x100000000) :
    (integer (n : Int)).word? = some n := if_pos h

@[simp] theorem string?_string (s : String) : (string s).string? = some s := rfl

@[simp] theorem array?_array (items : List Json) : (array items).array? = some items := rfl

/-- What may be missing is read back, if what is there is read back and is never `null`. -/
theorem nullable_ofOption {α : Type} {read : Json → Option α} {write : α → Json} {a : Option α}
    (hnull : ∀ b, write b ≠ null) (h : ∀ b ∈ a, read (write b) = some b) :
    (ofOption write a).nullable read = some a := by
  cases a with
  | none => rfl
  | some b =>
    rw [ofOption]
    generalize hj : write b = j
    have hread : read j = some b := by rw [← hj, h b rfl]
    cases j with
    | null => exact absurd hj (hnull b)
    | _ => rw [nullable, hread] <;> simp

theorem mapM_map {α : Type} {read : Json → Option α} {write : α → Json} {items : List α}
    (h : ∀ a ∈ items, read (write a) = some a) : (items.map write).mapM read = some items := by
  induction items with
  | nil => rfl
  | cons a items ih =>
    have hrest := ih fun b hb => h b (List.mem_cons_of_mem a hb)
    rw [List.map_cons, List.mapM_cons, h a (List.mem_cons_self ..), hrest]
    rfl

end Json

open Json

def Position.Fits (p : Position) : Prop := p.line < 0x100000000 ∧ p.column < 0x100000000

def Range.Fits (r : Range) : Prop := r.start.Fits ∧ r.stop.Fits

namespace Pendant

def LabelNumber.Fits : LabelNumber → Prop
  | direct number _ => number < 0x100000000
  | indirect register => register < 0x100000000

def Label.Fits (l : Label) : Prop := l.number.Fits ∧ l.range.Fits

def MotionOption.Fits : MotionOption → Prop
  | skip label => label.Fits
  | skipJump label _ => label.Fits
  | acceleration percent => percent < 0x100000000
  | _ => True

def Motion.Fits (m : Motion) : Prop := ∀ o ∈ m.options, o.Fits

def Wait.Fits : Wait → Prop
  | time _ => True
  | condition _ timeoutLabel => ∀ l ∈ timeoutLabel, l.Fits

def Action.Fits : Action → Prop
  | jump label => label.Fits
  | motion m => m.Fits
  | conditional _ action => action.Fits
  | wait w => w.Fits
  | mixedLogicWait _ timeoutLabel => timeoutLabel.Fits
  | defineLabel label => label.Fits
  | _ => True

def Instruction.Fits (i : Instruction) : Prop := i.lineNumber < 0x100000000 ∧ i.action.Fits

def Program.Fits (p : Program) : Prop := ∀ i ∈ p.instructions, i.Fits

end Pendant

theorem Position.ofJson?_toJson {p : Position} (h : p.Fits) :
    Position.ofJson? p.toJson = some p := by
  simp [ofJson?, toJson, field?, fieldsNamed, word?_natural h.1, word?_natural h.2]

theorem Range.ofJson?_toJson {r : Range} (h : r.Fits) : Range.ofJson? r.toJson = some r := by
  simp [ofJson?, toJson, field?, fieldsNamed, Position.ofJson?_toJson h.1,
    Position.ofJson?_toJson h.2]

namespace Pendant

theorem stringOrNull_read (s : Option String) : (ofOption string s).nullable string? = some s :=
  nullable_ofOption (fun _ => by simp) fun _ _ => rfl

theorem LabelNumber.ofJson?_toJson {number : LabelNumber} (h : number.Fits) :
    LabelNumber.ofJson? number.toJson = some number := by
  cases number with
  | direct n comment =>
    have hn : (integer (n : Int)).word? = some n := word?_natural h
    simp [ofJson?, toJson, field?, fieldOrNull?, fieldsNamed, hn, stringOrNull_read]
  | indirect n =>
    have hn : (integer (n : Int)).word? = some n := word?_natural h
    simp [ofJson?, toJson, field?, fieldsNamed, hn]

theorem Label.ofJson?_toJson {l : Label} (h : l.Fits) : Label.ofJson? l.toJson = some l := by
  simp [ofJson?, toJson, field?, fieldsNamed, LabelNumber.ofJson?_toJson h.1,
    Range.ofJson?_toJson h.2]

theorem MotionType.ofName?_name (t : MotionType) : ofName? t.name = some t := by
  cases t <;> rfl

theorem MotionOption.ofJson?_toJson {o : MotionOption} (h : o.Fits) :
    MotionOption.ofJson? o.toJson = some o := by
  cases o with
  | skip label => simp [ofJson?, toJson, field?, fieldsNamed, Label.ofJson?_toJson h]
  | skipJump label register =>
    simp [ofJson?, toJson, field?, fieldsNamed, Label.ofJson?_toJson h]
  | acceleration percent =>
    have hn : (integer (percent : Int)).word? = some percent := word?_natural h
    simp [ofJson?, toJson, field?, fieldsNamed, hn]
  | offset register =>
    simp [ofJson?, toJson, field?, fieldOrNull?, fieldsNamed, stringOrNull_read]
  | toolOffset register =>
    simp [ofJson?, toJson, field?, fieldOrNull?, fieldsNamed, stringOrNull_read]
  | other text => simp [ofJson?, toJson, field?, fieldsNamed]

theorem Motion.ofJson?_toJson {m : Motion} (h : m.Fits) :
    Motion.ofJson? (.object (("kind", .string "motion") :: m.fields)) = some m := by
  have htype : MotionType.ofJson? (.string m.motionType.name) = some m.motionType :=
    MotionType.ofName?_name m.motionType
  have hoptions : (m.options.map MotionOption.toJson).mapM MotionOption.ofJson? = some m.options :=
    mapM_map fun o ho => MotionOption.ofJson?_toJson (h o ho)
  simp [ofJson?, fields, field?, fieldsNamed, htype, hoptions]

theorem Wait.ofJson?_toJson {w : Wait} (h : w.Fits) : Wait.ofJson? w.toJson = some w := by
  cases w with
  | time seconds => simp [ofJson?, toJson, field?, fieldsNamed]
  | condition test timeoutLabel =>
    have hlabel : (ofOption Label.toJson timeoutLabel).nullable Label.ofJson? =
        some timeoutLabel :=
      nullable_ofOption (fun _ => by simp [Label.toJson]) fun l hl => Label.ofJson?_toJson (h l hl)
    simp [ofJson?, toJson, field?, fieldOrNull?, fieldsNamed, hlabel]

theorem isValue_ofOption {α : Type} {write : α → Json} {a : Option α}
    (h : ∀ b, (write b).IsValue) : (ofOption write a).IsValue := by
  cases a with
  | none => exact .null
  | some b => exact h b

@[simp] theorem isValue_range (r : Range) : r.toJson.IsValue := by
  simp [Range.toJson, Position.toJson]

@[simp] theorem isValue_label (l : Label) : l.toJson.IsValue := by
  have hnumber : l.number.toJson.IsValue := by
    cases l.number <;> simp [LabelNumber.toJson, isValue_ofOption]
  simp [Label.toJson, hnumber]

theorem isValue_motionOption (o : MotionOption) : o.toJson.IsValue := by
  cases o <;> simp [MotionOption.toJson, isValue_ofOption]

theorem isValue_wait (w : Wait) : w.toJson.IsValue := by
  cases w <;> simp [Wait.toJson, isValue_ofOption]

theorem isValue_action (action : Action) : action.toJson.IsValue := by
  induction action with
  | motion m => simp [Action.toJson, Motion.fields, isValue_motionOption]
  | conditional condition action ih => simp [Action.toJson, ih]
  | wait w => simp [Action.toJson, isValue_wait]
  | _ => simp [Action.toJson]

theorem isValue_program (p : Program) : p.toJson.IsValue := by
  simp [Program.toJson, Instruction.toJson, isValue_action]

theorem Action.ofJson?_toJson {action : Action} (h : action.Fits) :
    Action.ofJson? action.toJson = some action := by
  induction action with
  | motion m =>
    have hkind : (motion m).toJson.field? "kind" = some (.string "motion") := by
      simp [toJson, Motion.fields, field?, fieldsNamed]
    have hm : Motion.ofJson? (motion m).toJson = some m := Motion.ofJson?_toJson h
    rw [ofJson?, if_pos (isValue_action _).hasValue]
    simp [hkind, hm]
  | conditional condition action ih =>
    have hkind : (conditional condition action).toJson.field? "kind" = some (.string "if") := by
      simp [toJson, field?, fieldsNamed]
    have hcondition :
        (conditional condition action).toJson.field? "condition" = some (.string condition) := by
      simp [toJson, field?, fieldsNamed]
    have haction : (conditional condition action).toJson.field? "action" = some action.toJson := by
      simp [toJson, field?, fieldsNamed]
    rw [ofJson?, if_pos (isValue_action _).hasValue]
    simp only [Option.bind_eq_bind, hkind, hcondition, Option.bind_some, string?_string]
    -- the decoder matches on the inner action with a proof that it is smaller
    split
    · rename_i hnone
      rw [haction] at hnone
      contradiction
    · rename_i a ha
      rw [haction, Option.some.injEq] at ha
      rw [← ha, ih h]
      rfl
  | wait w =>
    rw [ofJson?, if_pos (isValue_action _).hasValue]
    have hw := Wait.ofJson?_toJson (w := w) h
    simp [toJson, field?, fieldsNamed, hw]
  | jump label | mixedLogicWait condition label | defineLabel label =>
    rw [ofJson?, if_pos (isValue_action _).hasValue]
    have hlabel := Label.ofJson?_toJson (l := label) h
    simp [toJson, field?, fieldsNamed, hlabel]
  | _ =>
    rw [ofJson?, if_pos (isValue_action _).hasValue]
    simp [toJson, field?, fieldsNamed]

theorem Instruction.ofJson?_toJson {i : Instruction} (h : i.Fits) :
    Instruction.ofJson? i.toJson = some i := by
  simp [ofJson?, toJson, field?, fieldsNamed, word?_natural h.1, Action.ofJson?_toJson h.2]

theorem Program.ofJson?_toJson {p : Program} (h : p.Fits) : Program.ofJson? p.toJson = some p := by
  have hinstructions :
      (p.instructions.map Instruction.toJson).mapM Instruction.ofJson? = some p.instructions :=
    mapM_map fun i hi => Instruction.ofJson?_toJson (h i hi)
  simp [ofJson?, toJson, field?, fieldsNamed, hinstructions]

end Pendant

end KarelKit
