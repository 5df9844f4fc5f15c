import KarelKit.Grammar.Parse
import KarelKit.Proofs.Grammar.DataType
import KarelKit.Proofs.Grammar.Value
import KarelKit.Proofs.Rule.Whole

namespace KarelKit

namespace Language

def field : Language Field := do
  let name ← name
  mark .colon
  return ⟨name, ← located dataType⟩

def recordType : Language UserType := do
  keyword .STRUCTURE
  let fields ← atLeastOne (trailed (located field))
  keyword .ENDSTRUCTURE
  return .record fields

def userType : Language UserType :=
  recordType <|> do return .data (← dataType)

def typeDeclaration : Language TypeDeclaration := do
  let name ← name
  let fromProgram ← optional do keyword .FROM; Language.name
  mark .equals
  return ⟨name, ← located userType, fromProgram⟩

def typeSection : Language Declarations := do
  keyword .TYPE
  return ⟨← many (trailed (located typeDeclaration)), []⟩

def constantSection : Language Declarations := do
  keyword .CONST
  return ⟨[], ← many (trailed (located constant))⟩

def sections : Language (List Declarations) := many (typeSection <|> constantSection)

end Language

open KarelKit.Language in
/-- The whole texts that an entry reads, and their trees. -/
def Entry.language : Entry → Language Tree
  | declarations => comments >>= fun _ => sections >>= fun s => pure (.declarations (.join s))
  | typeDeclaration => whole do return .typeDeclaration (← located Language.typeDeclaration)
  | userType => whole do return .userType (← located Language.userType)
  | dataType => whole do return .dataType (← located Language.dataType)
  | constant => whole do return .constant (← located Language.constant)
  | value => whole do return .value (← located Language.value)

namespace Grammar

open Rule
open KarelKit.Language (Outlined)

variable {n : Nat}

theorem field_parses :
    field.Parses Language.field ⟨false, [.name], [.comment, .keyword .IN]⟩ n := by
  have htype := fun name : String =>
    (dataType_parses.located (n := n) rfl (by decide)).map (Field.mk name)
  have hcolon := fun name => (Parses.mark .colon).bind (fun _ => htype name) (by decide)
  exact (Parses.name.bind hcolon (by decide)).mono (by decide)

theorem recordType_parses :
    recordType.Parses Language.recordType ⟨false, [.keyword .STRUCTURE], [.comment]⟩ n := by
  have hitem := (field_parses.located (n := n) rfl (by decide)).trailed rfl
  have hend := fun fields => (Parses.keyword (n := n) .ENDSTRUCTURE).map fun _ =>
    UserType.record fields
  have hfields := (hitem.atLeastOne rfl (by decide) (by decide)).bind hend (by decide)
  exact ((Parses.keyword .STRUCTURE).bind (fun _ => hfields) (by decide)).mono (by decide)

theorem userType_parses : userType.Parses Language.userType
    ⟨false, .keyword .STRUCTURE :: Outline.dataType.first, [.comment, .keyword .IN]⟩ n :=
  (recordType_parses.orElse (dataType_parses.map UserType.data) rfl rfl (by decide)).mono
    (by decide)

theorem typeDeclaration_parses : typeDeclaration.Parses Language.typeDeclaration
    ⟨false, [.name], [.comment, .keyword .IN]⟩ n := by
  have htype := fun name fromProgram => (userType_parses.located (n := n) rfl (by decide)).map
    fun userType => TypeDeclaration.mk name userType fromProgram
  have hequals := fun name fromProgram => (Parses.mark .equals).bind
    (fun _ => htype name fromProgram) (by decide)
  have hfrom := ((Parses.keyword .FROM).bind (fun _ => Parses.name (n := n)) (by decide)).optional
    rfl (by decide)
  have hrest := fun name => hfrom.bind (hequals name) (by decide)
  exact (Parses.name.bind hrest (by decide)).mono (by decide)

theorem typeSection_parses : typeSection.Parses Language.typeSection
    ⟨false, [.keyword .TYPE], [.comment, .keyword .IN, .name]⟩ n := by
  have hitem := (typeDeclaration_parses.located (n := n) rfl (by decide)).trailed rfl
  have hitems := (hitem.many rfl (by decide) (by decide)).map fun types => Declarations.mk types []
  exact ((Parses.keyword .TYPE).bind (fun _ => hitems) (by decide)).mono (by decide)

theorem constantSection_parses : constantSection.Parses Language.constantSection
    ⟨false, [.keyword .CONST], [.comment, .mark .dot, .name]⟩ n := by
  have hitem := (constant_parses.located (n := n) rfl (by decide)).trailed rfl
  have hitems := (hitem.many rfl (by decide) (by decide)).map (Declarations.mk [])
  exact ((Parses.keyword .CONST).bind (fun _ => hitems) (by decide)).mono (by decide)

theorem sections_parses : (many (typeSection <|> constantSection)).Parses Language.sections
    ⟨true, [.keyword .TYPE, .keyword .CONST],
      [.comment, .keyword .IN, .name, .mark .dot, .keyword .TYPE, .keyword .CONST]⟩ n := by
  have hsection := typeSection_parses.orElse (n := n) constantSection_parses rfl rfl (by decide)
  exact (hsection.many rfl (by decide) (by decide)).mono (by decide)

/-- Where sections end nothing is left to do but to look whether the text ends there too. -/
theorem readAll_declarations (text : Lexed) :
    readAll Entry.declarations.rule text =
      Outcome.finish [.keyword .TYPE, .keyword .CONST, .endOfInput]
        ((skipComments >>= fun _ => many (typeSection <|> constantSection) >>= fun s =>
          pure (Tree.declarations (.join s))) (.start text)) := by
  rw [readAll_eq]
  unfold Entry.rule Grammar.declarations
  simp only [bind_apply, skipComments_apply]
  cases many (typeSection <|> constantSection) (Cursor.start text).skipComments with
  | error e c => rfl
  | ok s c =>
    unfold lookahead
    by_cases hempty : c.ahead.isEmpty = true
    · -- at the end there are no comments left to skip
      have hnil : c.skipComments.ahead = [] := by
        rw [c.ahead_skipComments, List.isEmpty_iff.mp hempty, List.dropWhile_nil]
      simp [Outcome.finish, hempty, pure_apply, hnil]
    · simp [Outcome.finish, hempty, pure_apply, fail]

theorem declarations_outlined : Entry.declarations.language.Outlined
    ⟨true, [.comment, .keyword .TYPE, .keyword .CONST],
      [.comment, .keyword .IN, .name, .mark .dot, .keyword .TYPE, .keyword .CONST]⟩ := by
  have hsections := (sections_parses (n := 0)).outlined.map fun s => Tree.declarations (.join s)
  exact (Outlined.comments.bind (fun _ => hsections) (by decide)).mono (by decide)

end Grammar

open Grammar KarelKit.Language Rule

theorem Entry.settles (entry : Entry) (text : Lexed) :
    Settles entry.language text (readAll entry.rule text) := by
  cases entry with
  | declarations =>
    rw [readAll_declarations]
    apply settles_finish
    have hsections := (sections_parses (n := (Cursor.start text).size + 1)).map fun s =>
      Tree.declarations (.join s)
    exact (Parses.skipComments.bind (fun _ => hsections) (by decide)).follows (Nat.lt_succ_self _)
  | typeDeclaration =>
    exact readAll_settles (fun _ => (typeDeclaration_parses.located rfl (by decide)).map _) rfl
      (by decide) text
  | userType =>
    exact readAll_settles (fun _ => (userType_parses.located rfl (by decide)).map _) rfl
      (by decide) text
  | dataType =>
    exact readAll_settles (fun _ => (dataType_parses.located rfl (by decide)).map _) rfl
      (by decide) text
  | constant =>
    exact readAll_settles (fun _ => (constant_parses.located rfl (by decide)).map _) rfl
      (by decide) text
  | value =>
    exact readAll_settles (fun _ => (value_parses.located rfl (by decide)).map _) rfl
      (by decide) text

end KarelKit
