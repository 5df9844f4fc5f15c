import KarelKit.Proofs.Grammar.Parsing
import KarelKit.Proofs.Grammar.Placement
import KarelKit.Proofs.Language.Solid
import KarelKit.Proofs.Token.Slicing

namespace KarelKit

/-- A part of a tree, with its range. -/
inductive Part
  | typeDeclaration (x : Located TypeDeclaration)
  | userType (x : Located UserType)
  | dataType (x : Located DataType)
  | constant (x : Located Constant)
  | value (x : Located Value)

def Part.range : Part → Range
  | typeDeclaration x => x.range
  | userType x => x.range
  | dataType x => x.range
  | constant x => x.range
  | value x => x.range

/-- The part as a tree by itself. -/
def Part.tree : Part → Tree
  | typeDeclaration x => .typeDeclaration x
  | userType x => .userType x
  | dataType x => .dataType x
  | constant x => .constant x
  | value x => .value x

/-- The elements of arrays, at any depth. -/
def DataType.parts : DataType → List Part
  | array _ element elementRange => .dataType ⟨element, elementRange⟩ :: element.parts
  | _ => []

def UserType.parts : UserType → List Part
  | data dataType => dataType.parts
  | record fields =>
    fields.flatMap fun f => .dataType f.node.dataType :: f.node.dataType.node.parts

def TypeDeclaration.parts (d : TypeDeclaration) : List Part :=
  .userType d.userType :: d.userType.node.parts

def Constant.parts (c : Constant) : List Part := [.value c.value]

def Declarations.parts (d : Declarations) : List Part :=
  d.types.flatMap (fun x => .typeDeclaration x :: x.node.parts) ++
    d.constants.flatMap fun x => .constant x :: x.node.parts

/-- All parts of a tree; the tree itself is one too, if it has a range. -/
def Tree.parts : Tree → List Part
  | declarations tree => tree.parts
  | typeDeclaration x => .typeDeclaration x :: x.node.parts
  | userType x => .userType x :: x.node.parts
  | dataType x => .dataType x :: x.node.parts
  | constant x => .constant x :: x.node.parts
  | value x => [.value x]

namespace Language

variable {α β : Type} {u v : List Lexeme} {part : Part}

/-- Among the lexemes are those of the part, and its range is theirs. -/
def Holds (u : List Lexeme) (part : Part) : Prop :=
  ∃ x v y, u = x ++ (v ++ y) ∧ part.tree.entry.language v part.tree ∧ part.range = span v ∧
    ∃ l, v.head? = some l ∧ l.node.isComment = false

theorem Holds.left (h : Holds u part) (v : List Lexeme) : Holds (u ++ v) part := by
  obtain ⟨x, w, y, rfl, h⟩ := h
  exact ⟨x, w, y ++ v, by simp, h⟩

theorem Holds.right (h : Holds v part) (u : List Lexeme) : Holds (u ++ v) part := by
  obtain ⟨x, w, y, rfl, h⟩ := h
  exact ⟨u ++ x, w, y, by simp, h⟩

theorem head_of_outlined {L : Language α} {o : Outline} (h : L.Outlined o) (ho : o.empty = false)
    (hcomment : .comment ∉ o.first) {u : List Lexeme} {a : α} (hu : L u a) :
    ∃ l, u.head? = some l ∧ l.node.isComment = false := by
  obtain ⟨l, rest, rfl⟩ := List.exists_cons_of_ne_nil (h.ne_nil ho hu)
  exact ⟨l, rfl, h.isComment_of_begins hcomment ⟨rest, a, hu⟩⟩

/-- Without comments around it a sentence is a whole text. -/
theorem whole_of {L : Language α} {a : α} (h : L u a) : L.whole u a :=
  ⟨[], u, (), rfl, fun _ hl => absurd hl List.not_mem_nil,
    Outlined.trailed_iff.mpr ⟨u, [], (List.append_nil u).symm, h, by simp⟩⟩

/-- The parts of a value that `parts` tells are among the lexemes of its sentence, but for those
known `before`. -/
def Carries (before : List Part) (L : Language α) (parts : α → List Part) : Prop :=
  ∀ u a, L u a → ∀ part ∈ parts a, part ∈ before ∨ Holds u part

namespace Carries

variable {L : Language α} {M : α → Language β} {before : List Part} {s : α → List Part}
  {t : β → List Part}

protected theorem none : Carries before L fun _ => [] := by
  intro u a _ part hpart
  contradiction

theorem pure_of_subset {a : α} (h : s a ⊆ before) : Carries before (pure a : Language α) s := by
  intro u b hu part hpart
  obtain ⟨-, rfl⟩ := hu
  exact Or.inl (h hpart)

protected theorem pure {a : α} (h : s a = before) : Carries before (pure a : Language α) s :=
  pure_of_subset (h ▸ List.Subset.refl _)

protected theorem bind (hL : Carries [] L s) (hM : ∀ a, Carries (before ++ s a) (M a) t) :
    Carries before (L >>= M) t := by
  intro u b hu part hpart
  obtain ⟨v, w, a, rfl, hv, hw⟩ := hu
  rcases hM a w b hw part hpart with h | h
  · rcases List.mem_append.mp h with h | h
    · exact Or.inl h
    · rcases hL v a hv part h with h | h
      · contradiction
      · exact Or.inr (h.left w)
  · exact Or.inr (h.right v)

protected theorem map {f : α → β} (hL : Carries [] L s) (h : ∀ a, t (f a) = s a) :
    Carries [] (L >>= fun a => pure (f a)) t :=
  hL.bind fun a => Carries.pure (by rw [h, List.nil_append])

protected theorem orElse {N : Language α} (hL : Carries before L s) (hN : Carries before N s) :
    Carries before (L <|> N) s := by
  intro u a hu
  rcases hu with hu | hu
  · exact hL u a hu
  · exact hN u a hu

theorem exists_depth {N : Nat → Language α} (h : ∀ n, Carries before (N n) s) :
    Carries before (fun u a => ∃ n, N n u a) s := by
  intro u a hu
  obtain ⟨n, hu⟩ := hu
  exact h n u a hu

protected theorem many (hL : Carries [] L s) :
    Carries [] (many L) fun items => items.flatMap s := by
  rw [many_eq_exists]
  apply exists_depth
  intro n
  have hnil : Carries [] (pure [] : Language (List α)) fun items => items.flatMap s :=
    Carries.pure rfl
  induction n with
  | zero => exact hnil
  | succ n ih => exact hnil.orElse (hL.bind fun _ => ih.bind fun _ => Carries.pure (by simp))

protected theorem atLeastOne (hL : Carries [] L s) :
    Carries [] (atLeastOne L) fun items => items.flatMap s :=
  hL.bind fun _ => hL.many.bind fun _ => Carries.pure (by simp)

protected theorem trailed (hL : Carries [] L s) : Carries [] (trailed L) s :=
  hL.bind fun _ => Carries.none.bind fun _ => Carries.pure (by simp)

protected theorem whole (hL : Carries [] L s) : Carries [] L.whole s :=
  Carries.none.bind fun _ => hL.trailed

protected theorem located (hL : Carries [] L s) : Carries [] (located L) fun x => s x.node :=
  fun u x hu => hL u x.node hu.1

/-- What is located is a part itself, if its entry reads all that `L` derives. -/
theorem own_of_imp {N : Language α} {o : Outline} {f : Located α → Part} (hL : Carries [] L s)
    (h : ∀ u a, L u a → N u a)
    (hentry : ∀ x, (f x).tree.entry.language = (located N >>= fun x => pure (f x).tree).whole)
    (hrange : ∀ x, (f x).range = x.range) (hN : N.Outlined o) (hempty : o.empty = false)
    (hcomment : .comment ∉ o.first) : Carries [] (located L) fun x => f x :: s x.node := by
  intro u x hu part hpart
  rcases List.mem_cons.mp hpart with rfl | hpart
  · have hx : located N u x := ⟨h u x.node hu.1, hu.2⟩
    have hlanguage : (f x).tree.entry.language u (f x).tree := by
      rw [hentry]
      exact whole_of (bind_pure hx)
    have hhead := head_of_outlined hN hempty hcomment hx.1
    exact Or.inr ⟨[], u, [], by simp, hlanguage, (hrange x).trans hu.2, hhead⟩
  · exact hL u x.node hu.1 part hpart

protected theorem own {o : Outline} {f : Located α → Part} (hL : Carries [] L s)
    (hentry : ∀ x, (f x).tree.entry.language = (located L >>= fun x => pure (f x).tree).whole)
    (hrange : ∀ x, (f x).range = x.range) (ho : L.Outlined o) (hempty : o.empty = false)
    (hcomment : .comment ∉ o.first) : Carries [] (located L) fun x => f x :: s x.node :=
  hL.own_of_imp (fun _ _ h => h) hentry hrange ho hempty hcomment

end Carries

open Grammar

theorem nameOrPosition_carries : Carries [] nameOrPosition DataType.parts := by
  have hnamed : Carries [] namedType DataType.parts :=
    Carries.none.bind fun _ => Carries.none.bind fun _ => Carries.pure rfl
  have hposition : ∀ t : DataType, t.asPosition.parts = t.parts := by
    intro t
    cases t with
    | named name group => cases group <;> rfl
    | _ => rfl
  intro u t hu
  obtain ⟨s, hs, rfl⟩ := hu
  split
  · rw [hposition]
    exact hnamed u s hs
  · exact hnamed u s hs

theorem arrayType_carries {element : Language DataType} (h : Carries [] element DataType.parts)
    (helement : ∀ u t, element u t → dataType u t) :
    Carries [] (arrayType element) DataType.parts := by
  have hown := h.own_of_imp (f := Part.dataType) helement (fun _ => rfl) (fun _ => rfl)
    (dataType_parses (n := 0)).outlined rfl (by decide)
  exact Carries.none.bind fun _ => Carries.none.bind fun _ => Carries.none.bind fun _ =>
    hown.bind fun _ => Carries.pure rfl

theorem dataType_carries : Carries [] dataType DataType.parts := by
  have hstring : Carries [] stringType DataType.parts :=
    Carries.none.bind fun _ => Carries.none.bind fun _ => Carries.pure rfl
  have hpath : Carries [] pathType DataType.parts :=
    Carries.none.bind fun _ => Carries.none.bind fun _ => Carries.none.bind fun _ =>
      Carries.none.bind fun _ => Carries.none.bind fun _ => Carries.pure rfl
  apply Carries.exists_depth
  intro depth
  induction depth with
  | zero => exact hstring.orElse (hpath.orElse nameOrPosition_carries)
  | succ depth ih =>
    have harray := arrayType_carries ih fun u t ht => ⟨depth, ht⟩
    exact hstring.orElse (harray.orElse (hpath.orElse nameOrPosition_carries))

theorem locatedDataType_carries :
    Carries [] (located dataType) fun x => .dataType x :: x.node.parts :=
  dataType_carries.own (f := Part.dataType) (fun _ => rfl) (fun _ => rfl)
    (dataType_parses (n := 0)).outlined rfl (by decide)

theorem locatedUserType_carries :
    Carries [] (located userType) fun x => .userType x :: x.node.parts := by
  have hfield : Carries [] field fun f => .dataType f.dataType :: f.dataType.node.parts :=
    Carries.none.bind fun _ => Carries.none.bind fun _ => locatedDataType_carries.bind fun _ =>
      Carries.pure rfl
  have hrecord : Carries [] recordType UserType.parts :=
    Carries.none.bind fun _ => hfield.located.trailed.atLeastOne.bind fun _ =>
      Carries.none.bind fun _ => Carries.pure (by simp [UserType.parts])
  have huser : Carries [] userType UserType.parts :=
    hrecord.orElse (dataType_carries.map fun _ => rfl)
  exact huser.own (f := Part.userType) (fun _ => rfl) (fun _ => rfl)
    (userType_parses (n := 0)).outlined rfl (by decide)

theorem locatedTypeDeclaration_carries :
    Carries [] (located typeDeclaration) fun x => .typeDeclaration x :: x.node.parts := by
  have hdeclaration : Carries [] typeDeclaration TypeDeclaration.parts :=
    Carries.none.bind fun _ => Carries.none.bind fun _ => Carries.none.bind fun _ =>
      locatedUserType_carries.bind fun _ => Carries.pure rfl
  exact hdeclaration.own (f := Part.typeDeclaration) (fun _ => rfl) (fun _ => rfl)
    (typeDeclaration_parses (n := 0)).outlined rfl (by decide)

theorem locatedValue_carries : Carries [] (located value) fun x => [.value x] := by
  have hvalue : Carries [] value fun _ => [] := Carries.none
  exact hvalue.own (f := Part.value) (fun _ => rfl) (fun _ => rfl)
    (value_parses (n := 0)).outlined rfl (by decide)

theorem locatedConstant_carries :
    Carries [] (located constant) fun x => .constant x :: x.node.parts := by
  have hconstant : Carries [] constant Constant.parts :=
    Carries.none.bind fun _ => Carries.none.bind fun _ => locatedValue_carries.bind fun _ =>
      Carries.pure rfl
  exact hconstant.own (f := Part.constant) (fun _ => rfl) (fun _ => rfl)
    (constant_parses (n := 0)).outlined rfl (by decide)

theorem sections_carries : Carries [] sections fun s => s.flatMap Declarations.parts := by
  have htypes : Carries [] typeSection Declarations.parts :=
    Carries.none.bind fun _ => locatedTypeDeclaration_carries.trailed.many.bind fun _ =>
      Carries.pure (by simp [Declarations.parts])
  have hconstants : Carries [] constantSection Declarations.parts :=
    Carries.none.bind fun _ => locatedConstant_carries.trailed.many.bind fun _ =>
      Carries.pure (by simp [Declarations.parts])
  exact (htypes.orElse hconstants).many

theorem parts_join_subset (s : List Declarations) :
    (Declarations.join s).parts ⊆ s.flatMap Declarations.parts := by
  induction s with
  | nil => exact List.Subset.refl _
  | cons d s ih =>
    intro part hpart
    have hparts : part ∈ d.parts ∨ part ∈ (Declarations.join s).parts := by
      rw [Declarations.join_cons] at hpart
      simp only [Declarations.parts, Declarations.types_append, Declarations.constants_append,
        List.flatMap_append, List.mem_append] at hpart ⊢
      tauto
    rw [List.flatMap_cons, List.mem_append]
    exact hparts.imp_right fun h => ih h

end Language

open KarelKit.Language

theorem Entry.carries (entry : Entry) : Carries [] entry.language Tree.parts := by
  cases entry with
  | declarations =>
    exact Carries.none.bind fun _ => sections_carries.bind fun s =>
      Carries.pure_of_subset (parts_join_subset s)
  | typeDeclaration => exact Carries.whole (locatedTypeDeclaration_carries.map fun _ => rfl)
  | userType => exact Carries.whole (locatedUserType_carries.map fun _ => rfl)
  | dataType => exact Carries.whole (locatedDataType_carries.map fun _ => rfl)
  | constant => exact Carries.whole (locatedConstant_carries.map fun _ => rfl)
  | value => exact Carries.whole (locatedValue_carries.map fun _ => rfl)

/-- Each part of what is parsed is parsed again from the slice of the text in its range. -/
theorem parse_cut {entry : Entry} {source : String} {t : Tree} (h : parse entry source = .ok t)
    {part : Part} (hpart : part ∈ t.parts) :
    ∃ t', parse part.tree.entry (part.range.cut source) = .ok t' ∧ t'.bare = part.tree.bare := by
  obtain ⟨text, hlex⟩ := lex_of_parse h
  have hrising := rising_of_lex hlex
  have hholds : Holds text.lexemes part := by
    rcases entry.carries _ t ((parse_eq_ok_iff hlex).mp h) part hpart with hnil | hholds
    · contradiction
    · exact hholds
  obtain ⟨x, v, y, htext, hlanguage, hrange, f, hf, hcomment⟩ := hholds
  -- comments at the end of the part's own lexemes stand behind its range
  obtain ⟨v, w, rfl, hw, hlast⟩ := trim_comments v
  have hne : v ≠ [] := by
    rintro rfl
    rw [List.nil_append] at hf
    rw [hw f (List.mem_of_head? hf)] at hcomment
    contradiction
  obtain ⟨l, hl⟩ := exists_getLast? hne
  have hsolid : (solid (v ++ w)).getLast? = some l := by
    rw [solid_append, solid_of_comments hw, List.append_nil, getLast?_solid hlast, hl]
  rw [htext] at hrising
  rw [span_eq hrising.right.left hf hsolid] at hrange
  have hhead : v.head? = some f := by
    rwa [List.head?_append_of_ne_nil _ hne] at hf
  rw [List.append_assoc] at htext
  obtain ⟨slice, hslice, hnodes⟩ := lex_cut hlex htext hhead hl
  obtain ⟨t', ht', hbare⟩ := part.tree.entry.alike_bare v w _ _ hlanguage hw hnodes
  rw [hrange]
  exact ⟨t', (parse_eq_ok_iff hslice).mpr ht', hbare⟩

theorem parse_cut_element : ∃ t', parse .dataType
    (Range.cut ⟨⟨2, 1⟩, ⟨2, 2⟩⟩ "type t = array of -- c\nk\nconst a = 1") = .ok t' ∧
      t'.bare = .dataType ⟨.named "k" none, .erased⟩ := by
  obtain ⟨-, hparse, -⟩ := parse_sections
  refine @parse_cut _ _ _ hparse (.dataType ⟨.named "k" none, ⟨⟨2, 1⟩, ⟨2, 2⟩⟩⟩) ?_
  simp [Tree.parts, Declarations.parts, TypeDeclaration.parts, UserType.parts, DataType.parts]

end KarelKit
