import KarelKit.Declaration.Tree
import KarelKit.Token.Word

namespace KarelKit

def Located.over {α : Type} (f : α → α) (x : Located α) : Located α := ⟨f x.node, x.range⟩

/-- A motion group makes a position type of every name of the program's own. -/
def DataType.settle : DataType → DataType
  | named name (some group) =>
    if isBuiltinType name then .named name (some group) else .position name group
  | array sizes element elementRange => .array sizes element.settle elementRange
  | t => t

def Field.settle (f : Field) : Field := { f with dataType := f.dataType.over DataType.settle }

def UserType.settle : UserType → UserType
  | data dataType => .data dataType.settle
  | record fields => .record (fields.map (·.over Field.settle))

def TypeDeclaration.settle (d : TypeDeclaration) : TypeDeclaration :=
  { d with userType := d.userType.over UserType.settle }

def Declarations.settle (d : Declarations) : Declarations :=
  { d with types := d.types.map (·.over TypeDeclaration.settle) }

def Tree.settle : Tree → Tree
  | declarations tree => .declarations tree.settle
  | typeDeclaration tree => .typeDeclaration (tree.over TypeDeclaration.settle)
  | userType tree => .userType (tree.over UserType.settle)
  | dataType tree => .dataType (tree.over DataType.settle)
  | t => t

/-- Whether every motion group goes with a predefined name. -/
def DataType.isSettled : DataType → Bool
  | named name (some _) => isBuiltinType name
  | array _ element _ => element.isSettled
  | _ => true

def UserType.isSettled : UserType → Bool
  | data dataType => dataType.isSettled
  | record fields => fields.all (·.node.dataType.node.isSettled)

def Tree.isSettled : Tree → Bool
  | declarations tree => tree.types.all (·.node.userType.node.isSettled)
  | typeDeclaration tree => tree.node.userType.node.isSettled
  | userType tree => tree.node.isSettled
  | dataType tree => tree.node.isSettled
  | _ => true

theorem DataType.settle_bare_eq_iff {t : DataType} :
    t.settle.bare = t.bare ↔ t.isSettled = true := by
  induction t with
  | named name group =>
    cases group with
    | none => simp [settle, isSettled]
    | some group =>
      rw [settle, isSettled]
      by_cases h : isBuiltinType name = true
      · simp [h]
      · simp [h, bare]
  | array sizes element _ ih => simp [settle, bare, isSettled, ih]
  | _ => simp [settle, isSettled]

/-- Lists agree after a change of each node if each node does. -/
theorem map_bare_eq_iff {α : Type} {settle bare : α → α} {p : α → Bool} {items : List (Located α)}
    (h : ∀ a, bare (settle a) = bare a ↔ p a = true) :
    (items.map (·.over settle)).map (·.bare bare) = items.map (·.bare bare) ↔
      items.all (fun x => p x.node) = true := by
  induction items with
  | nil => simp
  | cons x items ih =>
    rw [List.map_cons, List.map_cons, List.map_cons, List.cons.injEq, ih, List.all_cons,
      Bool.and_eq_true, ← h x.node]
    simp [Located.bare, Located.over]

theorem Field.settle_bare_eq_iff {f : Field} :
    f.settle.bare = f.bare ↔ f.dataType.node.isSettled = true := by
  rw [← DataType.settle_bare_eq_iff]
  simp [settle, bare, Located.bare, Located.over]

theorem UserType.settle_bare_eq_iff {t : UserType} :
    t.settle.bare = t.bare ↔ t.isSettled = true := by
  cases t with
  | data dataType => simp [settle, bare, isSettled, DataType.settle_bare_eq_iff]
  | record fields =>
    simp only [settle, bare, isSettled, record.injEq]
    exact map_bare_eq_iff fun _ => Field.settle_bare_eq_iff

theorem TypeDeclaration.settle_bare_eq_iff {d : TypeDeclaration} :
    d.settle.bare = d.bare ↔ d.userType.node.isSettled = true := by
  rw [← UserType.settle_bare_eq_iff]
  simp [settle, bare, Located.bare, Located.over]

theorem Declarations.settle_bare_eq_iff {d : Declarations} :
    d.settle.bare = d.bare ↔ d.types.all (·.node.userType.node.isSettled) = true := by
  simp only [settle, bare, Declarations.mk.injEq, and_true]
  exact map_bare_eq_iff fun _ => TypeDeclaration.settle_bare_eq_iff

theorem Tree.settle_bare_eq_iff {t : Tree} : t.settle.bare = t.bare ↔ t.isSettled = true := by
  cases t with
  | declarations tree => simp [settle, bare, isSettled, Declarations.settle_bare_eq_iff]
  | typeDeclaration tree =>
    simp [settle, bare, isSettled, Located.bare, Located.over, TypeDeclaration.settle_bare_eq_iff]
  | userType tree =>
    simp [settle, bare, isSettled, Located.bare, Located.over, UserType.settle_bare_eq_iff]
  | dataType tree =>
    simp [settle, bare, isSettled, Located.bare, Located.over, DataType.settle_bare_eq_iff]
  | constant tree => simp [settle, isSettled]
  | value tree => simp [settle, isSettled]

theorem DataType.bare_bare (t : DataType) : t.bare.bare = t.bare := by
  induction t with
  | array sizes element _ ih =>
    rw [bare, bare, ih, List.map_map]
    rfl
  | _ => rfl

theorem Located.bare_bare {α : Type} {f : α → α} (hf : ∀ a, f (f a) = f a) (x : Located α) :
    (x.bare f).bare f = x.bare f := by
  simp [bare, hf]

theorem map_bare_bare {α : Type} {f : α → α} (hf : ∀ a, f (f a) = f a)
    (items : List (Located α)) : (items.map (·.bare f)).map (·.bare f) = items.map (·.bare f) := by
  rw [List.map_map]
  congr 1
  funext x
  exact Located.bare_bare hf x

theorem Field.bare_bare (f : Field) : f.bare.bare = f.bare := by
  simp [bare, Located.bare_bare DataType.bare_bare]

theorem UserType.bare_bare (t : UserType) : t.bare.bare = t.bare := by
  cases t with
  | data dataType => rw [bare, bare, DataType.bare_bare]
  | record fields => rw [bare, bare, map_bare_bare Field.bare_bare]

theorem TypeDeclaration.bare_bare (d : TypeDeclaration) : d.bare.bare = d.bare := by
  simp [bare, Located.bare_bare UserType.bare_bare]

theorem Constant.bare_bare (c : Constant) : c.bare.bare = c.bare := rfl

theorem Declarations.bare_bare (d : Declarations) : d.bare.bare = d.bare := by
  simp only [bare, map_bare_bare TypeDeclaration.bare_bare, map_bare_bare Constant.bare_bare]

theorem Tree.bare_bare (t : Tree) : t.bare.bare = t.bare := by
  cases t with
  | declarations tree => rw [bare, bare, Declarations.bare_bare]
  | typeDeclaration tree => rw [bare, bare, Located.bare_bare TypeDeclaration.bare_bare]
  | userType tree => rw [bare, bare, Located.bare_bare UserType.bare_bare]
  | dataType tree => rw [bare, bare, Located.bare_bare DataType.bare_bare]
  | constant tree => rfl
  | value tree => rfl

theorem Declarations.join_cons (d : Declarations) (sections : List Declarations) :
    join (d :: sections) = d ++ join sections := rfl

theorem Declarations.settle_append (d e : Declarations) :
    (d ++ e).settle = d.settle ++ e.settle := by
  simp only [settle, types_append, constants_append, List.map_append]
  rfl

theorem Declarations.bare_append (d e : Declarations) : (d ++ e).bare = d.bare ++ e.bare := by
  simp only [bare, types_append, constants_append, List.map_append]
  rfl

theorem DataType.print_array (sizes : List (Located ArraySize)) (element : DataType)
    (elementRange : Range) : (array sizes element elementRange).print =
      "ARRAY[" ++ ",".intercalate (sizes.map (·.node.print)) ++ "] OF " ++ element.print := rfl

theorem DataType.print_settle (t : DataType) : t.settle.print = t.print := by
  induction t with
  | named name group =>
    cases group with
    | none => rfl
    | some group =>
      rw [settle]
      split <;> rfl
  | array sizes element _ ih => rw [settle, print_array, print_array, ih]
  | _ => rfl

theorem DataType.print_bare (t : DataType) : t.bare.print = t.print := by
  induction t with
  | array sizes element _ ih =>
    rw [bare, print_array, print_array, ih, List.map_map]
    rfl
  | _ => rfl

theorem UserType.print_record {g : Located Field → Located Field} (fields : List (Located Field))
    (hg : ∀ x, (g x).node.print = x.node.print) :
    (record (fields.map g)).print = (record fields).print := by
  simp only [print, List.map_map, Function.comp_def, hg]

theorem UserType.print_settle (t : UserType) : t.settle.print = t.print := by
  cases t with
  | data dataType => exact dataType.print_settle
  | record fields =>
    apply print_record
    intro x
    change s!"{x.node.name} : {x.node.dataType.node.settle.print}" = _
    rw [DataType.print_settle, Field.print]

theorem UserType.print_bare (t : UserType) : t.bare.print = t.print := by
  cases t with
  | data dataType => exact dataType.print_bare
  | record fields =>
    apply print_record
    intro x
    change s!"{x.node.name} : {x.node.dataType.node.bare.print}" = _
    rw [DataType.print_bare, Field.print]

theorem TypeDeclaration.print_settle (d : TypeDeclaration) : d.settle.print = d.print := by
  have htype : d.settle.userType.node.print = d.userType.node.print := UserType.print_settle _
  unfold print
  rw [htype]
  rfl

theorem TypeDeclaration.print_bare (d : TypeDeclaration) : d.bare.print = d.print := by
  have htype : d.bare.userType.node.print = d.userType.node.print := UserType.print_bare _
  unfold print
  rw [htype]
  rfl

theorem Declarations.print_settle (d : Declarations) : d.settle.print = d.print := by
  simp only [settle, print, List.map_map, Function.comp_def, Located.over,
    TypeDeclaration.print_settle]

theorem Declarations.print_bare (d : Declarations) : d.bare.print = d.print := by
  simp only [bare, print, List.map_map, Function.comp_def, Located.bare,
    TypeDeclaration.print_bare]
  rfl

theorem Tree.print_settle (t : Tree) : t.settle.print = t.print := by
  cases t with
  | declarations tree => exact tree.print_settle
  | typeDeclaration tree => exact tree.node.print_settle
  | userType tree => exact tree.node.print_settle
  | dataType tree => exact tree.node.print_settle
  | _ => rfl

theorem Tree.print_bare (t : Tree) : t.bare.print = t.print := by
  cases t with
  | declarations tree => exact tree.print_bare
  | typeDeclaration tree => exact tree.node.print_bare
  | userType tree => exact tree.node.print_bare
  | dataType tree => exact tree.node.print_bare
  | _ => rfl

theorem Tree.print_settle_bare (t : Tree) : t.settle.bare.print = t.print := by
  rw [print_bare, print_settle]

end KarelKit
