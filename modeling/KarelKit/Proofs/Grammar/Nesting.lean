import KarelKit.Proofs.Grammar.Parts

namespace KarelKit

/-- What has a range in a tree. -/
inductive Node
  | typeDeclaration (x : Located TypeDeclaration)
  | userType (x : Located UserType)
  | field (x : Located Field)
  | dataType (x : Located DataType)
  | arraySize (x : Located ArraySize)
  | constant (x : Located Constant)
  | value (x : Located Value)

def DataType.children : DataType → List Node
  | array sizes element elementRange => sizes.map .arraySize ++ [.dataType ⟨element, elementRange⟩]
  | _ => []

def UserType.children : UserType → List Node
  | data dataType => dataType.children
  | record fields => fields.map .field

namespace Node

def range : Node → Range
  | typeDeclaration x => x.range
  | userType x => x.range
  | field x => x.range
  | dataType x => x.range
  | arraySize x => x.range
  | constant x => x.range
  | value x => x.range

/-- The nodes just below, in the order written. -/
def children : Node → List Node
  | typeDeclaration x => [.userType x.node.userType]
  | userType x => x.node.children
  | field x => [.dataType x.node.dataType]
  | dataType x => x.node.children
  | arraySize _ => []
  | constant x => [.value x.node.value]
  | value _ => []

end Node

/-- The lists of nodes that a tree begins with: declarations have one for each kind. -/
def Tree.rows : Tree → List (List Node)
  | declarations tree => [tree.types.map .typeDeclaration, tree.constants.map .constant]
  | typeDeclaration x => [[.typeDeclaration x]]
  | userType x => [[.userType x]]
  | dataType x => [[.dataType x]]
  | constant x => [[.constant x]]
  | value x => [[.value x]]

/-- The nodes of a tree, at any depth. -/
inductive Tree.Has (t : Tree) : Node → Prop
  | root {row : List Node} {n : Node} (hrow : row ∈ t.rows) (hn : n ∈ row) : Has t n
  | child {n m : Node} (h : Has t n) (hm : m ∈ n.children) : Has t m

open KarelKit.Language in
/-- The lexemes are a sentence that spells the node, and its range is theirs. -/
def Node.On (v : List Lexeme) : Node → Prop
  | typeDeclaration x => located Language.typeDeclaration v x
  | userType x => located Language.userType v x
  | field x => located Language.field v x
  | dataType x => located Language.dataType v x
  | arraySize x => located Language.arraySize v x
  | constant x => located Language.constant v x
  | value x => located Language.value v x

namespace Language

variable {α β : Type} {u v : List Lexeme} {n : Node} {ns ms : List Node}

/-- Among the lexemes are those of the nodes, one node after the other. -/
inductive Row : List Lexeme → List Node → Prop
  | nil {u : List Lexeme} : Row u []
  | cons {x v w : List Lexeme} {n : Node} {ns : List Node} (hv : n.On v) (hw : Row w ns) :
    Row (x ++ (v ++ w)) (n :: ns)

namespace Row

theorem single (h : n.On u) : Row u [n] := by
  have hrow := Row.cons (x := []) h (.nil (u := []))
  rwa [List.append_nil] at hrow

theorem right (h : Row v ns) (u : List Lexeme) : Row (u ++ v) ns := by
  cases h with
  | nil => exact .nil
  | cons hv hw =>
    rw [← List.append_assoc]
    exact .cons hv hw

theorem append (h : Row u ns) (h' : Row v ms) : Row (u ++ v) (ns ++ ms) := by
  induction h with
  | nil => exact h'.right _
  | cons hv hw ih =>
    rw [List.append_assoc, List.append_assoc]
    exact .cons hv ih

theorem exists_of_mem (h : Row u ns) (hn : n ∈ ns) : ∃ x v y, u = x ++ (v ++ y) ∧ n.On v := by
  induction h with
  | nil => contradiction
  | @cons x v w m ns hv hw ih =>
    rcases List.mem_cons.mp hn with rfl | hn
    · exact ⟨x, v, w, rfl, hv⟩
    · obtain ⟨x', v', y, rfl, hon⟩ := ih hn
      exact ⟨x ++ (v ++ x'), v', y, by simp, hon⟩

end Row

/-- The nodes that `f` tells of a value are those known `before`, and then a row of nodes among the
lexemes of its sentence. -/
def Rows (before : List Node) (L : Language α) (f : α → List Node) : Prop :=
  ∀ u a, L u a → ∃ ns, f a = before ++ ns ∧ Row u ns

namespace Rows

variable {L : Language α} {M : α → Language β} {before : List Node} {s : α → List Node}
  {t : β → List Node}

protected theorem none : Rows [] L fun _ => [] := fun _ _ _ => ⟨[], rfl, .nil⟩

protected theorem pure {a : α} (h : s a = before) : Rows before (pure a : Language α) s := by
  intro u b hu
  obtain ⟨-, rfl⟩ := hu
  exact ⟨[], by rw [h, List.append_nil], .nil⟩

protected theorem bind (hL : Rows [] L s) (hM : ∀ a, Rows (before ++ s a) (M a) t) :
    Rows before (L >>= M) t := by
  intro u b hu
  obtain ⟨v, w, a, rfl, hv, hw⟩ := hu
  obtain ⟨ns, hns, hrow⟩ := hL v a hv
  obtain ⟨ms, hms, hrow'⟩ := hM a w b hw
  rw [List.nil_append] at hns
  rw [hns, List.append_assoc] at hms
  exact ⟨ns ++ ms, hms, hrow.append hrow'⟩

protected theorem map {f : α → β} (hL : Rows [] L s) (h : ∀ a, t (f a) = s a) :
    Rows [] (L >>= fun a => pure (f a)) t :=
  hL.bind fun a => Rows.pure (by rw [h, List.nil_append])

protected theorem orElse {N : Language α} (hL : Rows before L s) (hN : Rows before N s) :
    Rows before (L <|> N) s := by
  intro u a hu
  rcases hu with hu | hu
  · exact hL u a hu
  · exact hN u a hu

protected theorem many (hL : Rows [] L s) : Rows [] (many L) fun items => items.flatMap s := by
  intro u items hu
  refine ⟨items.flatMap s, rfl, ?_⟩
  induction hu with
  | nil => exact .nil
  | cons head tail ih =>
    obtain ⟨ns, hns, hrow⟩ := hL _ _ head
    rw [List.nil_append] at hns
    rw [List.flatMap_cons, hns]
    exact hrow.append ih

protected theorem atLeastOne (hL : Rows [] L s) :
    Rows [] (atLeastOne L) fun items => items.flatMap s :=
  hL.bind fun _ => hL.many.bind fun _ => Rows.pure (by simp)

protected theorem separated {S : Language Unit} (hL : Rows [] L s) :
    Rows [] (separated L S) fun items => items.flatMap s := by
  rw [separated_eq]
  have hnil : Rows [] (pure [] : Language (List α)) fun items => items.flatMap s := Rows.pure rfl
  have hafter : Rows [] (S >>= fun _ => L) s := Rows.none.bind fun _ => hL
  exact hnil.orElse (hL.bind fun _ => hafter.many.bind fun _ => Rows.pure (by simp))

protected theorem optional (hL : Rows [] L s) : Rows [] (optional L) fun x => x.elim [] s := by
  intro u x hu
  cases x with
  | none => exact ⟨[], rfl, .nil⟩
  | some a => exact hL u a hu

protected theorem bracketed (hL : Rows [] L s) : Rows [] (bracketed L) s :=
  Rows.none.bind fun _ => hL.bind fun _ => Rows.none.bind fun _ => Rows.pure (by simp)

protected theorem trailed (hL : Rows [] L s) : Rows [] (trailed L) s :=
  hL.bind fun _ => Rows.none.bind fun _ => Rows.pure (by simp)

/-- What is located is a node by itself. -/
protected theorem own {f : Located α → Node} (h : ∀ v x, located L v x → (f x).On v) :
    Rows [] (located L) fun x => [f x] :=
  fun u x hu => ⟨[f x], rfl, .single (h u x hu)⟩

theorem row (h : Rows [] L s) {u : List Lexeme} {a : α} (hu : L u a) : Row u (s a) := by
  obtain ⟨ns, hns, hrow⟩ := h u a hu
  rw [hns]
  exact hrow

end Rows

theorem arrayType_rows : Rows [] (arrayType dataType) DataType.children := by
  have hsize : Rows [] (located arraySize) fun x => [.arraySize x] := Rows.own fun _ _ h => h
  have helement : Rows [] (located dataType) fun x => [.dataType x] := Rows.own fun _ _ h => h
  refine Rows.none.bind fun _ => hsize.separated.bracketed.optional.bind fun sizes =>
    Rows.none.bind fun _ => helement.bind fun _ => Rows.pure ?_
  cases sizes with
  | none => rfl
  | some sizes => simp [DataType.children, List.map_eq_flatMap]

theorem nameOrPosition_rows : Rows [] nameOrPosition DataType.children := by
  intro u t hu
  obtain ⟨s, ⟨_, _, name, rfl, -, _, _, group, rfl, -, rfl, rfl⟩, rfl⟩ := hu
  refine ⟨[], ?_, .nil⟩
  split
  · cases group <;> rfl
  · rfl

theorem dataType_rows : Rows [] dataType DataType.children := by
  have hstring : Rows [] stringType DataType.children :=
    Rows.none.bind fun _ => Rows.none.bind fun _ => Rows.pure rfl
  have hpath : Rows [] pathType DataType.children :=
    Rows.none.bind fun _ => Rows.none.bind fun _ => Rows.none.bind fun _ =>
      Rows.none.bind fun _ => Rows.none.bind fun _ => Rows.pure rfl
  rw [dataType_eq]
  exact hstring.orElse (arrayType_rows.orElse (hpath.orElse nameOrPosition_rows))

theorem userType_rows : Rows [] userType UserType.children := by
  have hfield : Rows [] (located field) fun x => [.field x] := Rows.own fun _ _ h => h
  have hrecord : Rows [] recordType UserType.children :=
    Rows.none.bind fun _ => hfield.trailed.atLeastOne.bind fun _ => Rows.none.bind fun _ =>
      Rows.pure (by simp [UserType.children, List.map_eq_flatMap])
  exact hrecord.orElse (dataType_rows.map fun _ => rfl)

theorem Row.of_on (h : n.On v) : Row v n.children := by
  cases n with
  | typeDeclaration x =>
    have huser : Rows [] (located userType) fun x => [.userType x] := Rows.own fun _ _ h => h
    have hrows : Rows [] typeDeclaration fun d => [.userType d.userType] :=
      Rows.none.bind fun _ => Rows.none.bind fun _ => Rows.none.bind fun _ =>
        huser.bind fun _ => Rows.pure rfl
    exact hrows.row h.1
  | userType x => exact userType_rows.row h.1
  | field x =>
    have hdata : Rows [] (located dataType) fun x => [.dataType x] := Rows.own fun _ _ h => h
    have hrows : Rows [] field fun f => [.dataType f.dataType] :=
      Rows.none.bind fun _ => Rows.none.bind fun _ => hdata.bind fun _ => Rows.pure rfl
    exact hrows.row h.1
  | dataType x => exact dataType_rows.row h.1
  | arraySize x => exact .nil
  | constant x =>
    have hvalue : Rows [] (located value) fun x => [.value x] := Rows.own fun _ _ h => h
    have hrows : Rows [] constant fun c => [.value c.value] :=
      Rows.none.bind fun _ => Rows.none.bind fun _ => hvalue.bind fun _ => Rows.pure rfl
    exact hrows.row h.1
  | value x => exact .nil

/-- What is told of each section is told of all together, if `f` goes through them in order. -/
theorem sections_rows {f : Declarations → List Node} (hnil : f ∅ = [])
    (happend : ∀ d e, f (d ++ e) = f d ++ f e) (htypes : Rows [] typeSection f)
    (hconstants : Rows [] constantSection f) : Rows [] sections fun s => f (.join s) := by
  have hjoin (s : List Declarations) : f (.join s) = s.flatMap f := by
    induction s with
    | nil => exact hnil
    | cons d s ih => rw [Declarations.join_cons, happend, ih, List.flatMap_cons]
  intro u s hs
  beta_reduce
  rw [hjoin]
  exact (htypes.orElse hconstants).many u s hs

theorem types_rows :
    Rows [] sections fun s => (Declarations.join s).types.map .typeDeclaration := by
  have hown : Rows [] (located typeDeclaration) fun x => [.typeDeclaration x] :=
    Rows.own fun _ _ h => h
  refine sections_rows (f := fun d => d.types.map .typeDeclaration) rfl (by simp) ?_ ?_
  · exact Rows.none.bind fun _ => hown.trailed.many.bind fun _ =>
      Rows.pure (by simp [List.map_eq_flatMap])
  · exact Rows.none.bind fun _ => Rows.none.bind fun _ => Rows.pure rfl

theorem constants_rows :
    Rows [] sections fun s => (Declarations.join s).constants.map .constant := by
  have hown : Rows [] (located constant) fun x => [.constant x] := Rows.own fun _ _ h => h
  refine sections_rows (f := fun d => d.constants.map .constant) rfl (by simp) ?_ ?_
  · exact Rows.none.bind fun _ => Rows.none.bind fun _ => Rows.pure rfl
  · exact Rows.none.bind fun _ => hown.trailed.many.bind fun _ =>
      Rows.pure (by simp [List.map_eq_flatMap])

theorem Row.of_whole {α : Type} {L : Language α} {f : Located α → Tree} {g : Located α → Node}
    {t : Tree} {row : List Node} (hon : ∀ v x, located L v x → (g x).On v)
    (hrows : ∀ x, (f x).rows = [[g x]]) (h : (located L >>= fun x => pure (f x)).whole u t)
    (hrow : row ∈ t.rows) : Row u row := by
  obtain ⟨before, w, _, rfl, -, hw⟩ := h
  obtain ⟨v, after, rfl, hv, -⟩ := Outlined.trailed_iff.mp hw
  obtain ⟨x, hx, rfl⟩ := bind_pure_iff.mp hv
  rw [hrows, List.mem_singleton] at hrow
  rw [hrow]
  exact ((Row.single (hon v x hx)).append (.nil (u := after))).right before

theorem Row.of_tree {entry : Entry} {t : Tree} (h : entry.language u t) {row : List Node}
    (hrow : row ∈ t.rows) : Row u row := by
  cases entry with
  | declarations =>
    obtain ⟨before, w, _, rfl, -, hw⟩ := h
    obtain ⟨s, hs, rfl⟩ := bind_pure_iff.mp hw
    simp only [Tree.rows, List.mem_cons, List.not_mem_nil, or_false] at hrow
    rcases hrow with rfl | rfl
    · exact (types_rows.row hs).right before
    · exact (constants_rows.row hs).right before
  | typeDeclaration =>
    exact Row.of_whole (g := .typeDeclaration) (fun _ _ h => h) (fun _ => rfl) h hrow
  | userType =>
    exact Row.of_whole (g := .userType) (fun _ _ h => h) (fun _ => rfl) h hrow
  | dataType =>
    exact Row.of_whole (g := .dataType) (fun _ _ h => h) (fun _ => rfl) h hrow
  | constant =>
    exact Row.of_whole (g := .constant) (fun _ _ h => h) (fun _ => rfl) h hrow
  | value =>
    exact Row.of_whole (g := .value) (fun _ _ h => h) (fun _ => rfl) h hrow

end Language

namespace Rising

variable {u : List Lexeme} {f l m : Lexeme}

theorem start_le (h : Rising u) (hf : u.head? = some f) (hm : m ∈ u) :
    f.range.start ≤ m.range.start := by
  obtain ⟨rest, rfl⟩ := List.head?_eq_some_iff.mp hf
  rcases List.mem_cons.mp hm with rfl | hm
  · exact Position.le_refl _
  · have hfirst := Position.le_of_lt (h.nonempty f (List.mem_cons_self ..))
    exact Position.le_trans hfirst (List.rel_of_pairwise_cons h.apart hm)

theorem le_stop (h : Rising u) (hl : u.getLast? = some l) (hm : m ∈ u) :
    m.range.stop ≤ l.range.stop := by
  obtain ⟨front, rfl⟩ := List.getLast?_eq_some_iff.mp hl
  have hlast := Position.le_of_lt (h.nonempty l (by simp))
  rcases List.mem_append.mp hm with hm | hm
  · have hapart := (List.pairwise_append.mp h.apart).2.2 m hm l (List.mem_singleton_self l)
    exact Position.le_trans hapart hlast
  · rw [List.mem_singleton.mp hm]
    exact Position.le_refl _

/-- Only one lexeme begins at a place, and only one ends there. -/
theorem eq_of_edge (h : Rising u) (hl : l ∈ u) (hm : m ∈ u)
    (hedge : l.range.start = m.range.start ∨ l.range.stop = m.range.stop) : l = m := by
  obtain ⟨x, y, rfl⟩ := List.append_of_mem hm
  have hmy : m ∈ m :: y := List.mem_cons_self ..
  rcases List.mem_append.mp hl with hl | hl
  · exact absurd hedge (not_or.mpr ⟨h.start_ne hl hmy, h.stop_ne hl hmy⟩)
  · rcases List.mem_cons.mp hl with rfl | hl
    · rfl
    · have hsplit : Rising ([m] ++ y) := h.right
      have hmm := List.mem_singleton_self m
      exact absurd hedge (not_or.mpr
        ⟨(hsplit.start_ne hmm hl).symm, (hsplit.stop_ne hmm hl).symm⟩)

end Rising

namespace Node
open KarelKit.Language

variable {u v : List Lexeme} {n : Node} {ns : List Node}

theorem range_eq_span (h : n.On v) : n.range = span v := by
  cases n <;> exact h.2

theorem exists_head (h : n.On v) : ∃ f, v.head? = some f ∧ f.node.isComment = false := by
  cases n with
  | typeDeclaration =>
    exact head_of_outlined (Grammar.typeDeclaration_parses (n := 0)).outlined rfl (by decide) h.1
  | userType =>
    exact head_of_outlined (Grammar.userType_parses (n := 0)).outlined rfl (by decide) h.1
  | field => exact head_of_outlined (Grammar.field_parses (n := 0)).outlined rfl (by decide) h.1
  | dataType =>
    exact head_of_outlined (Grammar.dataType_parses (n := 0)).outlined rfl (by decide) h.1
  | arraySize =>
    exact head_of_outlined (Grammar.arraySize_parses (n := 0)).outlined rfl (by decide) h.1
  | constant =>
    exact head_of_outlined (Grammar.constant_parses (n := 0)).outlined rfl (by decide) h.1
  | value => exact head_of_outlined (Grammar.value_parses (n := 0)).outlined rfl (by decide) h.1

/-- A node begins and ends with lexemes of its own that are no comments. -/
theorem exists_frame (hrising : Rising v) (h : n.On v) : ∃ f l, v.head? = some f ∧
    (solid v).getLast? = some l ∧ f ∈ solid v ∧ n.range = ⟨f.range.start, l.range.stop⟩ := by
  obtain ⟨f, hf, hcomment⟩ := exists_head h
  have hmem : f ∈ solid v := mem_solid.mpr ⟨List.mem_of_head? hf, hcomment⟩
  obtain ⟨l, hl⟩ := exists_getLast? (List.ne_nil_of_mem hmem)
  exact ⟨f, l, hf, hl, hmem, by rw [range_eq_span h, span_eq hrising hf hl]⟩

/-- What ends where `b` begins at the latest. -/
def Before (a b : Node) : Prop := a.range.stop ≤ b.range.start

theorem pairwise_before (hrising : Rising u) (h : Row u ns) : ns.Pairwise Before := by
  induction h with
  | nil => exact .nil
  | @cons x v w n ns hv hw ih =>
    have hafter := hrising.right (u := x)
    refine List.pairwise_cons.mpr ⟨fun m hm => ?_, ih hafter.right⟩
    obtain ⟨y, v', z, rfl, hm⟩ := hw.exists_of_mem hm
    -- the one stops with its last token, the other starts with its first lexeme, and these rise
    obtain ⟨_, l, -, hl, -, hnrange⟩ := exists_frame hafter.left hv
    obtain ⟨f, _, hf, -, -, hmrange⟩ := exists_frame hafter.right.right.left hm
    have hlv : l ∈ v := mem_of_getLast?_solid hl
    have hfv : f ∈ y ++ (v' ++ z) :=
      List.mem_append_right y (List.mem_append_left z (List.mem_of_head? hf))
    rw [Before, hnrange, hmrange]
    exact (List.pairwise_append.mp hafter.apart).2.2 l hlv f hfv

/-- How a node stands in a text. Its range runs from the first of its lexemes to the last that is no
comment, as they stand in the text: `Range.between` has had nothing to move. -/
structure Stands (text : List Lexeme) (n : Node) : Prop where
  framed : ∃ x v y f l, text = x ++ (v ++ y) ∧ n.On v ∧ v.head? = some f ∧
    (solid v).getLast? = some l ∧ n.range = ⟨f.range.start, l.range.stop⟩
  nonempty : n.range.start < n.range.stop
  inside : ∀ m ∈ n.children, n.range.start ≤ m.range.start ∧ m.range.stop ≤ n.range.stop
  ordered : n.children.Pairwise Before
  solid_edges : ∀ l ∈ text, l.node.isComment = true →
    l.range.start ≠ n.range.start ∧ l.range.stop ≠ n.range.stop

theorem inside_of_on (hrising : Rising v) (h : n.On v) {m : Node} (hm : m ∈ n.children) :
    n.range.start ≤ m.range.start ∧ m.range.stop ≤ n.range.stop := by
  obtain ⟨x, w, y, rfl, hw⟩ := (Row.of_on h).exists_of_mem hm
  obtain ⟨f, l, hf, hl, -, hrange⟩ := exists_frame hrising h
  obtain ⟨f', l', hf', hl', -, hrange'⟩ := exists_frame hrising.right.left hw
  have hfmem : f' ∈ x ++ (w ++ y) :=
    List.mem_append_right x (List.mem_append_left y (List.mem_of_head? hf'))
  have hlmem : l' ∈ solid (x ++ (w ++ y)) := by
    rw [solid_append, solid_append]
    exact List.mem_append_right _ (List.mem_append_left _ (List.mem_of_getLast? hl'))
  rw [hrange, hrange']
  exact ⟨hrising.start_le hf hfmem, (rising_solid hrising).le_stop hl hlmem⟩

theorem stands_of_on {x y : List Lexeme} (hrising : Rising (x ++ (v ++ y))) (h : n.On v) :
    n.Stands (x ++ (v ++ y)) := by
  have hown : Rising v := hrising.right.left
  obtain ⟨f, l, hf, hl, hfsolid, hrange⟩ := exists_frame hown h
  have hlsolid := List.mem_of_getLast? hl
  have hmem {m : Lexeme} (hm : m ∈ solid v) : m ∈ x ++ (v ++ y) :=
    List.mem_append_right x (List.mem_append_left y (mem_solid.mp hm).1)
  refine ⟨⟨x, v, y, f, l, rfl, h, hf, hl, hrange⟩, ?_, fun m hm => inside_of_on hown h hm,
    pairwise_before hown (Row.of_on h), ?_⟩
  · rw [hrange]
    exact Position.lt_of_lt_of_le (hown.nonempty f (List.mem_of_head? hf))
      ((rising_solid hown).le_stop hl hfsolid)
  · -- a comment at an edge would be the lexeme there, which is none
    intro c hc hcomment
    have hne {m : Lexeme} (hm : m ∈ solid v) (hedge : c.range.start = m.range.start ∨
        c.range.stop = m.range.stop) : False := by
      have hplain := (mem_solid.mp hm).2
      rw [← hrising.eq_of_edge hc (hmem hm) hedge, hcomment] at hplain
      contradiction
    rw [hrange]
    exact ⟨fun heq => hne hfsolid (Or.inl heq), fun heq => hne hlsolid (Or.inr heq)⟩

end Node

theorem Tree.Has.exists_on {entry : Entry} {u : List Lexeme} {t : Tree} {n : Node}
    (h : entry.language u t) (hn : t.Has n) : ∃ x v y, u = x ++ (v ++ y) ∧ n.On v := by
  induction hn with
  | root hrow hn => exact (Language.Row.of_tree h hrow).exists_of_mem hn
  | child _ hm ih =>
    obtain ⟨x, v, y, rfl, hv⟩ := ih
    obtain ⟨x', v', y', rfl, hv'⟩ := (Language.Row.of_on hv).exists_of_mem hm
    exact ⟨x ++ x', v', y' ++ y, by simp, hv'⟩

/-- In an accepted text every node's range runs from a token of its own to another, around the
ranges of the nodes below it; nodes in a list come one after the other. -/
theorem ranges_nested {entry : Entry} {source : String} {text : Lexed} {t : Tree}
    (hlex : lex source = .ok text) (h : parse entry source = .ok t) :
    (∀ row ∈ t.rows, row.Pairwise Node.Before) ∧ ∀ n, t.Has n → n.Stands text.lexemes := by
  have hrising := rising_of_lex hlex
  have hlanguage := (parse_eq_ok_iff hlex).mp h
  refine ⟨fun row hrow => Node.pairwise_before hrising (Language.Row.of_tree hlanguage hrow), ?_⟩
  intro n hn
  obtain ⟨x, v, y, htext, hv⟩ := hn.exists_on hlanguage
  rw [htext] at hrising ⊢
  exact Node.stands_of_on hrising hv

theorem ranges_nested_sections : ∃ text t, lex "type t = array of -- c\nk\nconst a = 1" = .ok text ∧
    parse .declarations "type t = array of -- c\nk\nconst a = 1" = .ok t ∧
    t.Has (.dataType ⟨.named "k" none, ⟨⟨2, 1⟩, ⟨2, 2⟩⟩⟩) ∧
    Node.Stands text.lexemes (.dataType ⟨.named "k" none, ⟨⟨2, 1⟩, ⟨2, 2⟩⟩⟩) := by
  obtain ⟨hlex, hparse, -⟩ := parse_sections
  refine ⟨_, _, hlex, hparse, ?_, (ranges_nested hlex hparse).2 _ ?_⟩
  all_goals
    refine .child (.child (.root (List.mem_cons_self ..) (List.mem_cons_self ..))
      (List.mem_cons_self ..)) ?_
    simp [Node.children, UserType.children, DataType.children]

end KarelKit
