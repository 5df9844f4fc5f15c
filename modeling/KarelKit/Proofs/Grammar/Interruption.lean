import KarelKit.Proofs.Declaration.Settle
import KarelKit.Proofs.Grammar.Declarations

namespace KarelKit

/-- Like `Grammar.namesPosition`, but with a comment in the third place. -/
def hidesPosition : List Lexeme → Bool
  | first :: second :: third :: _ =>
    first.node.name?.isSome && second.node.isKeyword .IN && third.node.isComment
  | _ => false

/-- Somewhere a position type is hidden. -/
def interrupted : List Lexeme → Bool
  | [] => false
  | l :: u => hidesPosition (l :: u) || interrupted u

theorem hidesPosition_eq_false {l : Lexeme} {u : List Lexeme}
    (h : ∀ m ∈ u.head?, m.node.isKeyword .IN = false) : hidesPosition (l :: u) = false := by
  match u with
  | [] => rfl
  | [_] => rfl
  | m :: _ :: _ => simp [hidesPosition, h m rfl]

theorem interrupted_append {u v : List Lexeme}
    (hu : ∀ l ∈ u.getLast?, l.node.isKeyword .IN = false)
    (hv : ∀ l ∈ v.head?, l.node.isKeyword .IN = false) :
    interrupted (u ++ v) = (interrupted u || interrupted v) := by
  induction u with
  | nil => rfl
  | cons l u ih =>
    -- three lexemes across the seam have the keyword at its left end or at its right
    have hseam : hidesPosition (l :: (u ++ v)) = hidesPosition (l :: u) := by
      match u with
      | [] =>
        rw [List.nil_append, hidesPosition_eq_false hv]
        rfl
      | [m] =>
        have hm : m.node.isKeyword .IN = false := hu m rfl
        rw [hidesPosition_eq_false (by simpa using hm), hidesPosition_eq_false (by simpa using hm)]
      | _ :: _ :: _ => rfl
    have hrest : ∀ m ∈ u.getLast?, m.node.isKeyword .IN = false := by
      intro m hm
      apply hu m
      cases u with
      | nil => contradiction
      | cons _ _ => exact hm
    rw [List.cons_append, interrupted, interrupted, hseam, ih hrest, Bool.or_assoc]

/-- Neither end of the lexemes is that of a motion group, and a position type is hidden among them
unless they are `settled`. -/
structure Sealed (u : List Lexeme) (settled : Bool) : Prop where
  head : ∀ l ∈ u.head?, l.node.isKeyword .IN = false
  last : ∀ l ∈ u.getLast?, l.node.isKeyword .IN = false
  interrupted_eq : interrupted u = !settled

namespace Sealed

theorem of_forall {u : List Lexeme} (h : ∀ l ∈ u, l.node.isKeyword .IN = false) :
    Sealed u true := by
  refine ⟨?_, ?_, ?_⟩
  · intro l hl
    exact h l (List.mem_of_mem_head? hl)
  · intro l hl
    exact h l (List.mem_of_mem_getLast? hl)
  · induction u with
    | nil => rfl
    | cons l u ih =>
      have hu : ∀ m ∈ u, m.node.isKeyword .IN = false := fun m hm =>
        h m (List.mem_cons_of_mem l hm)
      rw [interrupted, ih hu, hidesPosition_eq_false fun m hm => hu m (List.mem_of_mem_head? hm)]
      rfl

protected theorem append {u v : List Lexeme} {s t : Bool} (hu : Sealed u s) (hv : Sealed v t) :
    Sealed (u ++ v) (s && t) := by
  refine ⟨?_, ?_, ?_⟩
  · intro l hl
    rw [List.head?_append, Option.mem_def, Option.or_eq_some_iff] at hl
    rcases hl with hl | ⟨-, hl⟩
    · exact hu.head l hl
    · exact hv.head l hl
  · intro l hl
    rw [List.getLast?_append, Option.mem_def, Option.or_eq_some_iff] at hl
    rcases hl with hl | ⟨-, hl⟩
    · exact hv.last l hl
    · exact hu.last l hl
  · rw [interrupted_append hu.last hv.head, hu.interrupted_eq, hv.interrupted_eq, Bool.not_and]

end Sealed

namespace Language

variable {α β : Type}

/-- After parts that are settled as `before` says, sentences make the whole settled as their values
do. -/
def Seals (before : Bool) (L : Language α) (settled : α → Bool) : Prop :=
  ∀ u a, L u a → ∃ part, Sealed u part ∧ settled a = (before && part)

namespace Seals

variable {L : Language α} {M : α → Language β} {before : Bool} {s : α → Bool} {t : β → Bool}

theorem elim (h : L.Seals true s) {u : List Lexeme} {a : α} (hu : L u a) : Sealed u (s a) := by
  obtain ⟨part, hpart, heq⟩ := h u a hu
  rwa [heq, Bool.true_and]

theorem intro (h : ∀ u a, L u a → Sealed u (s a)) : L.Seals true s := fun u a hu =>
  ⟨s a, h u a hu, (Bool.true_and _).symm⟩

protected theorem pure {a : α} (h : s a = before) : (pure a : Language α).Seals before s := by
  intro u b hu
  obtain ⟨rfl, rfl⟩ := hu
  refine ⟨true, Sealed.of_forall fun l hl => by contradiction, ?_⟩
  rw [h, Bool.and_true]

protected theorem bind (hL : L.Seals true s) (hM : ∀ a, (M a).Seals (before && s a) t) :
    (L >>= M).Seals before t := by
  intro u b hu
  obtain ⟨v, w, a, rfl, hv, hw⟩ := hu
  obtain ⟨part, hpart, heq⟩ := hM a w b hw
  refine ⟨s a && part, (hL.elim hv).append hpart, ?_⟩
  rw [heq, Bool.and_assoc]

protected theorem map (hL : L.Seals true s) {f : α → β} (h : ∀ a, t (f a) = s a) :
    (L >>= fun a => pure (f a)).Seals true t :=
  hL.bind fun a => Seals.pure (by rw [h, Bool.true_and])

protected theorem orElse {M : Language α} (hL : L.Seals true s) (hM : M.Seals true s) :
    (L <|> M).Seals true s := by
  apply intro
  intro u a hu
  rcases hu with hu | hu
  · exact hL.elim hu
  · exact hM.elim hu

protected theorem one {read : Token → Option α}
    (h : ∀ t a, read t = some a → t.terminal ≠ .keyword .IN) :
    (one read).Seals true fun _ => true := by
  apply intro
  intro u a hu
  obtain ⟨l, rfl, hl⟩ := hu
  apply Sealed.of_forall
  intro m hm
  rw [List.mem_singleton.mp hm, Bool.eq_false_iff]
  intro hin
  exact h _ _ hl (Token.terminal_of_isKeyword hin)

theorem one_of_outlined {read : Token → Option α} {o : Outline} (h : (one read).Outlined o)
    (ho : .keyword .IN ∉ o.first) : (one read).Seals true fun _ => true := by
  apply Seals.one
  intro t a ht hin
  apply ho
  rw [← hin]
  exact h.first (l := ⟨t, .between .first .first⟩) ⟨[], a, _, rfl, ht⟩

protected theorem comments : comments.Seals true fun _ => true := by
  apply intro
  intro u a hu
  exact Sealed.of_forall fun l hl => Token.isKeyword_of_isComment (hu l hl)

protected theorem optional (hL : L.Seals true fun _ => true) :
    (optional L).Seals true fun _ => true := by
  apply intro
  intro u a hu
  cases a with
  | none =>
    obtain rfl : u = [] := hu
    exact Sealed.of_forall fun l hl => by contradiction
  | some a => exact hL.elim hu

protected theorem many (hL : L.Seals true s) : (many L).Seals true fun items => items.all s := by
  apply intro
  intro u items hu
  induction hu with
  | nil => exact Sealed.of_forall fun l hl => by contradiction
  | cons head _ ih => exact (hL.elim head).append ih

protected theorem congr (h : L.Seals true s) {s' : α → Bool} (hs : ∀ a, s a = s' a) :
    L.Seals true s' := by
  rwa [← funext hs]

theorem many_plain (hL : L.Seals true fun _ => true) : (many L).Seals true fun _ => true :=
  hL.many.congr fun _ => List.all_eq_true.mpr fun _ _ => rfl

protected theorem atLeastOne (hL : L.Seals true s) :
    (atLeastOne L).Seals true fun items => items.all s :=
  hL.bind fun _ => hL.many.bind fun _ => Seals.pure rfl

protected theorem separated {S : Language Unit} (hL : L.Seals true fun _ => true)
    (hS : S.Seals true fun _ => true) : (separated L S).Seals true fun _ => true := by
  have hitem : (S >>= fun _ => L).Seals true fun _ => true := hS.bind fun _ => hL
  apply hL.optional.bind
  intro item
  cases item with
  | none => exact Seals.pure rfl
  | some item => exact hitem.many_plain.bind fun _ => Seals.pure rfl

protected theorem located (hL : L.Seals true s) : (located L).Seals true fun x => s x.node :=
  intro fun _ _ hu => hL.elim hu.1

protected theorem trailed (hL : L.Seals true s) : (trailed L).Seals true s :=
  hL.bind fun _ => Seals.comments.bind fun _ => Seals.pure (by simp)

protected theorem whole (hL : L.Seals true s) : L.whole.Seals true s :=
  Seals.comments.bind fun _ => hL.trailed

protected theorem keyword {k : Keyword} (hk : k ≠ .IN) :
    (keyword k).Seals true fun _ => true := by
  refine (Seals.one ?_).bind fun _ => Seals.comments
  intro t a ht hin
  by_cases hkeyword : t.isKeyword k = true
  · rw [Token.terminal_of_isKeyword hkeyword] at hin
    exact hk (Terminal.keyword.inj hin)
  · rw [if_neg hkeyword] at ht
    contradiction

protected theorem mark (m : Mark) : (mark m).Seals true fun _ => true := by
  refine (Seals.one ?_).bind fun _ => Seals.comments
  intro t a ht hin
  by_cases hmark : t = .mark m
  · rw [hmark] at hin
    contradiction
  · rw [if_neg hmark] at ht
    contradiction

protected theorem name : name.Seals true fun _ => true :=
  one_of_outlined (Rule.Parses.name (n := 0)).outlined (by decide)

protected theorem unsigned : unsigned.Seals true fun _ => true :=
  one_of_outlined (Rule.Parses.unsigned (n := 0)).outlined (by decide)

protected theorem bracketed (hL : L.Seals true fun _ => true) :
    (bracketed L).Seals true fun _ => true :=
  (Seals.mark _).bind fun _ => hL.bind fun _ => (Seals.mark _).bind fun _ => Seals.pure rfl

end Seals

open Grammar

theorem value_seals : value.Seals true fun _ => true := by
  have hcomponent : (do mark .dot; name).Seals true fun _ => true :=
    (Seals.mark _).bind fun _ => Seals.name
  have hreference : reference.Seals true fun _ => true :=
    Seals.name.bind fun _ => hcomponent.many_plain.bind fun _ => Seals.pure rfl
  have hnumber := Seals.one_of_outlined (number_parses (n := 0)).outlined (by decide)
  have hquoted := Seals.one_of_outlined (quoted_parses (n := 0)).outlined (by decide)
  have hboolean := Seals.one_of_outlined (boolean_parses (n := 0)).outlined (by decide)
  exact hnumber.orElse (hquoted.orElse (hboolean.orElse hreference))

theorem constant_seals : constant.Seals true fun _ => true :=
  Seals.name.bind fun _ => (Seals.mark _).bind fun _ => value_seals.located.bind fun _ =>
    Seals.pure rfl

theorem exists_of_keyword {k : Keyword} {u : List Lexeme} {a : Unit} (h : keyword k u a) :
    ∃ l v, u = l :: v ∧ l.node.isKeyword k = true ∧ comments v () := by
  obtain ⟨_, v, _, rfl, ⟨l, rfl, hl⟩, hv⟩ := h
  refine ⟨l, v, rfl, ?_, hv⟩
  by_cases hk : l.node.isKeyword k = true
  · exact hk
  · simp [hk] at hl

theorem exists_of_group {u : List Lexeme} {g : Nat} (h : group u g) :
    ∃ second third rest, u = second :: third :: rest ∧ second.node.isKeyword .IN = true ∧
      (third.node.isComment = true ∨ third.node.isKeyword .GROUP = true) ∧
      Sealed (third :: rest) true := by
  obtain ⟨v, w, _, rfl, hin, hw⟩ := h
  obtain ⟨second, v, rfl, hsecond, hv⟩ := exists_of_keyword hin
  have hrest : Sealed (v ++ w) true := by
    apply (Seals.comments.elim hv).append
    have hsize : (do keyword .GROUP; bracketed unsigned).Seals true fun _ => true :=
      (Seals.keyword (by decide)).bind fun _ => Seals.unsigned.bracketed
    exact hsize.elim hw
  obtain ⟨v', w', _, rfl, hgroup, -⟩ := hw
  obtain ⟨l, v', rfl, hl, -⟩ := exists_of_keyword hgroup
  cases v with
  | nil => exact ⟨second, l, v' ++ w', rfl, hsecond, Or.inr hl, hrest⟩
  | cons m v =>
    exact ⟨second, m, v ++ (l :: v' ++ w'), rfl, hsecond, Or.inl (hv m (List.mem_cons_self ..)),
      hrest⟩

theorem interrupted_of_group {first second third : Lexeme} {rest : List Lexeme}
    (hsecond : second.node.isKeyword .IN = true) (hrest : Sealed (third :: rest) true) :
    interrupted (first :: second :: third :: rest) =
      (first.node.name?.isSome && third.node.isComment) := by
  rw [interrupted, interrupted, hidesPosition_eq_false hrest.head, hrest.interrupted_eq]
  simp [hidesPosition, hsecond]

theorem namedGroup_isSettled {first second third : Lexeme} {rest : List Lexeme} {name : String}
    {g : Nat} (hfirst : first.node.typeName? = some name)
    (hsecond : second.node.isKeyword .IN = true)
    (hthird : third.node.isComment = true ∨ third.node.isKeyword .GROUP = true) :
    (if namesPosition (first :: second :: third :: rest) then
      (DataType.named name (some g)).asPosition else .named name (some g)).isSettled =
        !(first.node.name?.isSome && third.node.isComment) := by
  obtain ⟨hword, hname⟩ := Token.typeName?_eq_some hfirst
  have hapart : third.node.isKeyword .GROUP = !third.node.isComment := by
    rcases hthird with hthird | hthird
    · rw [hthird, Token.isKeyword_of_isComment hthird, Bool.not_true]
    · rw [hthird, Token.isComment_of_isKeyword hthird, Bool.not_false]
  have hsome : first.node.name?.isSome = !isBuiltinType name := by
    rw [hword, Token.name?]
    rcases hname with hname | hname
    · simp [hname, Token.isBuiltinType_of_not_isReserved hname]
    · simp [hname, isReserved]
  rw [namesPosition, hsecond, hapart, hsome, Bool.and_true]
  cases hbuiltin : isBuiltinType name <;> cases third.node.isComment <;>
    simp [DataType.asPosition, DataType.isSettled, hbuiltin]

theorem nameOrPosition_seals : nameOrPosition.Seals true DataType.isSettled := by
  apply Seals.intro
  intro u t ht
  obtain ⟨s, ⟨v, w, name, rfl, ⟨first, rfl, hfirst⟩, hw⟩, rfl⟩ := ht
  obtain ⟨g, hg, rfl⟩ := bind_pure_iff.mp hw
  have hhead : first.node.isKeyword .IN = false := by
    rw [Bool.eq_false_iff]
    intro hin
    have hterminal := Token.terminal_of_typeName? hfirst
    rw [Token.terminal_of_isKeyword hin] at hterminal
    revert hterminal
    decide
  cases g with
  | none =>
    obtain rfl : w = [] := hg
    exact Sealed.of_forall fun l hl => List.mem_singleton.mp hl ▸ hhead
  | some g =>
    -- what follows the group's first keyword is settled by itself
    obtain ⟨second, third, rest, rfl, hsecond, hthird, hrest⟩ := exists_of_group hg
    rw [List.singleton_append, namedGroup_isSettled hfirst hsecond hthird]
    refine ⟨?_, ?_, ?_⟩
    · intro l hl
      cases hl
      exact hhead
    · intro l hl
      exact hrest.last l (by simpa using hl)
    · rw [interrupted_of_group hsecond hrest, Bool.not_not]

theorem stringType_seals : stringType.Seals true DataType.isSettled :=
  (Seals.keyword (by decide)).bind fun _ => Seals.unsigned.bracketed.bind fun _ => Seals.pure rfl

theorem pathType_seals : pathType.Seals true DataType.isSettled := by
  have hheader : pathHeader.Seals true fun _ => true :=
    (Seals.keyword (by decide)).bind fun _ => (Seals.mark _).bind fun _ =>
      Seals.name.bind fun _ => (Seals.mark _).bind fun _ => Seals.pure rfl
  exact (Seals.keyword (by decide)).bind fun _ => hheader.optional.bind fun _ =>
    (Seals.keyword (by decide)).bind fun _ => (Seals.mark _).bind fun _ =>
      Seals.name.bind fun _ => Seals.pure rfl

theorem arrayType_seals {element : Language DataType} (h : element.Seals true DataType.isSettled) :
    (arrayType element).Seals true DataType.isSettled := by
  have hsize : arraySize.Seals true fun _ => true :=
    Seals.one_of_outlined (arraySize_parses (n := 0)).outlined (by decide)
  have hsizes := (hsize.located.separated (Seals.mark .comma)).bracketed.optional
  exact (Seals.keyword (by decide)).bind fun _ => hsizes.bind fun _ =>
    (Seals.keyword (by decide)).bind fun _ => h.located.bind fun _ => Seals.pure rfl

theorem dataTypeTo_seals (depth : Nat) : (dataTypeTo depth).Seals true DataType.isSettled := by
  induction depth with
  | zero => exact stringType_seals.orElse (pathType_seals.orElse nameOrPosition_seals)
  | succ depth ih =>
    exact stringType_seals.orElse
      ((arrayType_seals ih).orElse (pathType_seals.orElse nameOrPosition_seals))

theorem dataType_seals : dataType.Seals true DataType.isSettled := by
  apply Seals.intro
  intro u t ht
  obtain ⟨depth, ht⟩ := ht
  exact (dataTypeTo_seals depth).elim ht

theorem userType_seals : userType.Seals true UserType.isSettled := by
  have hfield : field.Seals true fun f => f.dataType.node.isSettled :=
    Seals.name.bind fun _ => (Seals.mark _).bind fun _ => dataType_seals.located.bind fun _ =>
      Seals.pure rfl
  have hrecord : recordType.Seals true UserType.isSettled :=
    (Seals.keyword (by decide)).bind fun _ => hfield.located.trailed.atLeastOne.bind fun _ =>
      (Seals.keyword (by decide)).bind fun _ => Seals.pure (by simp [UserType.isSettled])
  exact hrecord.orElse (dataType_seals.map fun _ => rfl)

theorem typeDeclaration_seals :
    typeDeclaration.Seals true fun d => d.userType.node.isSettled := by
  have hfrom : (do keyword .FROM; name).Seals true fun _ => true :=
    (Seals.keyword (by decide)).bind fun _ => Seals.name
  exact Seals.name.bind fun _ => hfrom.optional.bind fun _ => (Seals.mark _).bind fun _ =>
    userType_seals.located.bind fun _ => Seals.pure rfl

theorem sections_seals : sections.Seals true fun s =>
    s.all fun d => d.types.all (·.node.userType.node.isSettled) := by
  have htypes : typeSection.Seals true fun d => d.types.all (·.node.userType.node.isSettled) :=
    (Seals.keyword (by decide)).bind fun _ => typeDeclaration_seals.located.trailed.many.bind
      fun _ => Seals.pure rfl
  have hconstants : constantSection.Seals true fun d =>
      d.types.all (·.node.userType.node.isSettled) :=
    (Seals.keyword (by decide)).bind fun _ => constant_seals.located.trailed.many_plain.bind
      fun _ => Seals.pure rfl
  exact (htypes.orElse hconstants).many

theorem isSettled_join (sections : List Declarations) :
    (Declarations.join sections).types.all (·.node.userType.node.isSettled) =
      sections.all fun d => d.types.all (·.node.userType.node.isSettled) := by
  induction sections with
  | nil => rfl
  | cons d sections ih =>
    rw [Declarations.join_cons, Declarations.types_append, List.all_append, List.all_cons, ← ih]

end Language

open KarelKit.Language in
theorem Entry.seals (entry : Entry) : entry.language.Seals true Tree.isSettled := by
  cases entry with
  | declarations => exact Seals.comments.bind fun _ => sections_seals.map isSettled_join
  | typeDeclaration => exact Seals.whole (typeDeclaration_seals.located.map fun _ => rfl)
  | userType => exact Seals.whole (userType_seals.located.map fun _ => rfl)
  | dataType => exact Seals.whole (dataType_seals.located.map fun _ => rfl)
  | constant => exact Seals.whole (constant_seals.located.map fun _ => rfl)
  | value => exact Seals.whole (value_seals.located.map fun _ => rfl)

/-- A tree is settled exactly if no position type is hidden in its text. -/
theorem interrupted_of_language {entry : Entry} {u : List Lexeme} {t : Tree}
    (h : entry.language u t) : interrupted u = !t.isSettled :=
  (entry.seals.elim h).interrupted_eq

end KarelKit
