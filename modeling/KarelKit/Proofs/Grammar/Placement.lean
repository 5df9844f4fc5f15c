import KarelKit.Proofs.Declaration.Settle
import KarelKit.Proofs.Grammar.Declarations

namespace KarelKit
namespace Language

variable {α β γ δ : Type} {L L' : Language α} {M M' : α → Language β} {f : α → γ} {g : β → δ}

/-- Lexemes with the tokens of a sentence of `L`, but for comments at its end, are a sentence of
`L'`. The values look the same by `f`. -/
def Alike (f : α → γ) (L L' : Language α) : Prop :=
  ∀ u w v a, L (u ++ w) a → (∀ l ∈ w, l.node.isComment = true) →
    v.map (·.node) = u.map (·.node) → ∃ b, L' v b ∧ f b = f a

namespace Alike

protected theorem pure {a b : α} (h : f b = f a) :
    Alike f (pure a : Language α) (pure b : Language α) := by
  intro u w v c hu _ hv
  obtain ⟨hnil, rfl⟩ := hu
  obtain ⟨rfl, -⟩ := List.append_eq_nil_iff.mp hnil
  exact ⟨b, ⟨List.map_eq_nil_iff.mp hv, rfl⟩, h⟩

protected theorem one {read : Token → Option α}
    (h : ∀ t a, read t = some a → t.isComment = false) : Alike id (one read) (one read) := by
  intro u w v a hu hw hv
  obtain ⟨l, heq, hl⟩ := hu
  rcases List.append_eq_singleton_iff.mp heq with ⟨rfl, rfl⟩ | ⟨rfl, rfl⟩
  · have hcomment := hw l (List.mem_singleton_self l)
    rw [h _ _ hl] at hcomment
    contradiction
  · obtain ⟨m, rfl, hm⟩ := List.map_eq_singleton_iff.mp hv
    exact ⟨a, ⟨m, rfl, hm ▸ hl⟩, rfl⟩

theorem one_of_outlined {read : Token → Option α} {o : Outline}
    (h : (Language.one read).Outlined o) (ho : .comment ∉ o.first) :
    Alike id (Language.one read) (Language.one read) :=
  Alike.one fun _ _ => h.isComment_of_read ho

protected theorem comments : Alike id comments comments := by
  intro u w v a hu _ hv
  refine ⟨(), ?_, rfl⟩
  intro l hl
  have hmem : l.node ∈ u.map (·.node) := hv ▸ List.mem_map_of_mem hl
  obtain ⟨m, hm, heq⟩ := List.mem_map.mp hmem
  rw [← heq]
  exact hu m (List.mem_append_left w hm)

protected theorem bind (hL : Alike f L L') (hM : ∀ a b, f b = f a → Alike g (M a) (M' b)) :
    Alike g (L >>= M) (L' >>= M') := by
  intro u w v c hu hw hv
  obtain ⟨u₁, u₂, a, heq, h₁, h₂⟩ := hu
  rcases List.append_eq_append_iff.mp heq with ⟨s, rfl, rfl⟩ | ⟨s, rfl, rfl⟩
  · -- the comments begin inside of the first part, and nothing else is in the second
    obtain ⟨b, hb, hba⟩ := hL u s v a h₁ (fun l hl => hw l (List.mem_append_left _ hl)) hv
    obtain ⟨d, hd, hdc⟩ := hM a b hba [] u₂ [] c h₂
      (fun l hl => hw l (List.mem_append_right _ hl)) rfl
    have happend := bind_intro hb hd
    rw [List.append_nil] at happend
    exact ⟨d, happend, hdc⟩
  · rw [List.map_append] at hv
    obtain ⟨v₁, v₂, rfl, hv₁, hv₂⟩ := List.map_eq_append_iff.mp hv
    obtain ⟨b, hb, hba⟩ := hL u₁ [] v₁ a (by rwa [List.append_nil]) (by simp) hv₁
    obtain ⟨d, hd, hdc⟩ := hM a b hba s w v₂ c h₂ hw hv₂
    exact ⟨d, bind_intro hb hd, hdc⟩

protected theorem map {h h' : α → β} (hL : Alike f L L')
    (hgf : ∀ a b, f b = f a → g (h' b) = g (h a)) :
    Alike g (L >>= fun a => pure (h a)) (L' >>= fun a => pure (h' a)) :=
  hL.bind fun a b hba => Alike.pure (hgf a b hba)

protected theorem orElse {N N' : Language α} (hL : Alike f L L') (hN : Alike f N N') :
    Alike f (L <|> N) (L' <|> N') := by
  intro u w v a hu hw hv
  rcases hu with hu | hu
  · obtain ⟨b, hb, hba⟩ := hL u w v a hu hw hv
    exact ⟨b, Or.inl hb, hba⟩
  · obtain ⟨b, hb, hba⟩ := hN u w v a hu hw hv
    exact ⟨b, Or.inr hb, hba⟩

protected theorem optional (hL : Alike f L L') :
    Alike (Option.map f) (optional L) (optional L') := by
  intro u w v a hu hw hv
  cases a with
  | none =>
    obtain ⟨rfl, -⟩ := List.append_eq_nil_iff.mp hu
    exact ⟨none, List.map_eq_nil_iff.mp hv, rfl⟩
  | some a =>
    obtain ⟨b, hb, hba⟩ := hL u w v a hu hw hv
    exact ⟨some b, hb, congrArg some hba⟩

theorem exists_depth {N N' : Nat → Language α} (h : ∀ n, Alike f (N n) (N' n)) :
    Alike f (fun u a => ∃ n, N n u a) (fun u a => ∃ n, N' n u a) := by
  intro u w v a hu hw hv
  obtain ⟨n, hu⟩ := hu
  obtain ⟨b, hb, hba⟩ := h n u w v a hu hw hv
  exact ⟨b, ⟨n, hb⟩, hba⟩

protected theorem many (hL : Alike f L L') : Alike (List.map f) (many L) (many L') := by
  rw [many_eq_exists, many_eq_exists]
  apply exists_depth
  intro n
  have hnil : Alike (List.map f) (pure [] : Language (List α)) (pure []) := Alike.pure rfl
  induction n with
  | zero => exact hnil
  | succ n ih =>
    exact hnil.orElse (hL.bind fun _ _ h => ih.bind fun _ _ h' => Alike.pure (by simp [h, h']))

protected theorem atLeastOne (hL : Alike f L L') :
    Alike (List.map f) (atLeastOne L) (atLeastOne L') :=
  hL.bind fun _ _ h => hL.many.bind fun _ _ h' => Alike.pure (by simp [h, h'])

protected theorem separated {S S' : Language Unit} (hL : Alike f L L') (hS : Alike id S S') :
    Alike (List.map f) (separated L S) (separated L' S') := by
  rw [separated_eq, separated_eq]
  have hnil : Alike (List.map f) (pure [] : Language (List α)) (pure []) := Alike.pure rfl
  exact hnil.orElse (hL.bind fun _ _ h => (hS.bind fun _ _ _ => hL).many.bind
    fun _ _ h' => Alike.pure (by simp [h, h']))

protected theorem located (hL : Alike f L L') :
    Alike (fun x => f x.node) (located L) (located L') := by
  intro u w v a hu hw hv
  obtain ⟨b, hb, hba⟩ := hL u w v a.node hu.1 hw hv
  exact ⟨⟨b, span v⟩, ⟨hb, rfl⟩, hba⟩

protected theorem trailed (hL : Alike f L L') : Alike f (trailed L) (trailed L') :=
  hL.bind fun _ _ h => Alike.comments.bind fun _ _ _ => Alike.pure h

protected theorem whole (hL : Alike f L L') : Alike f L.whole L'.whole :=
  Alike.comments.bind fun _ _ _ => hL.trailed

protected theorem keyword (k : Keyword) : Alike id (keyword k) (keyword k) := by
  refine (Alike.one fun t _ ht => ?_).bind fun _ _ _ => Alike.comments
  by_cases hk : t.isKeyword k = true
  · exact Token.isComment_of_isKeyword hk
  · rw [if_neg hk] at ht
    contradiction

protected theorem mark (m : Mark) : Alike id (mark m) (mark m) := by
  refine (Alike.one fun t _ ht => ?_).bind fun _ _ _ => Alike.comments
  by_cases hm : t = .mark m
  · rw [hm]
    rfl
  · rw [if_neg hm] at ht
    contradiction

protected theorem name : Alike id name name :=
  one_of_outlined (Rule.Parses.name (n := 0)).outlined (by decide)

protected theorem unsigned : Alike id unsigned unsigned :=
  one_of_outlined (Rule.Parses.unsigned (n := 0)).outlined (by decide)

protected theorem bracketed (hL : Alike f L L') : Alike f (bracketed L) (bracketed L') :=
  (Alike.mark _).bind fun _ _ _ => hL.bind fun _ _ h => (Alike.mark _).bind fun _ _ _ =>
    Alike.pure h

end Alike

open Grammar

theorem value_alike : Alike id value value := by
  have hpath := ((Alike.mark .dot).bind fun _ _ _ => Alike.name).many
  have hreference : Alike id reference reference := Alike.name.bind fun _ _ h =>
    hpath.bind fun _ _ h' => Alike.pure (by simp_all)
  have hnumber := Alike.one_of_outlined (number_parses (n := 0)).outlined (by decide)
  have hquoted := Alike.one_of_outlined (quoted_parses (n := 0)).outlined (by decide)
  have hboolean := Alike.one_of_outlined (boolean_parses (n := 0)).outlined (by decide)
  exact hnumber.orElse (hquoted.orElse (hboolean.orElse hreference))

theorem constant_alike : Alike Constant.bare constant constant :=
  Alike.name.bind fun _ _ h => (Alike.mark _).bind fun _ _ _ => value_alike.located.bind
    fun _ _ h' => Alike.pure (by simp_all [Constant.bare, Located.bare])

theorem namesPosition_congr {u v : List Lexeme} (h : v.map (·.node) = u.map (·.node)) :
    namesPosition v = namesPosition u := by
  rcases u with _ | ⟨l₁, _ | ⟨l₂, _ | ⟨l₃, u⟩⟩⟩ <;>
    rcases v with _ | ⟨m₁, _ | ⟨m₂, _ | ⟨m₃, v⟩⟩⟩ <;> simp_all [namesPosition]

theorem namesPosition_append_comments {u w : List Lexeme}
    (hw : ∀ l ∈ w, l.node.isComment = true) : namesPosition (u ++ w) = namesPosition u := by
  induction w generalizing u with
  | nil => rw [List.append_nil]
  | cons l w ih =>
    rw [← List.singleton_append, ← List.append_assoc]
    rw [ih fun m hm => hw m (List.mem_cons_of_mem l hm)]
    exact namesPosition_append_comment (hw l (List.mem_cons_self ..))

theorem nameOrPosition_alike : Alike id nameOrPosition nameOrPosition := by
  have htypeName := Alike.one_of_outlined (Rule.Parses.typeName (n := 0)).outlined (by decide)
  have hgroup : Alike id group group := (Alike.keyword _).bind fun _ _ _ =>
    (Alike.keyword _).bind fun _ _ _ => Alike.unsigned.bracketed
  have hnamed : Alike id namedType namedType := htypeName.bind fun _ _ h =>
    hgroup.optional.bind fun _ _ h' => Alike.pure (by simp_all)
  intro u w v t hu hw hv
  obtain ⟨s, hs, rfl⟩ := hu
  obtain ⟨s', hs', rfl⟩ := hnamed u w v s hs hw hv
  refine ⟨_, ⟨s', hs', rfl⟩, ?_⟩
  rw [namesPosition_congr hv, namesPosition_append_comments hw]
  rfl

theorem pathType_alike : Alike id pathType pathType := by
  have hheader : Alike id pathHeader pathHeader := (Alike.keyword _).bind fun _ _ _ =>
    (Alike.mark _).bind fun _ _ _ => Alike.name.bind fun _ _ h => (Alike.mark _).bind
      fun _ _ _ => Alike.pure h
  exact (Alike.keyword _).bind fun _ _ _ => hheader.optional.bind fun _ _ h =>
    (Alike.keyword _).bind fun _ _ _ => (Alike.mark _).bind fun _ _ _ => Alike.name.bind
      fun _ _ h' => Alike.pure (by simp_all)

theorem stringType_alike : Alike id stringType stringType :=
  (Alike.keyword _).bind fun _ _ _ => Alike.unsigned.bracketed.map
    fun _ _ h => congrArg DataType.string h

theorem map_bare_eq_map (f : α → α) (items : List (Located α)) : items.map (·.bare f) =
    (items.map fun x => f x.node).map fun a => ⟨a, .erased⟩ := by
  simp [Located.bare]

theorem arrayType_alike {element : Language DataType} (h : Alike DataType.bare element element) :
    Alike DataType.bare (arrayType element) (arrayType element) := by
  have hsize := Alike.one_of_outlined (arraySize_parses (n := 0)).outlined (by decide)
  have hsizes := (hsize.located.separated (Alike.mark .comma)).bracketed.optional
  refine (Alike.keyword _).bind fun _ _ _ => hsizes.bind fun sizes sizes' hsizes =>
    (Alike.keyword _).bind fun _ _ _ => h.located.bind fun _ _ h' => Alike.pure ?_
  have hlists : (sizes'.getD []).map (·.bare id) = (sizes.getD []).map (·.bare id) := by
    cases sizes <;> cases sizes' <;> simp_all [map_bare_eq_map]
  rw [DataType.bare, DataType.bare, h', hlists]

theorem dataType_alike : Alike DataType.bare dataType dataType := by
  have hplain : ∀ {L : Language DataType}, Alike id L L → Alike DataType.bare L L := by
    intro L h u w v t hu hw hv
    obtain ⟨s, hs, rfl⟩ := h u w v t hu hw hv
    exact ⟨s, hs, rfl⟩
  apply Alike.exists_depth
  intro depth
  have hrest := hplain (pathType_alike.orElse nameOrPosition_alike)
  induction depth with
  | zero => exact (hplain stringType_alike).orElse hrest
  | succ depth ih =>
    exact (hplain stringType_alike).orElse ((arrayType_alike ih).orElse hrest)

theorem userType_alike : Alike UserType.bare userType userType := by
  have hfield : Alike Field.bare field field := Alike.name.bind fun _ _ h =>
    (Alike.mark _).bind fun _ _ _ => dataType_alike.located.bind fun _ _ h' =>
      Alike.pure (by simp_all [Field.bare, Located.bare])
  have hrecord : Alike UserType.bare recordType recordType :=
    (Alike.keyword _).bind fun _ _ _ => hfield.located.trailed.atLeastOne.bind fun _ _ h =>
      (Alike.keyword _).bind fun _ _ _ => Alike.pure (by simp [UserType.bare, map_bare_eq_map, h])
  exact hrecord.orElse (dataType_alike.map fun _ _ h => congrArg UserType.data h)

theorem typeDeclaration_alike : Alike TypeDeclaration.bare typeDeclaration typeDeclaration := by
  have hfrom := ((Alike.keyword .FROM).bind fun _ _ _ => Alike.name).optional
  exact Alike.name.bind fun _ _ h => hfrom.bind fun _ _ h' => (Alike.mark _).bind
    fun _ _ _ => userType_alike.located.bind fun _ _ h'' =>
      Alike.pure (by simp_all [TypeDeclaration.bare, Located.bare])

theorem bare_join (sections : List Declarations) : (Declarations.join sections).bare =
    Declarations.join (sections.map Declarations.bare) := by
  induction sections with
  | nil => rfl
  | cons d sections ih =>
    rw [Declarations.join_cons, Declarations.bare_append, ih, List.map_cons,
      Declarations.join_cons]

theorem sections_alike : Alike (List.map Declarations.bare) sections sections := by
  have htypes : Alike Declarations.bare typeSection typeSection := (Alike.keyword _).bind
    fun _ _ _ => typeDeclaration_alike.located.trailed.many.map fun _ _ h => by
      simp [Declarations.bare, map_bare_eq_map, h]
  have hconstants : Alike Declarations.bare constantSection constantSection :=
    (Alike.keyword _).bind fun _ _ _ => constant_alike.located.trailed.many.map fun _ _ h => by
      simp [Declarations.bare, map_bare_eq_map, h]
  exact (htypes.orElse hconstants).many

end Language

open KarelKit.Language

theorem Entry.alike_bare (entry : Entry) : Alike Tree.bare entry.language entry.language := by
  cases entry with
  | declarations =>
    refine Alike.comments.bind fun _ _ _ => sections_alike.map fun _ _ h => ?_
    rw [Tree.bare, Tree.bare, bare_join, bare_join, h]
  | typeDeclaration =>
    exact (typeDeclaration_alike.located.map fun _ _ h => by
      simp_all [Tree.bare, Located.bare]).whole
  | userType =>
    exact (userType_alike.located.map fun _ _ h => by simp_all [Tree.bare, Located.bare]).whole
  | dataType =>
    exact (dataType_alike.located.map fun _ _ h => by simp_all [Tree.bare, Located.bare]).whole
  | constant =>
    exact (constant_alike.located.map fun _ _ h => by simp_all [Tree.bare, Located.bare]).whole
  | value =>
    exact (value_alike.located.map fun _ _ h => by simp_all [Tree.bare, Located.bare]).whole

theorem Entry.alike (entry : Entry) (u v : List Lexeme) (t : Tree) (h : entry.language u t)
    (hnodes : v.map (·.node) = u.map (·.node)) : ∃ t', entry.language v t' := by
  rw [← List.append_nil u] at h
  obtain ⟨t', ht', -⟩ := entry.alike_bare u [] v t h (by simp) hnodes
  exact ⟨t', ht'⟩

end KarelKit
