import KarelKit.Proofs.Grammar.Parsing
import KarelKit.Proofs.Grammar.Weaving

namespace KarelKit

/-- Where the fields end. -/
def UserType.ends : UserType → List Position
  | data _ => []
  | record fields => fields.map (·.range.stop)

def TypeDeclaration.ends (d : TypeDeclaration) : List Position := d.userType.node.ends

/-- Where the declarations end, and the fields inside of them. -/
def Declarations.ends (d : Declarations) : List Position :=
  d.types.flatMap (fun x => x.node.ends ++ [x.range.stop]) ++ d.constants.map (·.range.stop)

def Tree.ends : Tree → List Position
  | declarations tree => tree.ends
  | typeDeclaration tree => tree.node.ends
  | userType tree => tree.node.ends
  | _ => []

/-- A place between lexemes where comments may stand, in a text whose fields and declarations end at
`ends`. -/
def Pauses (ends : List Position) (before after : List Lexeme) : Prop :=
  before = [] ∨ after = [] ∨
    ∃ l, before.getLast? = some l ∧ (l.node.pauses = true ∨ l.range.stop ∈ ends)

namespace Language

variable {α β : Type} {u v : List Lexeme} {p : List Position}

open Grammar

theorem value_weaves : Weaves [] value value fun _ => [] := by
  have hcomponent : Weaves [] (do mark .dot; name) (do mark .dot; name) fun _ => [] :=
    (Weaves.mark _).bind fun _ _ => Weaves.name
  have hreference : Weaves [] reference reference fun _ => [] :=
    Weaves.name.bind fun _ _ => hcomponent.many_plain.bind fun _ _ => Weaves.pure rfl
  have hnumber := Weaves.one_of_outlined (number_parses (n := 0)).outlined
  have hquoted := Weaves.one_of_outlined (quoted_parses (n := 0)).outlined
  have hboolean := Weaves.one_of_outlined (boolean_parses (n := 0)).outlined
  exact hnumber.orElse (hquoted.orElse (hboolean.orElse hreference))

theorem constant_weaves : Weaves [] constant constant fun _ => [] :=
  Weaves.name.bind fun _ _ => (Weaves.mark _).bind fun _ _ =>
    value_weaves.located.bind fun _ _ => Weaves.pure rfl

theorem nameOrPosition_weaves : Weaves [] nameOrPosition nameOrPosition fun _ => [] := by
  have htypeName := Weaves.one_of_outlined (Rule.Parses.typeName (n := 0)).outlined
  have hgroup : Weaves [] group group fun _ => [] := (Weaves.keyword (by decide)).bind fun _ _ =>
    (Weaves.keyword (by decide)).bind fun _ _ => Weaves.unsigned.bracketed
  have hnamed : Weaves [] namedType namedType fun _ => [] :=
    htypeName.bind fun _ _ => hgroup.optional.bind fun _ _ => Weaves.pure rfl
  refine ⟨fun _ _ _ => ⟨[], rfl, by simp⟩, ?_, ?_⟩
  · intro u t hrising hu
    obtain ⟨s, hs, -⟩ := hu
    obtain ⟨s', part, hs', hpart⟩ := hnamed.strip hrising hs
    exact ⟨_, part, ⟨s', hs', rfl⟩, hpart⟩
  · intro u t part hrising hu hpart hwoven
    obtain ⟨s, hs, -⟩ := hu
    obtain ⟨s', hs'⟩ := hnamed.weave hrising hs hpart hwoven
    exact ⟨_, s', hs', rfl⟩

theorem pathType_weaves : Weaves [] pathType pathType fun _ => [] := by
  have hheader : Weaves [] pathHeader pathHeader fun _ => [] :=
    (Weaves.keyword (by decide)).bind fun _ _ => (Weaves.mark _).bind fun _ _ =>
      Weaves.name.bind fun _ _ => (Weaves.mark _).bind fun _ _ => Weaves.pure rfl
  exact (Weaves.keyword (by decide)).bind fun _ _ => hheader.optional.bind fun _ _ =>
    (Weaves.keyword (by decide)).bind fun _ _ => (Weaves.mark _).bind fun _ _ =>
      Weaves.name.bind fun _ _ => Weaves.pure rfl

theorem stringType_weaves : Weaves [] stringType stringType fun _ => [] :=
  (Weaves.keyword (by decide)).bind fun _ _ => Weaves.unsigned.bracketed.bind fun _ _ =>
    Weaves.pure rfl

theorem arrayType_weaves {element : Language DataType}
    (h : Weaves [] element element fun _ => []) :
    Weaves [] (arrayType element) (arrayType element) fun _ => [] := by
  have hsize := Weaves.one_of_outlined (arraySize_parses (n := 0)).outlined
  have hsizes := (hsize.located.separated (Weaves.mark .comma)).bracketed.optional
  exact (Weaves.keyword (by decide)).bind fun _ _ => hsizes.bind fun _ _ =>
    (Weaves.keyword (by decide)).bind fun _ _ => h.located.bind fun _ _ => Weaves.pure rfl

theorem dataType_weaves : Weaves [] dataType dataType fun _ => [] := by
  apply Weaves.exists_depth
  intro depth
  induction depth with
  | zero => exact stringType_weaves.orElse (pathType_weaves.orElse nameOrPosition_weaves)
  | succ depth ih =>
    exact stringType_weaves.orElse
      ((arrayType_weaves ih).orElse (pathType_weaves.orElse nameOrPosition_weaves))

theorem userType_weaves : Weaves [] userType userType UserType.ends := by
  have hfield : Weaves [] field field fun _ => [] := Weaves.name.bind fun _ _ =>
    (Weaves.mark _).bind fun _ _ => dataType_weaves.located.bind fun _ _ => Weaves.pure rfl
  have hfields := (hfield.item (field_parses (n := 0)).outlined rfl).atLeastOne
  have hrecord : Weaves [] recordType recordType UserType.ends :=
    (Weaves.keyword (by decide)).bind fun _ _ => hfields.bind fun _ _ =>
      (Weaves.keyword (by decide)).bind fun _ _ => Weaves.pure (by
        simp [UserType.ends, List.map_eq_flatMap])
  exact hrecord.orElse (dataType_weaves.map fun _ => rfl)

theorem typeDeclaration_weaves :
    Weaves [] typeDeclaration typeDeclaration TypeDeclaration.ends := by
  have hfrom : Weaves [] (do keyword .FROM; name) (do keyword .FROM; name) fun _ => [] :=
    (Weaves.keyword (by decide)).bind fun _ _ => Weaves.name
  exact Weaves.name.bind fun _ _ => hfrom.optional.bind fun _ _ => (Weaves.mark _).bind
    fun _ _ => userType_weaves.located.bind fun _ _ => Weaves.pure rfl

theorem sections_weaves : Weaves [] sections sections fun s => s.flatMap Declarations.ends := by
  have htypes : Weaves [] typeSection typeSection Declarations.ends :=
    (Weaves.keyword (by decide)).bind fun _ _ =>
      (typeDeclaration_weaves.item (typeDeclaration_parses (n := 0)).outlined rfl).many.bind
        fun _ _ => Weaves.pure (by simp [Declarations.ends])
  have hconstants : Weaves [] constantSection constantSection Declarations.ends :=
    (Weaves.keyword (by decide)).bind fun _ _ =>
      (constant_weaves.item (constant_parses (n := 0)).outlined rfl).many.bind
        fun _ _ => Weaves.pure (by simp [Declarations.ends, List.map_eq_flatMap])
  exact (htypes.orElse hconstants).many

/-- Sentences that take in comments after them. -/
def Absorbing (L : Language α) : Prop :=
  ∀ u v a, L u a → u ≠ [] → (∀ l ∈ v, l.node.isComment = true) → L (u ++ v) a

namespace Absorbing

variable {L : Language α} {M : α → Language β}

protected theorem pure (a : α) : Absorbing (pure a : Language α) := fun _ _ _ hu hne _ =>
  absurd hu.1 hne

protected theorem keyword (k : Keyword) : Absorbing (keyword k) := by
  intro u v a hu _ hv
  obtain ⟨x, w, b, rfl, hx, hw⟩ := hu
  rw [List.append_assoc]
  refine bind_intro hx fun l hl => ?_
  rcases List.mem_append.mp hl with hl | hl
  · exact hw l hl
  · exact hv l hl

protected theorem trailed (L : Language α) : Absorbing (trailed L) := by
  intro u v a hu _ hv
  obtain ⟨x, w, rfl, hx, hw⟩ := Outlined.trailed_iff.mp hu
  refine Outlined.trailed_iff.mpr ⟨x, w ++ v, List.append_assoc .., hx, fun l hl => ?_⟩
  rcases List.mem_append.mp hl with hl | hl
  · exact hw l hl
  · exact hv l hl

protected theorem bind (hL : Absorbing L) (hM : ∀ a, Absorbing (M a)) :
    Absorbing (L >>= M) := by
  intro u v c hu hne hv
  obtain ⟨x, w, a, rfl, hx, hw⟩ := hu
  by_cases hnil : w = []
  · subst hnil
    rw [List.append_nil] at hne ⊢
    have happend := bind_intro (hL x v a hx hne hv) hw
    rwa [List.append_nil] at happend
  · rw [List.append_assoc]
    exact bind_intro hx (hM a w v c hw hnil hv)

protected theorem orElse {N : Language α} (hL : Absorbing L) (hN : Absorbing N) :
    Absorbing (L <|> N) := by
  intro u v a hu hne hv
  exact hu.imp (fun h => hL u v a h hne hv) fun h => hN u v a h hne hv

protected theorem many (hL : Absorbing L) : Absorbing (many L) := by
  intro u v items hu hne hv
  induction hu with
  | nil => contradiction
  | @cons x w a items head tail ih =>
    by_cases hnil : w = []
    · subst hnil
      rw [List.append_nil] at hne ⊢
      have happend := many.cons (hL x v a head hne hv) tail
      rwa [List.append_nil] at happend
    · rw [List.append_assoc]
      exact .cons head (ih hnil)

end Absorbing

theorem sections_absorbing : Absorbing sections :=
  ((Absorbing.keyword _).bind fun _ => (Absorbing.trailed _).many.bind fun _ =>
    Absorbing.pure _).orElse ((Absorbing.keyword _).bind fun _ =>
      (Absorbing.trailed _).many.bind fun _ => Absorbing.pure _) |>.many

theorem whole_iff {L : Language α} {a : α} : L.whole u a ↔ ∃ x v y, u = x ++ (v ++ y) ∧
    (∀ l ∈ x, l.node.isComment = true) ∧ (∀ l ∈ y, l.node.isComment = true) ∧ L v a := by
  constructor
  · intro h
    obtain ⟨x, w, _, rfl, hx, hw⟩ := h
    obtain ⟨v, y, rfl, hv, hy⟩ := Outlined.trailed_iff.mp hw
    exact ⟨x, v, y, rfl, hx, hy, hv⟩
  · intro h
    obtain ⟨x, v, y, rfl, hx, hy, hv⟩ := h
    exact ⟨x, v ++ y, (), rfl, hx, Outlined.trailed_iff.mpr ⟨v, y, rfl, hv, hy⟩⟩

theorem whole_solid_iff {L : Language α} {a : α} : L.whole (solid u) a ↔ L (solid u) a := by
  rw [whole_iff]
  constructor
  · intro h
    obtain ⟨x, v, y, heq, hx, hy, hv⟩ := h
    have hplain := plain_solid u
    rw [heq] at hplain ⊢
    rwa [nil_of_comments hx fun l hl => hplain l (by simp [hl]),
      nil_of_comments hy fun l hl => hplain l (by simp [hl]), List.nil_append, List.append_nil]
  · intro h
    exact ⟨[], solid u, [], by simp, by simp, by simp, h⟩

theorem exists_frame (u : List Lexeme) : ∃ x v y, u = x ++ (v ++ y) ∧
    (∀ l ∈ x, l.node.isComment = true) ∧ (∀ l ∈ y, l.node.isComment = true) ∧
    (∀ l ∈ v.head?, l.node.isComment = false) ∧ ∀ l ∈ v.getLast?, l.node.isComment = false := by
  obtain ⟨x, w, rfl, hx, -, hw⟩ := split_of_solid (List.nil_append (solid u)).symm
  obtain ⟨v, y, rfl, hy, hlast⟩ := trim_comments w
  refine ⟨x, v, y, rfl, comments_of_solid_eq_nil hx, hy, ?_, hlast⟩
  intro l hl
  apply hw
  rw [List.head?_append, hl]
  rfl

theorem solid_frame {x y : List Lexeme} (hx : ∀ l ∈ x, l.node.isComment = true)
    (hy : ∀ l ∈ y, l.node.isComment = true) : solid (x ++ (v ++ y)) = solid v := by
  rw [solid_append, solid_append, solid_of_comments hx, solid_of_comments hy, List.nil_append,
    List.append_nil]

/-- Inside of a whole text, between its outer comments, only the places that are left count. -/
theorem woven_of_pauses {x y : List Lexeme} (hx : ∀ l ∈ x, l.node.isComment = true)
    (hy : ∀ l ∈ y, l.node.isComment = true) (hhead : ∀ l ∈ v.head?, l.node.isComment = false)
    (hlast : ∀ l ∈ v.getLast?, l.node.isComment = false)
    (h : ∀ w c z, x ++ (v ++ y) = w ++ c :: z → c.node.isComment = true →
      Pauses p (solid w) (solid z)) : Woven p v := by
  intro w c z heq hc
  have hsplit := h (x ++ w) c (z ++ y) (by simp [heq]) hc
  rw [solid_append, solid_of_comments hx, List.nil_append, solid_append, solid_of_comments hy,
    List.append_nil] at hsplit
  -- the part has a token at both ends, so the comment stands between tokens
  rcases hsplit with hw | hz | hl
  · have hcomments := comments_of_solid_eq_nil hw
    cases w with
    | nil => simp [hhead c (by rw [heq]; rfl)] at hc
    | cons m w =>
      have hm := hcomments m (List.mem_cons_self ..)
      simp [hhead m (by rw [heq]; rfl)] at hm
  · have hcomments := comments_of_solid_eq_nil hz
    obtain ⟨l, hl⟩ := exists_getLast? (List.cons_ne_nil c z)
    have hend : v.getLast? = some l := by
      rw [heq, List.getLast?_append, hl]
      rfl
    have hcomment : l.node.isComment = true := by
      rcases List.mem_cons.mp (List.mem_of_getLast? hl) with rfl | hmem
      · exact hc
      · exact hcomments l hmem
    simp [hlast l hend] at hcomment
  · exact hl

theorem pauses_of_woven {x y : List Lexeme} (hx : ∀ l ∈ x, l.node.isComment = true)
    (hy : ∀ l ∈ y, l.node.isComment = true) (h : Woven p v) {w z : List Lexeme} {c : Lexeme}
    (heq : x ++ (v ++ y) = w ++ c :: z) (hc : c.node.isComment = true) :
    Pauses p (solid w) (solid z) := by
  rcases append_eq_append_cons heq with ⟨s, rfl, -⟩ | ⟨s, rfl, hs⟩
  · exact Or.inl (solid_of_comments fun l hl => hx l (List.mem_append_left _ hl))
  · rw [solid_append, solid_of_comments hx, List.nil_append]
    rcases append_eq_append_cons hs with ⟨r, rfl, -⟩ | ⟨r, rfl, rfl⟩
    · exact Or.inr (Or.inr (h s c r rfl hc))
    · refine Or.inr (Or.inl (solid_of_comments fun l hl => hy l ?_))
      exact List.mem_append_right r (List.mem_cons_of_mem c hl)

theorem Weaves.whole {L : Language α} {s : α → List Position} (hL : Weaves [] L L s)
    (hrising : Rising u) : (∃ a, L.whole u a) ↔ ∃ b, L.whole (solid u) b ∧
      ∀ v c w, u = v ++ c :: w → c.node.isComment = true → Pauses (s b) (solid v) (solid w) := by
  constructor
  · intro h
    obtain ⟨a, h⟩ := h
    obtain ⟨x, v, y, rfl, hx, hy, hv⟩ := whole_iff.mp h
    obtain ⟨b, part, hb, hpart, hwoven⟩ := hL.strip hrising.right.left hv
    rw [List.nil_append] at hpart
    refine ⟨b, ?_, fun w c z heq hc => hpart ▸ pauses_of_woven hx hy hwoven heq hc⟩
    rw [whole_solid_iff, solid_frame hx hy]
    exact hb
  · intro h
    obtain ⟨b, hb, h⟩ := h
    rw [whole_solid_iff] at hb
    obtain ⟨x, v, y, rfl, hx, hy, hhead, hlast⟩ := exists_frame u
    rw [solid_frame hx hy] at hb
    obtain ⟨a, ha⟩ := hL.weave hrising.right.left hb rfl (woven_of_pauses hx hy hhead hlast h)
    exact ⟨a, whole_iff.mpr ⟨x, v, y, rfl, hx, hy, ha⟩⟩

/-- Comments at the end of sections belong to the last of them. -/
theorem declarations_iff {t : Tree} : Entry.declarations.language u t ↔
    ∃ s, sections.whole u s ∧ t = .declarations (.join s) := by
  constructor
  · intro h
    obtain ⟨x, w, _, rfl, hx, hw⟩ := h
    obtain ⟨s, hs, rfl⟩ := bind_pure_iff.mp hw
    exact ⟨s, whole_iff.mpr ⟨x, w, [], by simp, hx, by simp, hs⟩, rfl⟩
  · intro h
    obtain ⟨s, hs, rfl⟩ := h
    obtain ⟨x, v, y, rfl, hx, hy, hv⟩ := whole_iff.mp hs
    by_cases hnil : v = []
    · subst hnil
      refine ⟨x ++ y, [], (), by simp, fun l hl => ?_, bind_pure hv⟩
      exact (List.mem_append.mp hl).elim (hx l) (hy l)
    · exact ⟨x, v ++ y, (), rfl, hx, bind_pure (sections_absorbing v y s hv hnil hy)⟩

theorem mem_ends_join {x : Position} {s : List Declarations} :
    x ∈ (Declarations.join s).ends ↔ x ∈ s.flatMap Declarations.ends := by
  induction s with
  | nil => rfl
  | cons d s ih =>
    rw [Declarations.join_cons, List.flatMap_cons, List.mem_append, ← ih]
    simp only [Declarations.ends, Declarations.types_append, Declarations.constants_append,
      List.flatMap_append, List.map_append, List.mem_append]
    tauto

end Language

open KarelKit.Language

/-- An entry reads a text as it reads it without comments, if these stand where they may. -/
theorem Entry.language_iff (entry : Entry) {u : List Lexeme} (hrising : Rising u) :
    (∃ t, entry.language u t) ↔ ∃ b, entry.language (solid u) b ∧
      ∀ v c w, u = v ++ c :: w → c.node.isComment = true → Pauses b.ends (solid v) (solid w) := by
  cases entry with
  | declarations =>
    -- the tree has the same ends as the sections, in another order
    have hpauses : ∀ {s v w}, Pauses (s.flatMap Declarations.ends) v w ↔
        Pauses (Tree.declarations (.join s)).ends v w := by
      intro s v w
      simp only [Pauses, Tree.ends, mem_ends_join]
    have hsections := sections_weaves.whole hrising
    constructor
    · intro h
      obtain ⟨t, h⟩ := h
      obtain ⟨s, hs, -⟩ := declarations_iff.mp h
      obtain ⟨b, hb, h⟩ := hsections.mp ⟨s, hs⟩
      exact ⟨_, declarations_iff.mpr ⟨b, hb, rfl⟩, fun v c w heq hc => hpauses.mp (h v c w heq hc)⟩
    · intro h
      obtain ⟨b, hb, h⟩ := h
      obtain ⟨s, hs, rfl⟩ := declarations_iff.mp hb
      obtain ⟨a, ha⟩ := hsections.mpr ⟨s, hs, fun v c w heq hc => hpauses.mpr (h v c w heq hc)⟩
      exact ⟨_, declarations_iff.mpr ⟨a, ha, rfl⟩⟩
  | typeDeclaration =>
    exact Weaves.whole (s := Tree.ends) (typeDeclaration_weaves.located.map fun _ => rfl) hrising
  | userType =>
    exact Weaves.whole (s := Tree.ends) (userType_weaves.located.map fun _ => rfl) hrising
  | dataType =>
    exact Weaves.whole (s := Tree.ends) (dataType_weaves.located.map fun _ => rfl) hrising
  | constant =>
    exact Weaves.whole (s := Tree.ends) (constant_weaves.located.map fun _ => rfl) hrising
  | value =>
    exact Weaves.whole (s := Tree.ends) (value_weaves.located.map fun _ => rfl) hrising

theorem nodes_solid (u : List Lexeme) : (solid u).map (·.node) = tokens u := by
  rw [tokens, List.filter_map]
  rfl

/-- Comments change nothing but ranges and what tells position types from names. -/
theorem Entry.bare_solid {entry : Entry} {u : List Lexeme} {t t₀ : Tree}
    (h : entry.language u t) (h₀ : entry.language (solid u) t₀) : t₀.bare = t.settle.bare := by
  obtain ⟨t', ht', hbare⟩ := Entry.spells (derives_of_language h) (solid u) (nodes_solid u)
  rw [entry.functional h₀ ht', hbare]

/-- A text is accepted exactly if it is accepted without its comments and these stand where they
may. The canonical text is the same without them. -/
theorem parse_ok_iff_pauses {entry : Entry} {source : String} {text : Lexed}
    (hlex : lex source = .ok text) :
    ((∃ t, parse entry source = .ok t) ↔
      ∃ t₀, Rule.readAll entry.rule ⟨solid text.lexemes, text.stop⟩ = .ok t₀ ∧
        ∀ u c v, text.lexemes = u ++ c :: v → c.node.isComment = true →
          Pauses t₀.ends (solid u) (solid v)) ∧
    ∀ t t₀, parse entry source = .ok t →
      Rule.readAll entry.rule ⟨solid text.lexemes, text.stop⟩ = .ok t₀ → t.print = t₀.print := by
  simp only [parse_eq_ok_iff hlex, readAll_eq_ok_iff]
  refine ⟨entry.language_iff (rising_of_lex hlex), ?_⟩
  intro t t₀ h h₀
  rw [← t₀.print_bare, Entry.bare_solid h h₀, t.print_settle_bare]

/-- A comment behind a keyword. -/
theorem pauses_sections : ∃ t₀, Rule.readAll Entry.declarations.rule ⟨[
      ⟨.word "type", ⟨⟨1, 1⟩, ⟨1, 5⟩⟩⟩, ⟨.word "t", ⟨⟨1, 6⟩, ⟨1, 7⟩⟩⟩,
      ⟨.mark .equals, ⟨⟨1, 8⟩, ⟨1, 9⟩⟩⟩, ⟨.word "array", ⟨⟨1, 10⟩, ⟨1, 15⟩⟩⟩,
      ⟨.word "of", ⟨⟨1, 16⟩, ⟨1, 18⟩⟩⟩, ⟨.word "k", ⟨⟨2, 1⟩, ⟨2, 2⟩⟩⟩,
      ⟨.word "const", ⟨⟨3, 1⟩, ⟨3, 6⟩⟩⟩, ⟨.word "a", ⟨⟨3, 7⟩, ⟨3, 8⟩⟩⟩,
      ⟨.mark .equals, ⟨⟨3, 9⟩, ⟨3, 10⟩⟩⟩, ⟨.integer 1, ⟨⟨3, 11⟩, ⟨3, 12⟩⟩⟩], ⟨3, 12⟩⟩ = .ok t₀ ∧
    Pauses t₀.ends [⟨.word "type", ⟨⟨1, 1⟩, ⟨1, 5⟩⟩⟩, ⟨.word "t", ⟨⟨1, 6⟩, ⟨1, 7⟩⟩⟩,
      ⟨.mark .equals, ⟨⟨1, 8⟩, ⟨1, 9⟩⟩⟩, ⟨.word "array", ⟨⟨1, 10⟩, ⟨1, 15⟩⟩⟩,
      ⟨.word "of", ⟨⟨1, 16⟩, ⟨1, 18⟩⟩⟩]
      [⟨.word "k", ⟨⟨2, 1⟩, ⟨2, 2⟩⟩⟩, ⟨.word "const", ⟨⟨3, 1⟩, ⟨3, 6⟩⟩⟩,
      ⟨.word "a", ⟨⟨3, 7⟩, ⟨3, 8⟩⟩⟩, ⟨.mark .equals, ⟨⟨3, 9⟩, ⟨3, 10⟩⟩⟩,
      ⟨.integer 1, ⟨⟨3, 11⟩, ⟨3, 12⟩⟩⟩] ∧
    t₀.print = "CONST\n    a = 1\nTYPE\n    t = ARRAY[] OF k\n" := by
  obtain ⟨hlex, hparse, hprint⟩ := parse_sections
  obtain ⟨haccept, hsame⟩ := @parse_ok_iff_pauses .declarations _ _ hlex
  obtain ⟨t₀, h₀, hpauses⟩ := haccept.mp ⟨_, hparse⟩
  have hcomment := hpauses [⟨.word "type", ⟨⟨1, 1⟩, ⟨1, 5⟩⟩⟩, ⟨.word "t", ⟨⟨1, 6⟩, ⟨1, 7⟩⟩⟩,
    ⟨.mark .equals, ⟨⟨1, 8⟩, ⟨1, 9⟩⟩⟩, ⟨.word "array", ⟨⟨1, 10⟩, ⟨1, 15⟩⟩⟩,
    ⟨.word "of", ⟨⟨1, 16⟩, ⟨1, 18⟩⟩⟩] _ _ rfl rfl
  exact ⟨t₀, h₀, hcomment, hprint ▸ (hsame _ _ hparse h₀).symm⟩

end KarelKit
