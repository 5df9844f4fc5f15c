import KarelKit.Proofs.Grammar.Lexical
import KarelKit.Proofs.Language.Solid

namespace KarelKit

/-- All keywords but the two that are values. -/
def pausingKeywords : List Keyword :=
  [.TYPE, .CONST, .FROM, .STRUCTURE, .ENDSTRUCTURE, .STRING, .ARRAY, .OF, .PATH, .PATHHEADER,
   .NODEDATA, .IN, .GROUP]

/-- Whether comments may follow the token wherever it stands. -/
def Token.pauses : Token → Bool
  | mark _ => true
  | t => pausingKeywords.any t.isKeyword

theorem Token.pauses_of_isKeyword {k : Keyword} {t : Token} (ht : t.isKeyword k = true)
    (hk : k ∈ pausingKeywords) : t.pauses = true := by
  cases t with
  | word text => exact List.any_eq_true.mpr ⟨k, hk, ht⟩
  | _ => contradiction

theorem Token.isComment_of_pauses {t : Token} (h : t.pauses = true) : t.isComment = false := by
  cases t with
  | comment text => contradiction
  | _ => rfl

def Terminal.pauses : Terminal → Bool
  | keyword k => pausingKeywords.contains k
  | mark _ => true
  | _ => false

theorem Token.terminal_pauses {t : Token} (h : t.pauses = true) : t.terminal.pauses = true := by
  cases t with
  | word text =>
    obtain ⟨k, hk, ht⟩ := List.any_eq_true.mp h
    rw [terminal_of_isKeyword ht]
    exact List.contains_iff_mem.mpr hk
  | mark m => rfl
  | _ => contradiction

namespace Language

variable {α β : Type} {u v : List Lexeme} {p q : List Position}

/-- Every comment comes after another lexeme that lets comments follow, or that ends at one of the
places. -/
def Woven (ends : List Position) (u : List Lexeme) : Prop :=
  ∀ v c w, u = v ++ c :: w → c.node.isComment = true →
    ∃ l, (solid v).getLast? = some l ∧ (l.node.pauses = true ∨ l.range.stop ∈ ends)

theorem Woven.of_plain (h : ∀ l ∈ u, l.node.isComment = false) : Woven p u := by
  intro v c w heq hc
  rw [h c (by simp [heq])] at hc
  contradiction

theorem Woven.eq_nil (h : Woven p u) (hu : solid u = []) : u = [] := by
  cases u with
  | nil => rfl
  | cons c u =>
    obtain ⟨l, hl, -⟩ := h [] c u rfl (comments_of_solid_eq_nil hu c (List.mem_cons_self ..))
    contradiction

theorem Woven.append (hu : Woven p u) (hv : Woven q v) : Woven (p ++ q) (u ++ v) := by
  intro x c y heq hc
  rcases append_eq_append_cons heq with ⟨s, rfl, -⟩ | ⟨s, rfl, hs⟩
  · obtain ⟨l, hl, hpauses⟩ := hu x c s rfl hc
    exact ⟨l, hl, hpauses.imp_right (List.mem_append_left q)⟩
  · obtain ⟨l, hl, hpauses⟩ := hv s c y hs hc
    refine ⟨l, ?_, hpauses.imp_right (List.mem_append_right p)⟩
    rw [solid_append, List.getLast?_append, hl]
    rfl

/-- Comments may come at the end, if the last lexeme before them lets them follow. -/
theorem Woven.trailed {l : Lexeme} (hu : Woven p u) (hl : (solid u).getLast? = some l)
    (hpauses : l.node.pauses = true ∨ l.range.stop ∈ q)
    (hv : ∀ l ∈ v, l.node.isComment = true) : Woven (p ++ q) (u ++ v) := by
  intro x c y heq hc
  rcases append_eq_append_cons heq with ⟨s, rfl, -⟩ | ⟨s, rfl, rfl⟩
  · obtain ⟨l, hl, hpauses⟩ := hu x c s rfl hc
    exact ⟨l, hl, hpauses.imp_right (List.mem_append_left q)⟩
  · refine ⟨l, ?_, hpauses.imp_right (List.mem_append_right p)⟩
    rw [solid_append, solid_of_comments fun m hm => hv m (List.mem_append_left _ hm),
      List.append_nil]
    exact hl

/-- A place at the end of all lexemes matters for none of them. -/
theorem Woven.init {l : Lexeme} (h : Woven (p ++ [l.range.stop]) (u ++ v)) (hrising : Rising u)
    (hl : u.getLast? = some l) : Woven p u := by
  intro y c w heq hc
  obtain ⟨m, hm, hpauses⟩ := h y c (w ++ v) (by rw [heq, List.append_assoc]; rfl) hc
  refine ⟨m, hm, hpauses.imp_right fun hmem => ?_⟩
  rcases List.mem_append.mp hmem with hmem | hmem
  · exact hmem
  · have hlast : l ∈ c :: w := by
      rw [heq, List.getLast?_append, Option.or_eq_some_iff] at hl
      rcases hl with hl | ⟨hl, -⟩
      · exact List.mem_of_getLast? hl
      · simp at hl
    have hmy : m ∈ y := mem_of_getLast?_solid hm
    rw [heq] at hrising
    exact absurd (List.mem_singleton.mp hmem) (hrising.stop_ne hmy hlast)

theorem Woven.eq_cons {l : Lexeme} (h : Woven p u) (hu : solid u = [l]) :
    ∃ w, u = l :: w ∧ ∀ m ∈ w, m.node.isComment = true := by
  cases u with
  | nil => contradiction
  | cons c w =>
    cases hc : c.node.isComment with
    | true =>
      obtain ⟨m, hm, -⟩ := h [] c w rfl hc
      contradiction
    | false =>
      have hcons : solid (c :: w) = c :: solid w := by simp [solid, hc]
      obtain ⟨rfl, hw⟩ := List.cons.inj (hcons.symm.trans hu)
      exact ⟨w, rfl, comments_of_solid_eq_nil hw⟩

/-- Where lexemes are cut in front of one that is no comment, each part keeps to its own places. -/
theorem Woven.cut (h : Woven (p ++ q) (u ++ v)) (hrising : Rising (u ++ v))
    (hp : ∀ x ∈ p, ∃ l ∈ u, l.range.stop = x) (hq : ∀ x ∈ q, ∃ l ∈ v, l.range.stop = x)
    (hv : ∀ l ∈ v.head?, l.node.isComment = false) : Woven p u ∧ Woven q v := by
  constructor
  · intro x c y heq hc
    obtain ⟨l, hl, hpauses⟩ := h x c (y ++ v) (by rw [heq, List.append_assoc]; rfl) hc
    refine ⟨l, hl, hpauses.imp_right fun hmem => ?_⟩
    rcases List.mem_append.mp hmem with hmem | hmem
    · exact hmem
    · obtain ⟨m, hm, hstop⟩ := hq _ hmem
      have hlu : l ∈ u := by
        rw [heq]
        exact List.mem_append_left _ (mem_of_getLast?_solid hl)
      exact absurd hstop.symm (hrising.stop_ne hlu hm)
  · intro x c y heq hc
    obtain ⟨l, hl, hpauses⟩ := h (u ++ x) c y (by rw [heq, List.append_assoc]) hc
    cases hx : (solid x).getLast? with
    | none =>
      -- then `v` would begin with a comment
      have hcomments := comments_of_solid_eq_nil (List.getLast?_eq_none_iff.mp hx)
      cases x with
      | nil =>
        rw [hv c (by rw [heq]; rfl)] at hc
        contradiction
      | cons m x =>
        have hm := hcomments m (List.mem_cons_self ..)
        rw [hv m (by rw [heq]; rfl)] at hm
        contradiction
    | some m =>
      rw [solid_append, List.getLast?_append, hx] at hl
      obtain rfl : m = l := Option.some.inj hl
      refine ⟨m, rfl, hpauses.imp_right fun hmem => ?_⟩
      rcases List.mem_append.mp hmem with hmem | hmem
      · obtain ⟨n, hn, hstop⟩ := hp _ hmem
        have hmv : m ∈ v := by
          rw [heq]
          exact List.mem_append_left _ (mem_of_getLast?_solid hx)
        exact absurd hstop (hrising.stop_ne hn hmv)
      · exact hmem

theorem plain_of_trailed {L : Language α} {a : α} (hu : ∀ l ∈ u, l.node.isComment = false)
    (h : trailed L u a) : L u a := by
  obtain ⟨v, w, rfl, hv, hw⟩ := Outlined.trailed_iff.mp h
  rwa [nil_of_comments hw fun l hl => hu l (List.mem_append_right v hl), List.append_nil]

/-- Comments in sentences of `L` stand where those of `L'` without comments let them. What has been
read so far ends at `before`, and values tell by `ends` how it goes on. -/
structure Weaves (before : List Position) (L L' : Language α) (ends : α → List Position) :
    Prop where
  within : ∀ {s a}, Rising s → (∀ l ∈ s, l.node.isComment = false) → L' s a →
    ∃ part, ends a = before ++ part ∧ ∀ x ∈ part, ∃ l ∈ s, l.range.stop = x
  strip : ∀ {u a}, Rising u → L u a →
    ∃ b part, L' (solid u) b ∧ ends b = before ++ part ∧ Woven part u
  weave : ∀ {u b part}, Rising u → L' (solid u) b → ends b = before ++ part → Woven part u →
    ∃ a, L u a

namespace Weaves

variable {L L' : Language α} {M M' : α → Language β} {before : List Position}
  {s : α → List Position} {t : β → List Position}

protected theorem pure {a b : α} (h : s b = before) :
    Weaves before (pure a : Language α) (pure b : Language α) s where
  within := by
    intro u c _ _ hu
    obtain ⟨rfl, rfl⟩ := hu
    exact ⟨[], by rw [h, List.append_nil], by simp⟩
  strip := by
    intro u c _ hu
    obtain ⟨rfl, rfl⟩ := hu
    exact ⟨b, [], ⟨rfl, rfl⟩, by rw [h, List.append_nil], .of_plain (by simp)⟩
  weave := by
    intro u c part _ hu hc hwoven
    exact ⟨a, hwoven.eq_nil hu.1, rfl⟩

protected theorem bind (hL : Weaves [] L L' s)
    (hM : ∀ a b, Weaves (before ++ s b) (M a) (M' b) t) :
    Weaves before (L >>= M) (L' >>= M') t where
  within := by
    intro u c hrising hplain hu
    obtain ⟨v, w, b, rfl, hv, hw⟩ := hu
    obtain ⟨p, hp, hpv⟩ := hL.within hrising.left (fun l hl => hplain l (by simp [hl])) hv
    obtain ⟨q, hq, hqw⟩ := (hM b b).within hrising.right (fun l hl => hplain l (by simp [hl])) hw
    refine ⟨p ++ q, ?_, ?_⟩
    · rw [hq, hp, List.append_assoc, List.nil_append]
    · intro x hx
      rcases List.mem_append.mp hx with hx | hx
      · obtain ⟨l, hl, hstop⟩ := hpv x hx
        exact ⟨l, List.mem_append_left w hl, hstop⟩
      · obtain ⟨l, hl, hstop⟩ := hqw x hx
        exact ⟨l, List.mem_append_right v hl, hstop⟩
  strip := by
    intro u c hrising hu
    obtain ⟨v, w, a, rfl, hv, hw⟩ := hu
    obtain ⟨b, p, hb, hp, hpv⟩ := hL.strip hrising.left hv
    obtain ⟨d, q, hd, hq, hqw⟩ := (hM a b).strip hrising.right hw
    refine ⟨d, p ++ q, ?_, ?_, hpv.append hqw⟩
    · rw [solid_append]
      exact bind_intro hb hd
    · rw [hq, hp, List.append_assoc, List.nil_append]
  weave := by
    intro u d part hrising hu hd hwoven
    obtain ⟨s₁, s₂, b, heq, hb, hs₂⟩ := hu
    -- comments between the parts go to the first one
    obtain ⟨v, w, rfl, rfl, rfl, hw⟩ := split_of_solid heq
    obtain ⟨p, hp, hpv⟩ := hL.within (rising_solid hrising.left) (plain_solid v) hb
    obtain ⟨q, hq, hqw⟩ := (hM b b).within (rising_solid hrising.right) (plain_solid w) hs₂
    obtain rfl : part = p ++ q := by
      rw [hq, hp, List.nil_append, List.append_assoc] at hd
      exact (List.append_cancel_left hd).symm
    have hmem : ∀ {z l}, l ∈ solid z → l ∈ z := fun hl => (mem_solid.mp hl).1
    obtain ⟨hv', hw'⟩ := hwoven.cut hrising
      (fun x hx => (hpv x hx).imp fun l hl => ⟨hmem hl.1, hl.2⟩)
      (fun x hx => (hqw x hx).imp fun l hl => ⟨hmem hl.1, hl.2⟩) hw
    obtain ⟨a, ha⟩ := hL.weave hrising.left hb hp hv'
    obtain ⟨c, hc⟩ := (hM a b).weave hrising.right hs₂ hq hw'
    exact ⟨c, bind_intro ha hc⟩

protected theorem one {read : Token → Option α}
    (hread : ∀ t a, read t = some a → t.isComment = false ∧ t.pauses = false) :
    Weaves [] (one read) (one read) fun _ => [] where
  within _ _ _ := ⟨[], rfl, by simp⟩
  strip := by
    intro u a _ hu
    obtain ⟨l, rfl, hl⟩ := hu
    have hplain : ∀ m ∈ [l], m.node.isComment = false := by simpa using (hread _ _ hl).1
    exact ⟨a, [], by rw [solid_of_plain hplain]; exact ⟨l, rfl, hl⟩, rfl, .of_plain hplain⟩
  weave := by
    intro u a part _ hu hpart hwoven
    obtain ⟨l, heq, hl⟩ := hu
    obtain ⟨w, rfl, hw⟩ := hwoven.eq_cons heq
    obtain rfl : part = [] := hpart.symm
    cases w with
    | nil => exact ⟨a, l, rfl, hl⟩
    | cons c w =>
      obtain ⟨m, hm, hpauses⟩ := hwoven [l] c w rfl (hw c (List.mem_cons_self ..))
      rw [solid_of_plain (by simpa using (hread _ _ hl).1)] at hm
      obtain rfl : l = m := Option.some.inj hm
      simp [(hread _ _ hl).2] at hpauses

theorem one_of_outlined {read : Token → Option α} {o : Outline}
    (h : (Language.one read).Outlined o)
    (ho : ∀ x ∈ o.first, x ≠ .comment ∧ x.pauses = false := by decide) :
    Weaves [] (Language.one read) (Language.one read) fun _ => [] := by
  apply Weaves.one
  intro t a ht
  refine ⟨h.isComment_of_read (fun hmem => (ho _ hmem).1 rfl) ht, ?_⟩
  have hpauses := (ho _ (h.first_of_read ht)).2
  rw [Bool.eq_false_iff]
  intro hp
  rw [Token.terminal_pauses hp] at hpauses
  contradiction

protected theorem name : Weaves [] name name fun _ => [] :=
  one_of_outlined (Rule.Parses.name (n := 0)).outlined

protected theorem unsigned : Weaves [] unsigned unsigned fun _ => [] :=
  one_of_outlined (Rule.Parses.unsigned (n := 0)).outlined

/-- One lexeme with comments after it. -/
theorem one_pausing {read : Token → Option α}
    (hread : ∀ t a, read t = some a → t.pauses = true) :
    Weaves [] (one read >>= fun _ => comments) (one read >>= fun _ => comments) fun _ => [] where
  within _ _ _ := ⟨[], rfl, by simp⟩
  strip := by
    intro u _ _ hu
    obtain ⟨_, w, a, rfl, ⟨l, rfl, hl⟩, hw⟩ := hu
    have hpauses := hread _ _ hl
    have hplain : ∀ m ∈ [l], m.node.isComment = false := by
      simpa using Token.isComment_of_pauses hpauses
    have hsolid : solid [l] = [l] := solid_of_plain hplain
    refine ⟨(), [], ?_, rfl, ?_⟩
    · rw [solid_append, hsolid, solid_of_comments hw]
      exact bind_intro ⟨l, rfl, hl⟩ fun m hm => by contradiction
    · have hwoven : Woven [] [l] := .of_plain hplain
      exact hwoven.trailed (by rw [hsolid]; rfl) (Or.inl hpauses) hw
  weave := by
    intro u _ part _ hu _ hwoven
    obtain ⟨_, w, a, heq, ⟨l, rfl, hl⟩, hw⟩ := hu
    have hnil : w = [] := by
      apply nil_of_comments hw
      intro m hm
      exact plain_solid u m (by rw [heq]; exact List.mem_append_right _ hm)
    rw [hnil, List.append_nil] at heq
    obtain ⟨w, rfl, hw⟩ := hwoven.eq_cons heq
    exact ⟨(), [l], w, a, rfl, ⟨l, rfl, hl⟩, hw⟩

protected theorem keyword {k : Keyword} (hk : k ∈ pausingKeywords) :
    Weaves [] (keyword k) (keyword k) fun _ => [] := by
  apply one_pausing
  intro t a ht
  by_cases hkeyword : t.isKeyword k = true
  · exact Token.pauses_of_isKeyword hkeyword hk
  · rw [if_neg hkeyword] at ht
    contradiction

protected theorem mark (m : Mark) : Weaves [] (mark m) (mark m) fun _ => [] := by
  apply one_pausing
  intro t a ht
  by_cases hmark : t = .mark m
  · rw [hmark]
    rfl
  · rw [if_neg hmark] at ht
    contradiction

protected theorem map (hL : Weaves [] L L' s) {f f' : α → β} (h : ∀ a, t (f' a) = s a) :
    Weaves [] (L >>= fun a => pure (f a)) (L' >>= fun a => pure (f' a)) t :=
  hL.bind fun _ b => Weaves.pure (by rw [h, List.nil_append])

protected theorem orElse {N N' : Language α} (hL : Weaves [] L L' s) (hN : Weaves [] N N' s) :
    Weaves [] (L <|> N) (L' <|> N') s where
  within := by
    intro u a hrising hplain hu
    rcases hu with hu | hu
    · exact hL.within hrising hplain hu
    · exact hN.within hrising hplain hu
  strip := by
    intro u a hrising hu
    rcases hu with hu | hu
    · obtain ⟨b, part, hb, hpart⟩ := hL.strip hrising hu
      exact ⟨b, part, Or.inl hb, hpart⟩
    · obtain ⟨b, part, hb, hpart⟩ := hN.strip hrising hu
      exact ⟨b, part, Or.inr hb, hpart⟩
  weave := by
    intro u b part hrising hu hpart hwoven
    rcases hu with hu | hu
    · exact (hL.weave hrising hu hpart hwoven).imp fun _ => Or.inl
    · exact (hN.weave hrising hu hpart hwoven).imp fun _ => Or.inr

protected theorem optional (hL : Weaves [] L L' fun _ => []) :
    Weaves [] (optional L) (optional L') fun _ => [] where
  within _ _ _ := ⟨[], rfl, by simp⟩
  strip := by
    intro u a hrising hu
    cases a with
    | none =>
      obtain rfl : u = [] := hu
      exact ⟨none, [], rfl, rfl, .of_plain (by simp)⟩
    | some a =>
      obtain ⟨b, part, hb, hpart⟩ := hL.strip hrising hu
      exact ⟨some b, part, hb, hpart⟩
  weave := by
    intro u b part hrising hu hpart hwoven
    cases b with
    | none => exact ⟨none, hwoven.eq_nil hu⟩
    | some b =>
      obtain ⟨a, ha⟩ := hL.weave hrising hu hpart hwoven
      exact ⟨some a, ha⟩

theorem exists_depth {N N' : Nat → Language α} (h : ∀ n, Weaves [] (N n) (N' n) s) :
    Weaves [] (fun u a => ∃ n, N n u a) (fun u a => ∃ n, N' n u a) s where
  within := by
    intro u a hrising hplain hu
    obtain ⟨n, hu⟩ := hu
    exact (h n).within hrising hplain hu
  strip := by
    intro u a hrising hu
    obtain ⟨n, hu⟩ := hu
    obtain ⟨b, part, hb, hpart⟩ := (h n).strip hrising hu
    exact ⟨b, part, ⟨n, hb⟩, hpart⟩
  weave := by
    intro u b part hrising hu hpart hwoven
    obtain ⟨n, hu⟩ := hu
    obtain ⟨a, ha⟩ := (h n).weave hrising hu hpart hwoven
    exact ⟨a, n, ha⟩

protected theorem many (hL : Weaves [] L L' s) :
    Weaves [] (many L) (many L') fun items => items.flatMap s := by
  rw [many_eq_exists, many_eq_exists]
  apply exists_depth
  intro n
  induction n with
  | zero => exact Weaves.pure rfl
  | succ n ih =>
    have hnil : Weaves [] (pure [] : Language (List α)) (pure []) fun items => items.flatMap s :=
      Weaves.pure rfl
    exact hnil.orElse (hL.bind fun _ _ => ih.bind fun _ _ => Weaves.pure (by simp))

protected theorem atLeastOne (hL : Weaves [] L L' s) :
    Weaves [] (atLeastOne L) (atLeastOne L') fun items => items.flatMap s :=
  hL.bind fun _ _ => hL.many.bind fun _ _ => Weaves.pure (by simp)

theorem congr (h : Weaves before L L' s) {s' : α → List Position} (hs : ∀ a, s a = s' a) :
    Weaves before L L' s' := by
  rwa [← funext hs]

theorem many_plain (hL : Weaves [] L L' fun _ => []) :
    Weaves [] (many L) (many L') fun _ => [] :=
  hL.many.congr fun _ => List.flatMap_eq_nil_iff.mpr fun _ _ => rfl

protected theorem separated {S S' : Language Unit} (hL : Weaves [] L L' fun _ => [])
    (hS : Weaves [] S S' fun _ => []) :
    Weaves [] (separated L S) (separated L' S') fun _ => [] := by
  rw [separated_eq, separated_eq]
  have hnil : Weaves [] (pure [] : Language (List α)) (pure []) fun _ => [] := Weaves.pure rfl
  exact hnil.orElse (hL.bind fun _ _ =>
    (hS.bind fun _ _ => hL).many_plain.bind fun _ _ => Weaves.pure rfl)

protected theorem located (hL : Weaves [] L L' s) :
    Weaves [] (located L) (located L') fun x => s x.node where
  within hrising hplain hu := hL.within hrising hplain hu.1
  strip := by
    intro u a hrising hu
    obtain ⟨b, part, hb, hpart⟩ := hL.strip hrising hu.1
    exact ⟨⟨b, span (solid u)⟩, part, ⟨hb, rfl⟩, hpart⟩
  weave := by
    intro u b part hrising hu hpart hwoven
    obtain ⟨a, ha⟩ := hL.weave hrising hu.1 hpart hwoven
    exact ⟨⟨a, span u⟩, ha, rfl⟩

protected theorem bracketed (hL : Weaves [] L L' fun _ => []) :
    Weaves [] (bracketed L) (bracketed L') fun _ => [] :=
  (Weaves.mark _).bind fun _ _ => hL.bind fun _ _ => (Weaves.mark _).bind fun _ _ =>
    Weaves.pure rfl

/-- An item that comments may follow. Its own end is added to those inside of it. -/
theorem item {o : Outline} (hL : Weaves [] L L' s) (h : L'.Outlined o) (ho : o.empty = false) :
    Weaves [] (trailed (located L)) (trailed (located L')) fun x => s x.node ++ [x.range.stop] where
  within := by
    intro u x hrising hplain hu
    obtain ⟨hu, hrange⟩ := plain_of_trailed hplain hu
    obtain ⟨part, hpart, hmem⟩ := hL.within hrising hplain hu
    obtain ⟨l, hl⟩ := exists_getLast? (h.ne_nil ho hu)
    have hstop := span_stop hrising (by rw [solid_of_plain hplain]; exact hl)
    refine ⟨part ++ [x.range.stop], by rw [hpart, List.append_assoc], ?_⟩
    intro y hy
    rcases List.mem_append.mp hy with hy | hy
    · exact hmem y hy
    · exact ⟨l, List.mem_of_getLast? hl, by rw [List.mem_singleton.mp hy, hrange, hstop]⟩
  strip := by
    intro u x hrising hu
    obtain ⟨v, w, rfl, ⟨hv, -⟩, hw⟩ := Outlined.trailed_iff.mp hu
    obtain ⟨b, part, hb, hpart, hwoven⟩ := hL.strip hrising.left hv
    obtain ⟨l, hl⟩ := exists_getLast? (h.ne_nil ho hb)
    have hstop := span_solid_stop hrising.left hl
    refine ⟨⟨b, span (solid v)⟩, part ++ [l.range.stop], ?_, ?_, ?_⟩
    · rw [solid_append, solid_of_comments hw]
      exact Outlined.trailed_iff.mpr ⟨solid v, [], rfl, ⟨hb, rfl⟩, by simp⟩
    · rw [hpart, hstop, List.append_assoc]
    · exact hwoven.trailed hl (Or.inr (List.mem_singleton_self _)) hw
  weave := by
    intro u x part hrising hu hpart hwoven
    obtain ⟨hu, hrange⟩ := plain_of_trailed (plain_solid u) hu
    -- the comments at the end are those that follow the item, the others stand inside of it
    obtain ⟨v, w, rfl, hw, hlast⟩ := trim_comments u
    rw [solid_append, solid_of_comments hw, List.append_nil] at hu hrange
    obtain ⟨p, hp, -⟩ := hL.within (rising_solid hrising.left) (plain_solid v) hu
    obtain ⟨l, hl⟩ := exists_getLast? (h.ne_nil ho hu)
    have hstop := span_solid_stop hrising.left hl
    obtain rfl : part = p ++ [l.range.stop] := by
      rw [hp, hrange, hstop, List.nil_append] at hpart
      exact hpart.symm
    rw [getLast?_solid hlast] at hl
    have hv := hwoven.init hrising.left hl
    obtain ⟨a, ha⟩ := hL.weave hrising.left hu hp hv
    exact ⟨⟨a, span v⟩, Outlined.trailed_iff.mpr ⟨v, w, rfl, ⟨ha, rfl⟩, hw⟩⟩

end Weaves

end Language
end KarelKit
