import KarelKit.Proofs.Grammar.DataType
import KarelKit.Proofs.Grammar.Value
import KarelKit.Proofs.Walk.Grammar
import KarelKit.Proofs.Walk.Repetition

namespace KarelKit.Walk

open Grammar

variable {α β : Type} {n : Nat}

theorem name_performs : name.Performs Rule.name n := Performs.accept _ _

theorem typeName_performs : typeName.Performs Rule.typeName n := Performs.accept _ _

theorem unsigned_performs : unsigned.Performs Rule.unsigned n := Performs.accept _ _

theorem name_failsCleanly : Rule.name.FailsCleanly n := Rule.Parses.name.failsCleanly (by decide)

theorem reference_performs : Walk.reference.Performs Grammar.reference n := by
  refine name_performs.bind fun first => ?_
  have hpath := (name_performs.continued (m := .dot) (n := n) name_failsCleanly
    (component_parses.advances rfl) [first]).map Value.reference
  refine hpath.congr fun {c} _ => ?_
  unfold Rule.furtherFrom
  rw [Rule.bind_assoc]
  rfl

theorem value_performs : Walk.value.Performs Grammar.value n := by
  have hnumber : Walk.number.Performs Grammar.number n := Performs.accept _ _
  have hquoted : Walk.quoted.Performs Grammar.quoted n := Performs.accept _ _
  have hboolean : Walk.boolean.Performs Grammar.boolean n := Performs.accept _ _
  have hlast := reference_performs.alternatives_last (n := n)
    (reference_parses.failsCleanly (by decide))
  have hboolean := hboolean.alternatives_cons (boolean_parses.failsCleanly (by decide)) hlast
  have hquoted := hquoted.alternatives_cons (quoted_parses.failsCleanly (by decide)) hboolean
  exact Performs.choice_of_alternatives
    (hnumber.alternatives_cons (number_parses.failsCleanly (by decide)) hquoted)

theorem constant_performs : Walk.constant.Performs Grammar.constant n :=
  name_performs.bind fun name => (Performs.mark _).bind fun _ =>
    value_performs.located.map (Constant.mk name)

theorem group_performs : Walk.group.Performs Grammar.group n :=
  (Performs.keyword _).bind fun _ => (Performs.keyword _).bind fun _ => unsigned_performs.bracketed

theorem stringType_performs : Walk.stringType.Performs Grammar.stringType n :=
  (Performs.keyword _).bind fun _ => unsigned_performs.bracketed.map DataType.string

theorem arraySizes_performs :
    (bracketed (separated (located Walk.arraySize) .comma)).Performs
      (Rule.bracketed (Rule.separated (Rule.located Grammar.arraySize) (Rule.mark .comma))) n := by
  have hsize : Walk.arraySize.Performs Grammar.arraySize n := Performs.accept _ _
  have hparses := arraySize_parses.located (n := n) rfl (by decide)
  have hnext := (Rule.Parses.mark .comma).bind (fun _ => hparses) (by decide)
  exact (hsize.located.separated (hparses.failsCleanly (by decide)) (hnext.advances rfl)).bracketed

theorem arrayType_performs {element : Walk DataType} {s : Rule DataType}
    (h : element.Performs s n) :
    (Walk.arrayType element).Performs (Grammar.arrayType s) (n + 1) := by
  refine (Performs.keyword _).bind_advancing ((Rule.Parses.keyword _).advances rfl) fun _ => ?_
  have hsizes := arraySizes_performs.optional (sizes_parses.failsCleanly (n := n) (by decide))
  exact hsizes.bind fun sizes => (Performs.keyword _).bind fun _ =>
    h.located.map fun element => DataType.array (sizes.getD []) element.node element.range

theorem positionType_performs : Walk.positionType.Performs Grammar.positionType n := by
  refine ⟨fun {text w} hw hn => ?_⟩
  refine Gives.look_bind hw (Gives.ahead_bind hw (Gives.ahead_bind hw ?_))
  have hnode : ∀ k, (text.look (w.index + k)).node = (text.cursor w).ahead[k]?.map (·.node) := by
    intro k
    rw [text.node_look, text.getElem?_ahead]
  have hcondition : (((text.look w.index).node.bind Token.name?).isSome &&
      (text.look (w.index + 1)).node.any (·.isKeyword .IN) &&
      (text.look (w.index + 2)).node.any (·.isKeyword .GROUP)) =
      namesPosition (text.cursor w).ahead := by
    rw [hnode 1, hnode 2, show (text.look w.index).node = _ from hnode 0]
    -- where fewer than three tokens are ahead, the end is no keyword
    match (text.cursor w).ahead with
    | [] => rfl
    | [_] => simp [namesPosition]
    | [_, _] => simp [namesPosition]
    | _ :: _ :: _ :: _ => rfl
  rw [hcondition]
  have hgroup := fun name => (group_performs (n := n)).map (DataType.position name)
  unfold Grammar.positionType
  rw [Rule.bind_apply]
  unfold Rule.lookahead
  split
  · exact (name_performs.bind hgroup).gives hw hn
  · exact (Performs.unexpected _).gives hw hn

theorem positionType_failsCleanly : Grammar.positionType.FailsCleanly n := by
  refine ⟨fun {c c' e} hc h => ?_⟩
  unfold Grammar.positionType at h
  rw [Rule.bind_apply] at h
  unfold Rule.lookahead at h
  by_cases hnames : namesPosition c.ahead = true
  · simp only [if_pos hnames] at h
    exact (namedPosition_parses.failsCleanly (by decide)).error hc h
  · simp only [if_neg hnames, Rule.fail] at h
    cases h
    exact ⟨[], .refl c, by simp, rfl⟩

theorem pathType_performs : Walk.pathType.Performs Grammar.pathType n := by
  have hheader : Walk.pathHeader.Performs Grammar.pathHeader n :=
    (Performs.keyword _).bind fun _ => (Performs.mark _).bind fun _ =>
      name_performs.bind fun header => (Performs.mark _).map fun _ => header
  have hcleanly := pathHeader_parses.failsCleanly (n := n) (by decide)
  exact (Performs.keyword _).bind fun _ => (hheader.optional hcleanly).bind fun header =>
    (Performs.keyword _).bind fun _ => (Performs.mark _).bind fun _ =>
      name_performs.map (DataType.path header)

theorem namedType_performs : Walk.namedType.Performs Grammar.namedType n :=
  typeName_performs.bind fun name =>
    (group_performs.optional (group_parses.failsCleanly (by decide))).map (DataType.named name)

theorem dataTypeOf_performs {element : Walk DataType} {s : Rule DataType}
    {L : Language DataType} (h : element.Performs s n) (hs : s.Parses L .dataType n) :
    (dataTypeOf element).Performs
      (Grammar.stringType <|> Grammar.arrayType s <|> Grammar.positionType <|> Grammar.pathType <|>
        Grammar.namedType) (n + 1) := by
  have hnamed := namedType_performs.alternatives_last (n := n + 1)
    (namedType_parses.failsCleanly (by decide))
  have hpath := pathType_performs.alternatives_cons (pathType_parses.failsCleanly (by decide)) hnamed
  have hposition := positionType_performs.alternatives_cons positionType_failsCleanly hpath
  have harray := (arrayType_performs h).alternatives_cons
    ((arrayType_parses hs).failsCleanly (by decide)) hposition
  exact Performs.choice_of_alternatives (stringType_performs.alternatives_cons
    (stringType_parses.failsCleanly (by decide)) harray)

/-- References deep enough for all tokens ahead suffice. -/
theorem dataTypeTo_performs {depth : Nat} (h : n ≤ depth) :
    (dataTypeTo depth).Performs Grammar.dataType n := by
  induction n generalizing depth with
  | zero => exact ⟨fun _ hn => absurd hn (Nat.not_lt_zero _)⟩
  | succ n ih =>
    cases depth with
    | zero => contradiction
    | succ depth =>
      refine ⟨fun {text w} hw hn => ?_⟩
      have helement := (ih (Nat.le_of_succ_le_succ h)).mono (Nat.le_of_lt_succ hn)
      have hbelow : (dataTypeTo depth).Performs
          (Rule.below (text.cursor w).size Grammar.dataType) (text.cursor w).size :=
        helement.congr Rule.below_apply
      rw [Grammar.dataType, Rule.recursive_apply]
      exact (dataTypeOf_performs hbelow dataType_parses.below).gives hw (Nat.lt_succ_self _)

/-- All runs of one walk are runs of another. -/
def Within (r r' : Walk α) : Prop := ∀ ⦃text w run⦄, r text w run → r' text w run

namespace Within

variable {r r' : Walk α} {f f' : α → Walk β}

protected theorem refl (r : Walk α) : r.Within r := fun _ _ _ h => h

protected theorem bind (hr : r.Within r') (hf : ∀ a, (f a).Within (f' a)) :
    (r >>= f).Within (r' >>= f') := by
  intro text w run h
  cases h with
  | ok first next => exact .ok (hr first) (hf _ next)
  | error first => exact .error (hr first)

protected theorem heard (hr : r.Within r') : (heard r).Within (heard r') := by
  intro text w run h
  cases h with
  | ok run => exact .ok (hr run)
  | error run => exact .error (hr run)

protected theorem attempt (hr : r.Within r') : (attempt r).Within (attempt r') :=
  (Within.refl walker).bind fun _ => hr.heard.bind fun _ => .refl _

protected theorem alternatives {rules rules' : List (Walk α)} (h : List.Forall₂ Within rules rules')
    (expected : List Expectation) :
    (alternatives expected rules).Within (alternatives expected rules') := by
  induction h generalizing expected with
  | nil => exact .refl _
  | cons hr _ ih =>
    refine hr.attempt.bind fun x => ?_
    cases x with
    | ok a => exact .refl _
    | error e => exact ih _

protected theorem located (hr : r.Within r') : (located r).Within (located r') :=
  (Within.refl look).bind fun _ => hr.bind fun _ => .refl _

end Within

theorem arrayType_within {element element' : Walk DataType} (h : element.Within element') :
    (Walk.arrayType element).Within (Walk.arrayType element') :=
  (Within.refl _).bind fun _ => (Within.refl _).bind fun _ => (Within.refl _).bind fun _ =>
    h.located.bind fun _ => .refl _

theorem dataTypeTo_succ_within (depth : Nat) :
    (dataTypeTo depth).Within (dataTypeTo (depth + 1)) := by
  induction depth with
  | zero => exact fun _ _ _ h => absurd h not_false
  | succ depth ih =>
    exact Within.alternatives (.cons (.refl _) (.cons (arrayType_within ih)
      (.cons (.refl _) (.cons (.refl _) (.cons (.refl _) .nil))))) []

theorem dataTypeTo_within {m depth : Nat} (h : m ≤ depth) :
    (dataTypeTo m).Within (dataTypeTo depth) := by
  induction h with
  | refl => exact .refl _
  | step _ ih => exact fun _ _ _ hrun => dataTypeTo_succ_within _ (ih hrun)

/-- More references than there are tokens ahead allow no further run. -/
theorem dataType_performs : Walk.dataType.Performs Grammar.dataType n := by
  refine ⟨fun {text w} hw _ => ?_⟩
  obtain ⟨run, hrun, horder, hunique⟩ :=
    (dataTypeTo_performs (Nat.le_refl _)).gives hw (Nat.lt_succ_self _)
  refine ⟨run, hrun, horder, fun run' => ?_⟩
  constructor
  · intro ⟨depth, h⟩
    obtain ⟨run'', -, -, hunique'⟩ :=
      (dataTypeTo_performs (Nat.le_max_right depth _)).gives hw (Nat.lt_succ_self _)
    have hrun'' := (hunique' _).mp (dataTypeTo_within (Nat.le_max_left ..) h)
    have hrun := (hunique' _).mp (dataTypeTo_within (Nat.le_max_right ..) ((hunique _).mpr rfl))
    rw [hrun'', hrun]
  · rintro rfl
    exact ⟨_, (hunique run').mpr rfl⟩

end KarelKit.Walk
