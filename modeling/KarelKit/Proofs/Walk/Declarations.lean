import KarelKit.Proofs.Grammar.Sections
import KarelKit.Proofs.Walk.DataType

namespace KarelKit.Walk

open Grammar

variable {α β : Type} {n : Nat}

theorem field_performs : Walk.field.Performs Grammar.field n :=
  name_performs.bind fun name => (Performs.mark _).bind fun _ =>
    dataType_performs.located.map (Field.mk name)

theorem recordType_performs : Walk.recordType.Performs Grammar.recordType n := by
  have hparses := (field_parses.located (n := n) rfl (by decide)).trailed rfl
  have hfields := field_performs.located.atLeastOne (hparses.failsCleanly (by decide))
    (hparses.advances rfl)
  refine (Performs.keyword _).bind_clear (Rule.keyword_endsClear _) fun _ => ?_
  rw [← Rule.bind_assoc]
  exact hfields.bind fun fields => (Performs.keyword _).map fun _ => UserType.record fields

theorem userType_performs : Walk.userType.Performs Grammar.userType n := by
  have hdata := dataType_performs.map (n := n) UserType.data
  have hlast := hdata.alternatives_last ((dataType_parses.map _).failsCleanly (by decide))
  exact Performs.choice_of_alternatives (recordType_performs.alternatives_cons
    (recordType_parses.failsCleanly (by decide)) hlast)

theorem typeDeclaration_performs : Walk.typeDeclaration.Performs Grammar.typeDeclaration n := by
  have hfrom := (Performs.keyword (n := n) .FROM).bind fun _ => name_performs
  have hparses := (Rule.Parses.keyword (n := n) .FROM).bind (fun _ => Rule.Parses.name) (by decide)
  refine name_performs.bind fun name => ?_
  refine (hfrom.optional (hparses.failsCleanly (by decide))).bind fun fromProgram => ?_
  exact (Performs.mark _).bind fun _ => userType_performs.located.map fun userType =>
    TypeDeclaration.mk name userType fromProgram

theorem section_performs {r : Walk α} {s : Rule α} (k : Keyword) (hr : r.Performs s n)
    (hs : (Rule.trailed s).FailsCleanly n) (hadvance : (Rule.trailed s).Advances n)
    (f : List α → β) :
    (keyword k >>= fun _ => many (amidComments r) >>= fun items => pure (f items)).Performs
      (Rule.keyword k >>= fun _ => Rule.many (Rule.trailed s) >>= fun items => pure (f items)) n := by
  refine (Performs.keyword k).bind_clear (Rule.keyword_endsClear k) fun _ => ?_
  rw [← Rule.bind_assoc]
  exact (hr.many hs hadvance).map f

theorem declarations_performs :
    Walk.declarations.Performs (Rule.skipComments >>= fun _ => Grammar.declarations) n := by
  have hloop : Walk.declarations.Performs (sectionsFrom ∅) n := by
    refine Performs.loop (fun d => ?_) sections_unroll ∅
    refine Performs.passComments.bind fun _ => Performs.look_bind fun l => ?_
    unfold nextSection
    dsimp only
    split
    · have hparses := (typeDeclaration_parses.located (n := n) rfl (by decide)).trailed rfl
      simp only [Grammar.typeSection, Rule.bind_assoc]
      exact section_performs .TYPE typeDeclaration_performs.located
        (hparses.failsCleanly (by decide)) (hparses.advances rfl) _
    · split
      · have hparses := (constant_parses.located (n := n) rfl (by decide)).trailed rfl
        simp only [Grammar.constantSection, Rule.bind_assoc]
        exact section_performs .CONST constant_performs.located
          (hparses.failsCleanly (by decide)) (hparses.advances rfl) _
      · split
        · exact Performs.pure _
        · exact Performs.unexpected _
  refine hloop.congr fun {c} _ => ?_
  rw [sectionsFrom, Rule.bind_apply, Rule.bind_apply, Rule.skipComments_apply]
  simp only [Rule.bind_apply]
  cases Grammar.declarations c.skipComments <;> rfl

end KarelKit.Walk
