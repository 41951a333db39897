import Rsrc.Proofs.Local.Construct

/-!
# Type blocks in a setting

Templates, constructors, fields and the types that hold them are read in the same way in two settings.
-/

namespace Rsrc.Parse

variable {k k' : Setting} {weak p : Prop} {st : ParseState}

/-! ### Templates -/

theorem Local.byteOrder (decorators : Decorators) :
    Local k k' weak p (Parse.byteOrder decorators) fun _ => p := by
  intro st
  unfold Parse.byteOrder
  split
  · exact .pure id
  · split
    · exact .pure id
    · exact .pure id
    · exact .throw _

theorem Step.entryTag : Step k k' weak True Parse.entryTag := by
  intro st
  refine (Step.one (by decide) st).bind fun code st => ?_
  refine .ite (fun _ => ?_) fun _ => ?_
  · refine (Local.skip (by decide) st).bind fun _ st => ?_
    refine (Local.identifier st).bind fun name st => ?_
    refine (Local.skip (by decide) st).bind fun _ st => ?_
    refine .session ?_ fun _ _ => rfl
    split
    · exact .pure id
    · exact (LocalAt.ofUpdate (.throw _)).mono id id fun _ _ => trivial
  · split
    · exact (LocalAt.ofUpdate (.throw _)).mono id id fun _ _ => trivial
    · exact .session (.pure id) fun _ _ => rfl
    · exact .pure id

theorem Step.templateEntry (t : Template TypeDef) :
    Step k k' weak True (Parse.templateEntry t) fun _ => False := by
  intro st
  refine (Step.entryTag st).bind fun (tag, nested) st => ?_
  refine (Local.identifier st).bind fun label st => ?_
  refine (Local.skipEdge _ st).bind fun _ st => ?_
  exact .ofUpdate (Update.Tame.define (n := 0) ..).natural

theorem StepAt.templateBlock [Meets k k'] (d : TypeDef)
    (fits : st.settled.cursor.isAt (.keyword "template")) :
    StepAt k k' True True (Parse.templateBlock d) (fun _ => False) st := by
  refine .claimed rfl fun decorators => ?_
  refine (StepAt.anyOf (by decide) fits).bind fun keyword st => ?_
  refine (Local.byteOrder decorators st).bind fun order st => ?_
  refine (Local.skipEdge _ st).bind fun _ st => ?_
  refine (Local.toBrace Step.templateEntry _ st).bind fun template st => ?_
  refine (Local.closeBlock st).bind fun _ st => ?_
  exact .ofUpdate (Update.Tame.define (n := 0) ..).natural

/-! ### Constructors -/

theorem Step.constructorStatement (body : List Statement) :
    Step k k' weak True (Parse.constructorStatement body) fun _ => False := by
  intro st
  refine (Step.statement st).bind fun statement st => ?_
  exact (Local.skipEdge _ st).bind fun _ st => .pure id

theorem StepAt.constructorBlock [Meets k k'] (d : TypeDef)
    (fits : st.settled.cursor.isAt (.keyword "constructor")) :
    StepAt k k' True True (Parse.constructorBlock d) (fun _ => False) st := by
  refine .claimed rfl fun decorators => ?_
  refine (StepAt.anyOf (by decide) fits).bind fun keyword st => ?_
  refine (Local.bracketed (by decide) (by decide) Local.identifier st).bind fun parameters st => ?_
  refine (Local.skipEdge _ st).bind fun _ st => ?_
  refine (Local.toBrace Step.constructorStatement _ st).bind fun body st => ?_
  refine (Local.closeBlock st).bind fun _ st => ?_
  exact .ofUpdate (Update.Tame.define (n := 0) ..).natural

/-! ### Values of fields -/

theorem Local.valueSymbol : Local k k' weak True Parse.valueSymbol := by
  intro st
  refine (Local.identifier st).bind fun name st => ?_
  refine (Local.skip (by decide) st).bind fun _ st => ?_
  exact (Step.expr st).toLocalAt.bind fun e st => .pure id

theorem Local.descriptor? : Local k k' weak True Parse.descriptor? := by
  intro st
  refine (Local.acceptInner (by decide) st).bind fun given st => ?_
  cases given with
  | true =>
    refine (Local.identifier st).bind fun name st => ?_
    exact (Local.acceptInner (by decide) st).bind fun isReference st => .pure id
  | false => exact .pure id

theorem Local.default? : Local k k' weak True Parse.default? := by
  intro st
  refine (Local.acceptInner (by decide) st).bind fun given st => ?_
  cases given with
  | true => exact (Step.operand st).toLocalAt.bind fun operand st => .pure id
  | false => exact .pure id

theorem Step.valuePart : Step k k' weak True Parse.valuePart := by
  intro st
  refine (Step.one (by decide) st).bind fun name st => ?_
  refine (Local.descriptor? st).bind fun descriptor st => ?_
  refine (Local.default? st).bind fun default st => ?_
  refine (Local.isAt _ st).bind fun given st => ?_
  cases given with
  | true =>
    refine (Local.bracketed (by decide) (by decide) Local.valueSymbol st).bind fun symbols st => ?_
    exact .pure id
  | false =>
    have none : LocalAt k k' False True (pure ([] : List FieldSymbol)) (fun _ => True) st := .pure id
    exact none.bind fun symbols st => .pure id

theorem Local.joinedWithin (limit : Nat) : Local k k' False True (Parse.joinedWithin limit) := by
  induction limit with
  | zero =>
    intro st
    exact .pure id
  | succ limit ih =>
    intro st
    refine (Local.acceptInner (by decide) st).bind fun more st => ?_
    cases more with
    | true =>
      refine (Step.valuePart st).toLocalAt.bind fun part st => ?_
      exact (ih st).bind fun rest st => .pure id
    | false => exact .pure id

theorem joinedWithin_of_finished (limit : Nat) (ended : st.cursor.unread = 0) :
    Parse.joinedWithin limit st = .ok [] st := by
  cases limit with
  | zero => rfl
  | succ limit =>
    have none : st.cursor.isAt (.keyword "join") = false := by
      simp [Cursor.isAt, Cursor.peek_of_unread ended]
    have no : ofReading (Reading.accept (.keyword "join")) st = .ok false st := by
      simp [ofReading, Reading.accept, none]
    exact bind_of_ok no

/-- There are never more labels than lexemes. -/
theorem joinedWithin_fuel {n n' : Nat} (h : st.cursor.unread ≤ n) (h' : st.cursor.unread ≤ n') :
    Parse.joinedWithin n st = Parse.joinedWithin n' st := by
  induction n generalizing n' st with
  | zero =>
    have ended : st.cursor.unread = 0 := by omega
    rw [joinedWithin_of_finished _ ended, joinedWithin_of_finished _ ended]
  | succ n ih =>
    cases n' with
    | zero =>
      have ended : st.cursor.unread = 0 := by omega
      rw [joinedWithin_of_finished _ ended, joinedWithin_of_finished _ ended]
    | succ n' =>
      rw [Parse.joinedWithin, Parse.joinedWithin]
      refine bind_congr_at rfl fun more t accepted => ?_
      cases more with
      | false => rfl
      | true =>
        have join := unread_of_accepted accepted
        refine bind_congr_at rfl fun part u read => ?_
        have step : StepAt {} {} False True Parse.valuePart _ t := Step.valuePart t
        have part_le := step.toLocalAt.later.unread
        rw [read] at part_le
        dsimp only [finalState] at part_le
        exact bind_congr_at (ih (by omega) (by omega)) fun _ _ _ => rfl

theorem Local.joined :
    Local k k' False True (Parse.cursor >>= fun c => Parse.joinedWithin c.unread) :=
  fun st => .fueled (f := fun n => Parse.joinedWithin n) (fun _ _ _ h h' => joinedWithin_fuel h h')
    fun n => Local.joinedWithin n st

theorem scoped_constantValue {n : Nat} (v : FieldValue) : Update.Scoped n (constantValue v) := by
  unfold constantValue
  split
  · exact .pure _
  · refine .inScope _ fun m scope above => (Update.Scoped.bindSymbols above _).bind fun _ => ?_
    rw [map_eq_pure_bind]
    exact (Update.Scoped.value ..).bind fun value => .pure _

theorem StepAt.fieldValue [Meets k k'] (values : List FieldValue) :
    StepAt k k' True True (Parse.fieldValue values) (fun _ => False) st := by
  refine .claimed rfl fun decorators => ?_
  refine (Step.valuePart _).bind fun first st => ?_
  rw [← bind_assoc]
  refine (Local.joined st).bind fun joined st => ?_
  refine (Local.skipEdge _ st).bind fun _ st => ?_
  refine .ite (fun _ => ?_) fun _ => .pure id
  exact (LocalAt.ofUpdate (scoped_constantValue (n := 0) _).toTame.natural).bind
    fun constant st => .pure id

theorem Step.fieldItem [Meets k k'] (values : List FieldValue) :
    Step k k' True True (Parse.fieldItem values) fun _ => False := by
  intro st
  refine .isAt _ fun decorated st => ?_
  cases decorated with
  | true => exact (Step.decorator st).bind fun _ st => .pure fun h => h.elim
  | false => exact .fieldValue values

/-! ### Fields -/

theorem Local.repetition : Local k k' False True Parse.repetition := by
  intro st
  have count : ∀ bounds : Int64 × Int64, Local k k' False True (do
      let count ← Reading.identifier
      Reading.skip LexemeKind.rightAngle
      return ({ lower := bounds.1, upper := bounds.2, count := count.text } : Repetition) :
        Parse Repetition) := by
    intro bounds st
    refine (Local.identifier st).bind fun count st => ?_
    exact (Local.skip (by decide) st).bind fun _ st => .pure id
  refine (Step.ensure (by decide) st).toLocalAt.bind fun _ st => ?_
  refine .cursor ?_ fun ready opened => ?_
  · dsimp only
    split
    · exact (LocalAt.pure id).bind count
    · refine (Local.integer st).bind fun lower st => ?_
      refine (Local.skip (by decide) st).bind fun _ st => ?_
      refine (Local.integer st).bind fun upper st => ?_
      refine (Local.skip (by decide) st).bind fun _ st => ?_
      exact (LocalAt.pure id).bind count
  · have inner : Expectation.Inner LexemeKind.identifier := by decide
    obtain ⟨first, second⟩ := (opened trivial).isAt LexemeKind.identifier
    obtain ⟨first', second'⟩ := ready.expects LexemeKind.leftParen (opened trivial) inner
    exact ⟨by rw [first, first'], by rw [second, second']⟩

theorem Local.fieldBody [Meets k k'] (decorators : Decorators) (name : Lexeme) :
    Local k k' False True (Parse.fieldBody decorators name) fun _ => False := by
  intro st
  refine (Local.accept _ st).bind fun ended st => ?_
  cases ended with
  | true =>
    have declined : LocalAt k k' False False (Parse.ofUpdate (Update.reject name
        (.definition (.missingValues name.text)) : Update Field)) (fun _ => False) st :=
      .ofUpdate (.throw _)
    refine .mono (p := False) ?_ id False.elim fun _ => id
    rw [if_pos rfl]
    exact .ite (fun _ => .pure id) fun _ => declined
  | false =>
    refine .mono (p := True) ?_ id (fun _ => nofun) fun _ => id
    refine (Local.skipEdge _ st).bind fun _ st => ?_
    refine (Local.toBrace (Step.fieldItem) _ st).bind fun values st => ?_
    exact (Local.closeBlock st).bind fun _ st => .pure id

theorem StepAt.fieldBlock [Meets k k'] (d : TypeDef) :
    StepAt k k' True True (Parse.fieldBlock d) (fun _ => False) st := by
  refine .claimed rfl fun decorators => ?_
  refine (Step.ensure (by decide) _).bind fun _ st => ?_
  refine (Local.one (by decide) st).bind fun name st => ?_
  have body : ∀ repetition : Option Repetition, Local k k' True True (do
      let field ← Parse.fieldBody decorators name
      let deprecated := (decorators.get? "deprecated").map fun d => d.arguments.head?.getD ""
      ofUpdate (Update.define name (d.addField { field with repetition, deprecated })))
        fun _ => False := by
    intro repetition st
    refine (Local.fieldBody decorators name st).bind fun field st => ?_
    exact .ofUpdate (Update.Tame.define (n := 0) ..).natural
  refine (Local.skip (by decide) st).bind fun _ st => ?_
  refine (Local.isAt _ st).bind fun repeated st => ?_
  cases repeated with
  | true =>
    have given : Local k k' False True (some <$> Parse.repetition) := by
      intro st
      rw [map_eq_pure_bind]
      exact (Local.repetition st).bind fun r st => .pure id
    exact (given st).bind body
  | false =>
    have none : LocalAt k k' False True (pure (none : Option Repetition)) (fun _ => True) st :=
      .pure id
    exact none.bind body

/-! ### Types -/

theorem Step.typeItem [Meets k k'] (d : TypeDef) :
    Step k k' True True (Parse.typeItem d) fun _ => False := by
  intro st
  refine .cursor ?_ fun _ opened => ?_
  · refine .ite (fun _ => ?_) fun _ => .ite (fun fits => ?_) fun _ => .ite (fun fits => ?_) fun _ =>
      .ite (fun _ => ?_) fun _ => ?_
    · exact (Step.decorator st).bind fun _ st => .pure fun h => h.elim
    · exact .templateBlock d fits
    · exact .constructorBlock d fits
    · exact .fieldBlock d
    · exact Step.fail _ st
  · have first := fun e => ((opened trivial).isAt e).1
    have second := fun e => ((opened trivial).isAt e).2
    exact ⟨by simp only [first], by simp only [second]⟩

theorem registerType_eq (name : Lexeme) (d : TypeDef) (s : Session) :
    registerType name d s = match s.register? d with
      | some t => .ok () t
      | none => .error (.semantic ⟨.duplicateType name.text, name.site⟩) s := by
  change (match s.register? d with
    | some t => set t
    | none => Update.reject name (.duplicateType name.text) : Update Unit) s = _
  cases s.register? d <;> rfl

theorem natural_registerType (name : Lexeme) (d : TypeDef) : (registerType name d).Natural := by
  intro j s
  have same : (s.within j).register? d = (s.register? d).map (Session.within j) := by
    unfold Session.register?
    change (if (s.typeNamed? d.name).isSome then _ else _) = _
    split
    · rfl
    · rfl
  rw [registerType_eq, registerType_eq, same]
  cases s.register? d with
  | none => rfl
  | some t => rfl

theorem StepAt.typeBlock [Meets k k'] :
    StepAt k k' True True Parse.typeBlock (fun _ => False) st := by
  refine .claimed rfl fun decorators => ?_
  refine (Step.skip (by decide) _).bind fun _ st => ?_
  refine (Local.identifier st).bind fun name st => ?_
  refine (Local.skip (by decide) st).bind fun _ st => ?_
  refine (Local.one (by decide) st).bind fun code st => ?_
  refine (Local.skipEdge _ st).bind fun _ st => ?_
  have body : Local k k' True False (do
      let d ← Parse.toBrace Parse.typeItem
        { name := name.text, code := code.text, decorators, origin := some name }
      Parse.closeBlock
      let d ← ofUpdate (Update.define name (d.addImplicitFields name))
      ofUpdate (registerType name d)) fun _ => False := by
    intro st
    refine (Local.toBrace (Step.typeItem) _ st).bind fun d st => ?_
    refine (Local.closeBlock st).bind fun _ st => ?_
    refine (LocalAt.ofUpdate (Update.Tame.define (n := 0) ..).natural).bind fun d st => ?_
    exact .ofUpdate (natural_registerType name d)
  refine .session ?_ fun _ _ => rfl
  exact .rejectIf fun _ st => .rejectIf fun _ => body

end Rsrc.Parse
