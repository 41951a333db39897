import Rsrc.Project
import Rsrc.Proofs.Local.TypeBlock

/-!
# Files in a setting

Declarations, directives, modules and the constructs of a file are read in the same way in two
settings. A whole file does not look at what has been recorded before, and so importing one does not.
-/

namespace Rsrc

namespace Parse

variable {k k' : Setting} {weak p : Prop} {st : ParseState} {importer : Importer} {body : Parse Unit}
  {α : Type} {x : Parse α} {limit : Nat}

/-! ### Declarations -/

theorem Local.declaredType : Local k k' False True Parse.declaredType := by
  intro st
  refine (Local.any st).bind fun first st => ?_
  split
  · rename_i kind
    have inner : ¬ first.isEdge := by simp [Lexeme.isEdge, kind]
    refine .mono (p := True) ?_ id (fun _ => inner) fun _ => id
    refine (Local.skip (by decide) st).bind fun _ st => ?_
    exact (Local.identifier st).bind fun name st => .pure id
  · rename_i kind
    have inner : ¬ first.isEdge := by simp [Lexeme.isEdge, kind]
    refine .mono (p := True) ?_ id (fun _ => inner) fun _ => id
    refine (Local.acceptInner (by decide) st).bind fun contained st => ?_
    cases contained with
    | true => exact (Local.identifier st).bind fun name st => .pure id
    | false => exact .pure id
  · exact .throw _

theorem StepAt.assignment [Meets k k'] (d : TypeDef) (scope : ScopeId) (r : Record) :
    StepAt k k' True True (Parse.assignment d scope r) (fun _ => False) st := by
  refine .claimed rfl fun _ => ?_
  refine .cursor ?_ fun _ opened => ?_
  · split
    · refine (Step.path _).bind fun path st => ?_
      refine (Local.skip (by decide) st).bind fun _ st => ?_
      refine (Local.items Step.operand.local st).bind fun operands st => ?_
      refine (Local.skipEdge _ st).bind fun _ st => ?_
      exact .ofUpdate (TypeDef.scoped_assign (n := 0) ..).toTame.natural
    · exact Step.fail _ _
  · have opened := opened trivial
    simp only [Cursor.peek_within opened.first, Cursor.peek_within opened.second, and_self]

theorem Step.blockItem [Meets k k'] (d : TypeDef) (scope : ScopeId) (r : Record) :
    Step k k' True True (Parse.blockItem d scope r) fun _ => False := by
  intro st
  refine .isAt _ fun decorated st => ?_
  cases decorated with
  | true => exact (Step.decorator st).bind fun _ st => .pure fun h => h.elim
  | false => exact .assignment d scope r

/-- The body of a resource block, in the scope that was opened for it. -/
def blockBody (d : TypeDef) (keyword : Lexeme) (plan : BlockPlan) (scope : ScopeId) : Parse Unit := do
  let r ← plan.initial d scope keyword
  Reading.skip LexemeKind.leftBrace
  let r ← toBrace (blockItem d scope) r
  closeBlock
  plan.finish d scope keyword r

/-- All that follows the head of a resource block. -/
def blockTail (d : TypeDef) (container : Option String) (kind : BlockKind) (keyword : Lexeme)
    (arguments : List Argument) : Parse Unit := do
  let plan ← kind.plan d container keyword arguments
  let scope ← plan.openScope
  blockBody d keyword plan scope

theorem Step.resourceBlock [Meets k k'] (d : TypeDef) (container : Option String) :
    Step k k' True True (Parse.resourceBlock d container) fun _ => False := by
  intro st
  refine .claimed rfl fun _ => ?_
  refine (Step.one (by decide) _).bind fun keyword st => ?_
  split
  · rename_i kind _
    have body : ∀ arguments : List (Value × Lexeme), Local k k' True True
        (blockTail d container kind keyword (arguments.map fun a => ⟨a.1, a.2⟩)) fun _ => False := by
      intro arguments st
      refine (LocalAt.ofUpdate (kind.tame_plan (n := 0) ..).natural).bind fun plan st => ?_
      refine (LocalAt.ofUpdate plan.natural_openScope).bind fun scope st => ?_
      refine (LocalAt.ofUpdate
        (plan.tame_initial (n := 0) d (Nat.zero_le _) keyword).natural).bind fun r st => ?_
      refine (Local.skipEdge _ st).bind fun _ st => ?_
      refine (Local.toBrace (Step.blockItem d scope) r st).bind fun r st => ?_
      refine (Local.closeBlock st).bind fun _ st => ?_
      exact .ofUpdate (plan.natural_finish d scope keyword r)
    refine (Local.isAt _ st).bind fun given st => ?_
    cases given with
    | true => exact (Local.arguments st).bind body
    | false =>
      have none : LocalAt k k' False True (pure ([] : List (Value × Lexeme))) (fun _ => True) st :=
        .pure id
      exact none.bind body
  · exact .throw _

theorem Step.declarationItem [Meets k k'] (d : TypeDef) (container : Option String) :
    Step k k' True True (Parse.declarationItem d container) fun _ => False := by
  intro st
  refine .isAt _ fun decorated st => ?_
  cases decorated with
  | true => exact (Step.decorator st).mono (fun h => h) id fun _ h => h.elim
  | false => exact Step.guarded (Step.resourceBlock d container) st

theorem StepAt.declaration [Meets k k'] :
    StepAt k k' True True Parse.declaration (fun _ => False) st := by
  refine .claimed rfl fun _ => ?_
  refine (Step.skip (by decide) _).bind fun _ st => ?_
  refine (Local.declaredType st).bind fun (container, name) st => ?_
  refine (Local.skipEdge _ st).bind fun _ st => ?_
  refine .session ?_ fun _ _ => rfl
  split
  · rename_i d _
    have body : Local k k' True False (do
        Parse.toBrace (fun () => Parse.declarationItem d container) ()
        Parse.closeBlock) fun _ => False := by
      intro st
      refine (Local.toBrace (fun _ => Step.declarationItem d container) () st).bind
        fun _ => ?_
      exact Local.closeBlock
    refine .rejectIf fun _ st => ?_
    refine .ite (fun _ => ?_) fun _ => body st
    exact (LocalAt.ofUpdate (Update.Tame.note (n := 0) ..).natural).bind fun _ => body
  · exact .ofUpdate (.throw _)

/-! ### Directives -/

/-- Imports change the session only, and do not look at what has been recorded. -/
class Importer.Natural (importer : Importer) : Prop where
  exists_update : ∀ target, ∃ u : Update Unit, u.Natural ∧ importer target = ofUpdate u

theorem Local.name : Local k k' weak True Parse.name := by
  intro st
  refine (Local.any st).bind fun l st => ?_
  split
  · rename_i kind
    exact .pure fun _ => by simp [Lexeme.isEdge, kind]
  · rename_i kind
    exact .pure fun _ => by simp [Lexeme.isEdge, kind]
  · exact .throw _

/-- Reads the name of a format that is demanded or set. -/
def formatName (demanded : Bool) : Parse Unit := do
  let name ← Reading.identifier
  let some format := Format.ofName? name.text | unexpected name "`extended`, `classic` or `rez`"
  if demanded then
    let active := (← session).format
    if active ≠ format then Update.reject name (.formatMismatch format active)
  else modifySession (·.setFormat format)

theorem Local.formatDirective : Local k k' weak True Parse.formatDirective := by
  intro st
  refine (Local.acceptInner (by decide) st).bind fun demanded st => ?_
  have body : ∀ _ : Unit, Local k k' weak True (formatName demanded) := by
    intro _ st
    refine (Local.identifier st).bind fun name st => ?_
    split
    · refine .ite (fun _ => ?_) fun _ => ?_
      · refine .session ?_ fun _ _ => rfl
        exact .ite (fun _ => (LocalAt.ofUpdate (.throw _)).mono id id fun _ => id) fun _ => .pure id
      · refine LocalAt.modifySession fun j s => ?_
        unfold Session.setFormat
        change (if s.formatLocked then _ else _) = _
        split <;> rfl
    · exact .throw _
  cases demanded with
  | true => exact body () st
  | false =>
    have optional : Local k k' False True
        (Functor.discard (ofReading (Reading.accept (.keyword "set")))) := by
      intro st
      rw [discard_eq]
      exact (Local.acceptInner (by decide) st).bind fun _ st => .pure id
    exact (optional st).bind body

theorem Local.outputDirective : Local k k' weak True Parse.outputDirective := by
  intro st
  refine (Local.one (by decide) st).bind fun target st => ?_
  refine .modifySession fun j s => ?_
  change (if s.output.isSome then _ else _) = _
  split <;> rfl

theorem Local.echoDirective (directive : Lexeme) :
    Local k k' weak True (Parse.echoDirective directive) := by
  intro st
  refine (Step.expr st).toLocalAt.bind fun e st => ?_
  refine (Local.evaluate _ _ _ st).bind fun value st => ?_
  exact .ofUpdate (Update.Tame.note (n := 0) ..).natural

theorem Local.metadataDirective (directive : Lexeme) :
    Local k k' weak True (Parse.metadataDirective directive) := by
  intro st
  refine (Local.one (by decide) st).bind fun value st => ?_
  refine .session ?_ fun _ _ => rfl
  split
  · exact .modifySession fun _ _ => rfl
  · exact .ofUpdate (Update.Tame.note (n := 0) ..).natural

theorem Local.directiveBody [natural : importer.Natural] (directive : Lexeme) :
    Local k k' weak True (Parse.directiveBody importer directive) := by
  intro st
  unfold Parse.directiveBody
  split
  · refine (Local.one (by decide) st).bind fun target st => ?_
    obtain ⟨u, same, eq⟩ := natural.exists_update target
    rw [eq]
    exact .ofUpdate same
  · refine (Local.name st).bind fun name st => ?_
    exact .modifySession fun _ _ => rfl
  · exact Local.formatDirective st
  · exact Local.outputDirective st
  · exact Local.echoDirective directive st
  · exact Local.metadataDirective directive st

theorem StepAt.directive [Meets k k'] [importer.Natural] :
    StepAt k k' True True (Parse.directive importer) (fun _ => False) st := by
  refine .claimed rfl fun _ => ?_
  refine (Step.one (by decide) _).bind fun directive st => ?_
  refine (Local.directiveBody directive st).bind fun _ st => ?_
  exact Local.skipEdge _ st

/-! ### Modules -/

theorem enterModule?_within (j : Setting) (s : Session) (m : Module) :
    (s.within j).enterModule? m = (s.enterModule? m).map (Session.within j) := by
  unfold Session.enterModule?
  change (if s.modules.any _ then _ else _) = _
  split <;> rfl

/-- Enters a module, and gives what was the current one before. -/
def enterModule (name : Lexeme) (decorators : Decorators) : Update (Option Nat) := fun s =>
  match s.enterModule? { name := name.text, decorators, origin := some name } with
  | some entered => .ok s.currentModule entered
  | none => .error (.semantic ⟨.duplicateModule name.text, name.site⟩) s

theorem natural_enterModule (name : Lexeme) (decorators : Decorators) :
    (enterModule name decorators).Natural := by
  intro j s
  unfold enterModule
  rw [enterModule?_within]
  cases s.enterModule? { name := name.text, decorators, origin := some name } <;> rfl

/-- What is read of a module once its decorators are known. -/
def claimedModule (body : Parse Unit) : Option Decorators → Parse Unit
  | none => return
  | some decorators => do
    Reading.skip (.keyword "module")
    let name ← Reading.identifier
    Reading.skip LexemeKind.leftBrace
    let previous ← enterModule name decorators
    Parse.andFinally body (·.leaveModule previous)
    Parse.closeBlock

theorem moduleBlock_eq : Parse.moduleBlock body = claim >>= claimedModule body := by
  unfold Parse.moduleBlock
  refine bind_congr fun claimed => ?_
  cases claimed with
  | none => rfl
  | some decorators =>
    refine bind_congr fun _ => bind_congr fun name => bind_congr fun _ => funext fun st => ?_
    have look : session st = .ok st.session st := rfl
    cases entered : st.session.enterModule? { name := name.text, decorators, origin := some name } with
    | none =>
      have run : ofUpdate (enterModule name decorators) st =
          .error (.semantic ⟨.duplicateModule name.text, name.site⟩) st := by
        simp [ofUpdate, enterModule, entered]
      refine Eq.trans ?_ (bind_of_error run).symm
      refine (bind_of_ok look).trans ?_
      rw [entered]
      rfl
    | some s =>
      have run : ofUpdate (enterModule name decorators) st =
          .ok st.session.currentModule { st with session := s } := by
        simp [ofUpdate, enterModule, entered]
      refine Eq.trans ?_ (bind_of_ok run).symm
      refine (bind_of_ok look).trans ?_
      rw [entered]
      rfl

theorem StepAt.moduleBlock [Meets k k'] (each : Local k k' False False body) :
    StepAt k k' True True (Parse.moduleBlock body) (fun _ => False) st := by
  rw [moduleBlock_eq]
  refine .claimed rfl fun decorators => ?_
  refine (Step.skip (by decide) _).bind fun _ st => ?_
  refine (Local.identifier st).bind fun name st => ?_
  refine (Local.skipEdge _ st).bind fun _ st => ?_
  refine (LocalAt.ofUpdate (natural_enterModule name decorators)).bind fun previous st => ?_
  refine (Local.andFinally each (fun _ _ => rfl) st).bind fun _ => ?_
  exact Local.closeBlock

theorem Step.construct [Meets k k'] [importer.Natural] (each : Local k k' False False body) :
    Step k k' True True (Parse.construct importer body) fun _ => False := by
  intro st
  refine .cursor ?_ fun _ opened => ?_
  · refine .ite (fun _ => ?_) fun _ => .ite (fun _ => ?_) fun _ => .ite (fun _ => ?_) fun _ =>
      .ite (fun _ => ?_) fun _ => .ite (fun _ => ?_) fun _ => ?_
    · exact .directive
    · exact (Step.decorator st).mono (fun h => h) id fun _ h => h.elim
    · exact .moduleBlock each
    · exact .typeBlock
    · exact .declaration
    · exact Step.fail _ st
  · have first := fun e => ((opened trivial).isAt e).1
    have second := fun e => ((opened trivial).isAt e).2
    exact ⟨by simp only [first], by simp only [second]⟩

theorem Local.moduleBody [Meets k k'] [importer.Natural] (depth : Nat) :
    Local k k' False False (Parse.moduleBody importer depth) := by
  induction depth with
  | zero => exact Local.fail _
  | succ depth ih =>
    exact Local.toBrace (fun _ => Step.guarded (Step.construct ih)) ()

/-! ### Depth -/

theorem unread_le_of_ok {q : α → Prop} (h : Local {} {} False p x q) {t : ParseState} {a : α}
    (ran : x st = .ok a t) : t.cursor.unread ≤ st.cursor.unread := by
  have later := (h st).later
  rw [ran] at later
  exact later.unread

theorem stepsToBrace_congr {step step' : α → Parse α} {bound : Nat} (forward : ∀ a, Forward (step a))
    (same : ∀ a (t : ParseState), t.cursor.unread ≤ bound → step a t = step' a t) (a : α)
    (h : st.cursor.unread ≤ bound) :
    Parse.stepsToBrace step limit a st = Parse.stepsToBrace step' limit a st := by
  induction limit generalizing a st with
  | zero => rfl
  | succ limit ih =>
    rw [stepsToBrace_succ, stepsToBrace_succ]
    change (if st.cursor.isAt _ then _ else _ : Parse α) st =
      (if st.cursor.isAt _ then _ else _ : Parse α) st
    split
    · rfl
    · split
      · rfl
      · refine bind_congr_at (same a st h) fun b t ran => ih b ?_
        have later := (forward a st).unread
        rw [ran] at later
        exact Nat.le_trans later h

theorem guarded_congr {x y : Parse Unit} (h : x st = y st) :
    Parse.guarded x st = Parse.guarded y st := by
  unfold Parse.guarded
  rw [h]

theorem andFinally_congr {y : Parse α} {f : Session → Session} (h : x st = y st) :
    Parse.andFinally x f st = Parse.andFinally y f st := by
  unfold Parse.andFinally
  rw [h]

/-- The body of a module is behind the head of the module. -/
theorem moduleBlock_congr {body' : Parse Unit}
    (same : ∀ t : ParseState, t.cursor.unread < st.cursor.unread → body t = body' t) :
    Parse.moduleBlock body st = Parse.moduleBlock body' st := by
  rw [moduleBlock_eq, moduleBlock_eq]
  by_cases permits : (⟨st.session.pending⟩ : Decorators).permits st.session.definitions.keys
  · rw [bind_of_ok (claim_of_permits permits), bind_of_ok (claim_of_permits permits)]
    refine bind_congr_at rfl fun _ t₁ word => bind_congr_at rfl fun name t₂ named =>
      bind_congr_at rfl fun _ t₃ opened => bind_congr_at rfl fun previous t₄ entered => ?_
    refine bind_congr_at (andFinally_congr (same t₄ ?_)) fun _ _ _ => rfl
    have passed : t₁.cursor.unread + 1 = st.cursor.unread :=
      Reading.unread_of_skip (ofReading_eq_ok word).1
    have read := unread_le_of_ok Local.identifier named
    have passed' := unread_le_of_ok (Local.skipEdge _) opened
    have same' := unread_le_of_ok
      (fun _ => LocalAt.ofUpdate (p := True) (natural_enterModule name _)) entered
    omega
  · rw [bind_of_ok (claim_of_excludes permits), bind_of_ok (claim_of_excludes permits)]
    rfl

theorem construct_congr {body' : Parse Unit}
    (same : ∀ t : ParseState, t.cursor.unread < st.cursor.unread → body t = body' t) :
    Parse.construct importer body st = Parse.construct importer body' st := by
  unfold Parse.construct
  change (if st.cursor.isAt _ then _ else _ : Parse Unit) st =
    (if st.cursor.isAt _ then _ else _ : Parse Unit) st
  split
  · rfl
  · split
    · rfl
    · split
      · exact moduleBlock_congr same
      · rfl

/-- Modules are never deeper inside one another than there are lexemes. -/
theorem moduleBody_fuel [importer.Natural] {n n' : Nat} (h : st.cursor.unread + 1 ≤ n)
    (h' : st.cursor.unread + 1 ≤ n') :
    Parse.moduleBody importer n st = Parse.moduleBody importer n' st := by
  induction n generalizing n' st with
  | zero => omega
  | succ n ih =>
    cases n' with
    | zero => omega
    | succ n' =>
      have step : Local {} {} True True
          (Parse.guarded (Parse.construct importer (Parse.moduleBody importer n))) fun _ => False :=
        (Step.guarded (Step.construct
          (Local.moduleBody n))).local
      rw [Parse.moduleBody, Parse.moduleBody]
      exact stepsToBrace_congr (fun _ t => (step t).later)
        (fun _ t le => guarded_congr (construct_congr fun u lt => ih (by omega) (by omega))) () (Nat.le_refl _)

/-! ### Files -/

/-- Reads one construct of a file. -/
def fileStep (importer : Importer) : Parse Unit := do
  guarded (construct importer (moduleBody importer (← cursor).unread))

theorem Step.fileStep [Meets k k'] [importer.Natural] :
    Step k k' True True (Parse.fileStep importer) fun _ => False := fun st =>
  .fueled (f := fun n => Parse.guarded (Parse.construct importer (Parse.moduleBody importer n)))
    (fun st n n' h h' => guarded_congr (construct_congr fun t fewer =>
      moduleBody_fuel (by omega) (by omega)))
    fun n => Step.guarded (Step.construct (Local.moduleBody n)) st

theorem constructsWithin_succ :
    Parse.constructsWithin importer (limit + 1) = cursor >>= fun c =>
      if c.finished then pure ()
      else Parse.fileStep importer >>= fun _ => Parse.constructsWithin importer limit := by
  funext st
  rw [Parse.constructsWithin]
  change (if st.cursor.finished then _ else _ : Parse Unit) st =
    (if st.cursor.finished then _ else _ : Parse Unit) st
  split
  · rfl
  · rfl

theorem constructsWithin_of_finished (h : st.cursor.finished) :
    Parse.constructsWithin importer limit st = .ok () st := by
  cases limit with
  | zero => rfl
  | succ limit =>
    rw [constructsWithin_succ]
    change (if st.cursor.finished then _ else _ : Parse Unit) st = _
    rw [if_pos h]
    rfl

/-- There are never more constructs than lexemes. -/
theorem constructsWithin_fuel [importer.Natural] {n n' : Nat} (h : st.cursor.unread ≤ n)
    (h' : st.cursor.unread ≤ n') :
    Parse.constructsWithin importer n st = Parse.constructsWithin importer n' st := by
  by_cases finished : st.cursor.finished
  · rw [constructsWithin_of_finished finished, constructsWithin_of_finished finished]
  have left := Cursor.unread_pos finished
  induction n generalizing n' st with
  | zero => omega
  | succ n ih =>
    cases n' with
    | zero => omega
    | succ n' =>
      rw [constructsWithin_succ, constructsWithin_succ]
      change (if st.cursor.finished then _ else _ : Parse Unit) st =
        (if st.cursor.finished then _ else _ : Parse Unit) st
      rw [if_neg finished, if_neg finished]
      refine bind_congr_at rfl fun _ t ran => ?_
      have step : StepAt {} {} True True (Parse.fileStep importer) _ st :=
        Step.fileStep st
      have fewer := step.advances left
      rw [ran] at fewer
      dsimp only at fewer
      by_cases ended : t.cursor.finished
      · rw [constructsWithin_of_finished ended, constructsWithin_of_finished ended]
      · exact ih (by omega) (by omega) ended (Cursor.unread_pos ended)

/-- Where the file ends with the part, nothing is lost. -/
theorem LocalAt.whole {q : α → Prop} (whole : ¬ Cut k k') (h : LocalAt k k' weak p x q st) :
    LocalAt k k' False False x (fun _ => True) st where
  later := h.later
  sync ready _ := by
    rcases h.sync ready fun _ cut => absurd cut whole with ⟨cut, -⟩ | ⟨result, run, run', ready', -⟩
    · exact absurd cut whole
    · exact .inr ⟨result, run, run', ready', fun _ _ _ _ cut => absurd cut whole⟩

theorem Local.constructsWithin (whole : ¬ Cut k k') [importer.Natural] (limit : Nat) :
    Local k k' False False (Parse.constructsWithin importer limit) := by
  obtain ⟨none, none'⟩ : k.next = [] ∧ k'.next = [] := by simpa [Cut] using whole
  have done : Local k k' False False (pure ()) := by
    intro st
    have kept : LocalAt k k' False True (pure ()) (fun _ => True) st := .pure id
    exact kept.whole whole
  induction limit with
  | zero => exact done
  | succ limit ih =>
    intro st
    rw [constructsWithin_succ]
    refine .cursor (.ite (fun _ => done st) fun _ => ?_) fun _ _ => ?_
    · have : Meets k k' := .none none none'
      refine ((Step.fileStep st).toLocalAt.whole whole).bind fun _ st => ?_
      exact (ih st).mono id False.elim fun _ => id
    · rw [Cursor.finished_within (.inr none), Cursor.finished_within (.inr none')]
      exact ⟨rfl, rfl⟩

/-- What is done at the end of a file. -/
def fileEnd : Parse Unit := do
  if let some failure := dangling? (← session) then
    modifySession fun s => { s with pending := [] }.record failure

theorem file_eq (importer : Importer) :
    Parse.file importer =
      (do Parse.constructsWithin importer (← Parse.cursor).unread) >>= fun _ => fileEnd := by
  rw [bind_assoc]
  rfl

theorem Local.fileEnd : Local k k' False True Parse.fileEnd := by
  intro st
  refine .session ?_ fun _ _ => rfl
  split
  · refine (LocalAt.modifySession fun j s => ?_).mono id id fun _ => id
    simp [Session.record, Session.within]
  · exact .pure id

theorem Local.file (whole : ¬ Cut k k') [importer.Natural] :
    Local k k' False False (Parse.file importer) := by
  intro st
  have constructs : Local k k' False False
      (Parse.cursor >>= fun c => Parse.constructsWithin importer c.unread) := fun st =>
    .fueled (f := fun n => Parse.constructsWithin importer n)
      (fun _ _ _ h h' => constructsWithin_fuel h h')
      fun n => Local.constructsWithin whole n st
  rw [file_eq]
  exact (constructs st).bind fun _ => Local.fileEnd

end Parse

/-! ### Imports -/

/-- A whole file is read in the same way, whatever has been recorded before. -/
theorem Parse.file_within (importer : Parse.Importer) [importer.Natural] (j : Setting)
    (none : j.next = []) (st : ParseState)
    (ending : st.cursor.consumed ++ st.cursor.ahead ≠ [] ∨ j.back = []) :
    Parse.file importer (st.within j) = j.place ParseState.within (Parse.file importer st) := by
  have whole : ¬ Cut j {} := by simp [Cut, none]
  have ready : st.cursor.Ready j {} :=
    ⟨fun cut => absurd cut whole, fun cut => absurd cut whole, fun _ => ending.imp_right fun h => by
      rw [h]⟩
  have alone : ∀ st : ParseState, st.within {} = st := by
    intro st
    simp [ParseState.within, Session.within, Cursor.within]
  have file : Local _ _ _ _ (Parse.file importer) _ := Local.file whole
  rcases (file st).sync ready False.elim with ⟨cut, -⟩ | ⟨result, run, run', -⟩
  · exact absurd cut whole
  · rw [alone] at run'
    rw [run, run']
    cases result with
    | ok a t => simp only [Setting.place, alone]
    | error failure t => simp only [Setting.place, alone]

theorem natural_parseSource {importer : Parse.Importer} [importer.Natural]
    (source : SourceFile) : (parseSource importer source).Natural := by
  intro j s
  unfold parseSource
  cases Cursor.ofSource source with
  | error e => rfl
  | ok cursor =>
    dsimp only
    have run := Parse.file_within importer { failures := j.failures, log := j.log } rfl
      { session := s, cursor } (.inr rfl)
    have same : ParseState.within { failures := j.failures, log := j.log } { session := s, cursor } =
        { session := s.within j, cursor } := by
      simp [ParseState.within, Cursor.within, Session.within]
    rw [same] at run
    rw [run]
    cases Parse.file importer { session := s, cursor } with
    | ok u t => rfl
    | error failure t => rfl

theorem natural_finishingImport {u : Update Unit} (natural : u.Natural) :
    (finishingImport u).Natural := by
  intro j s
  have ended : ∀ s : Session, (s.within j).endImport = s.endImport.within j := by
    intro s
    have same : (s.within j).importStack = s.importStack := rfl
    unfold Session.endImport
    rw [same]
    cases s.importStack <;> rfl
  unfold finishingImport
  rw [natural]
  cases u s with
  | ok a t =>
    change EStateM.Result.ok () (t.within j).endImport = _
    rw [ended]
    rfl
  | error failure t =>
    change EStateM.Result.ok () ((t.within j).endImport.record failure) = _
    rw [ended]
    simp [Setting.place, Session.record, Session.within]

theorem beginImport_within (j : Setting) (s : Session) (path : Path) :
    (s.within j).beginImport path = (s.beginImport path).map (Session.within j) := by
  unfold Session.beginImport
  change (if s.importStack.any _ then _ else _) = _
  split <;> rfl

namespace FileTree

/-- One import, with what is done to read a file. -/
def importBy (t : FileTree) (enter : Path → Update Unit) (target : Lexeme) : Update Unit := fun s =>
  match t.importPath? s target.text with
  | none => .error (.semantic ⟨.importNotFound target.text, target.site⟩) s
  | some path =>
    if s.wasImported path then .ok () s
    else match s.beginImport path with
      | .error cycle => .error (.semantic ⟨.circularImport cycle, target.site⟩) s
      | .ok entered => finishingImport (enter path) (entered.note .info s!"importing {path.text}")

/-- The file that an import opens, and the session in which it is read. -/
def begins? (t : FileTree) (target : Lexeme) (s : Session) : Option (Path × Session) :=
  match t.importPath? s target.text with
  | none => none
  | some path =>
    if s.wasImported path then none
    else match s.beginImport path with
      | .error _ => none
      | .ok entered => some (path, entered.note .info s!"importing {path.text}")

variable (t : FileTree)

theorem importer_succ (depth : Nat) (target : Lexeme) :
    t.importer (depth + 1) target =
      Parse.ofUpdate (t.importBy (t.readInto (t.importer depth)) target) := by
  funext st
  have look : Parse.session st = .ok st.session st := rfl
  rw [importer]
  refine (bind_of_ok look).trans ?_
  unfold Parse.ofUpdate importBy
  cases t.importPath? st.session target.text with
  | none => rfl
  | some path =>
    dsimp only
    by_cases known : st.session.wasImported path
    · rw [if_pos known, if_pos known]
      rfl
    · rw [if_neg known, if_neg known]
      cases st.session.beginImport path with
      | error cycle => rfl
      | ok entered => rfl

/-- An import is rejected, or it has been made before, or it opens a file. -/
theorem importBy_cases (target : Lexeme) (s : Session) :
    (t.begins? target s = none ∧
      ((∃ cause, ∀ enter, t.importBy enter target s = .error (.semantic ⟨cause, target.site⟩) s) ∨
        ∀ enter, t.importBy enter target s = .ok () s)) ∨
      ∃ path entered, t.importPath? s target.text = some path ∧ ¬ s.wasImported path ∧
        s.beginImport path = .ok entered ∧
        t.begins? target s = some (path, entered.note .info s!"importing {path.text}") ∧
        ∀ enter, t.importBy enter target s =
          finishingImport (enter path) (entered.note .info s!"importing {path.text}") := by
  unfold importBy begins?
  cases t.importPath? s target.text with
  | none => exact .inl ⟨rfl, .inl ⟨_, fun _ => rfl⟩⟩
  | some path =>
    dsimp only
    by_cases known : s.wasImported path
    · exact .inl ⟨if_pos known, .inr fun _ => if_pos known⟩
    · cases begun : s.beginImport path with
      | error cycle => exact .inl ⟨if_neg known, .inl ⟨_, fun _ => if_neg known⟩⟩
      | ok entered =>
        exact .inr ⟨path, entered, rfl, known, begun, if_neg known, fun _ => if_neg known⟩

/-- The state in front of a file, if it can be read. -/
def start? (path : Path) (s : Session) : Option ParseState :=
  match t.readText path with
  | .error _ => none
  | .ok contents =>
    match Cursor.ofSource { name := path.text, contents } with
    | .error _ => none
    | .ok cursor => some { session := s, cursor }

/-- A file that can not be read is told to be so, and any other one is read from its start on. -/
theorem start?_cases (path : Path) (s : Session) :
    (t.start? path s = none ∧ ∃ failure, ∀ importer, t.readInto importer path s = .error failure s) ∨
      ∃ cursor, t.start? path s = some ⟨s, cursor⟩ ∧ ∀ importer, t.readInto importer path s =
        match Parse.file importer ⟨s, cursor⟩ with
        | .ok () st => .ok () st.session
        | .error failure st => .error failure st.session := by
  unfold start? readInto parseSource
  cases t.readText path with
  | error e => exact .inl ⟨rfl, _, fun _ => rfl⟩
  | ok contents =>
    dsimp only
    cases Cursor.ofSource { name := path.text, contents } with
    | error e => exact .inl ⟨rfl, _, fun _ => rfl⟩
    | ok cursor => exact .inr ⟨cursor, rfl, fun _ => rfl⟩

theorem natural_readInto (importer : Parse.Importer) [importer.Natural] (path : Path) :
    (t.readInto importer path).Natural := by
  unfold readInto
  cases t.readText path with
  | error e => exact .throw _
  | ok contents => exact natural_parseSource _

theorem natural_importBy {enter : Path → Update Unit}
    (natural : ∀ path, (enter path).Natural) (target : Lexeme) : (t.importBy enter target).Natural := by
  intro j s
  have path : t.importPath? (s.within j) target.text = t.importPath? s target.text := rfl
  have known : ∀ path, (s.within j).wasImported path = s.wasImported path := fun _ => rfl
  unfold importBy
  rw [path]
  cases t.importPath? s target.text with
  | none => rfl
  | some path =>
    simp only [known, beginImport_within]
    by_cases again : s.wasImported path
    · rw [if_pos again, if_pos again]
      rfl
    · rw [if_neg again, if_neg again]
      cases s.beginImport path with
      | error cycle => rfl
      | ok entered =>
        have noted : ∀ text, (entered.within j).note .info text =
            (entered.note .info text).within j := by
          intro text
          simp [Session.note, Session.within]
        change finishingImport _ ((entered.within j).note .info _) = _
        rw [noted, natural_finishingImport (natural path)]

instance natural_importer (depth : Nat) : (t.importer depth).Natural := by
  induction depth with
  | zero => exact ⟨fun target => ⟨Update.reject target _, .throw _, rfl⟩⟩
  | succ depth ih =>
    exact ⟨fun target => ⟨_, t.natural_importBy (t.natural_readInto _) target, t.importer_succ depth target⟩⟩

end FileTree

end Rsrc
