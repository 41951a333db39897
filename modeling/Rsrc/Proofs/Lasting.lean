import Rsrc.Proofs.Invariant
import Rsrc.Proofs.Position

/-!
# What files keep

What is known of a state can be followed through a file. `Rounds` lists what has to be known of
statements that may depend on the current module: that they outlive types and resource blocks,
recovery, and the ways in and out of modules. An invariant of sessions (`Steady`) is one case; it is
`Lasting` if it also outlives the ways in and out of imported files, and then it holds after a whole
file and all that the file imports (`Lasting.parse`).
-/

namespace Rsrc

namespace Session.Stable

variable {n : Nat} {I J : Session → Prop}

theorem and (first : Session.Stable n I) (second : Session.Stable n J) :
    Session.Stable n fun s => I s ∧ J s where
  tame tame := (Runs.and (first.tame tame) (second.tame tame)).post fun _ _ kept =>
    ⟨⟨kept.1.1, kept.2.1⟩, trivial⟩
  pending kept pending := ⟨first.pending kept.1 pending, second.pending kept.2 pending⟩

/-- What does not depend on messages, waiting decorators and scopes is stable. -/
theorem of_alike (h : ∀ s t : Session, s.Alike t → I s → I t) : Session.Stable n I where
  tame tame := .of_final fun s kept => h s _ ((tame.alike s).final rfl) kept
  pending {s} kept _ := h s _ rfl kept

end Session.Stable

namespace Parse

variable {α : Type} {n : Nat} {P T : Session → Prop}

/-- No failure that has been recorded is lost. -/
def Grows (x : Parse α) : Prop :=
  ∀ st : ParseState, st.session.failures <+: (finalState (x st)).session.failures

/-- What can not tell settings apart adds to the failures that it finds. -/
theorem Grows.of_local {x : Parse α} {weak p : Prop} {q : α → Prop}
    (h : ∀ k k' : Setting, Meets k k' → Local k k' weak p x q) : Grows x := by
  intro st
  -- the state is one without failures, in a setting that has them all
  let before : Setting := { failures := st.session.failures }
  let fresh : ParseState := { st with session := { st.session with failures := [] } }
  have same : fresh.within before = st := by
    simp [fresh, before, ParseState.within, Session.within, Cursor.within]
  have whole : ¬ Cut before {} := by simp [Cut, before]
  have ready : fresh.cursor.Ready before {} :=
    ⟨fun cut => absurd cut whole, fun cut => absurd cut whole, fun _ => .inr rfl⟩
  rcases (h before {} (.none rfl rfl) fresh).sync ready (fun _ cut => absurd cut whole) with
    ⟨cut, -⟩ | ⟨result, run, -⟩
  · exact absurd cut whole
  · rw [same] at run
    rw [run]
    cases result with
    | ok a t => exact List.prefix_append ..
    | error failure t => exact List.prefix_append ..

/-! ### What does not depend on scopes -/

section Alike

variable {E : Failure → ParseState → Prop} {A C : Nat → ParseState → Prop}
  (alike : ∀ s t : Session, s.Alike t → T s → T t)
include alike

theorem Flat.and {B : ParseState → Prop} (flat : Flat n E B) :
    Flat n (fun failure st => E failure st ∧ T st.session) fun st => B st ∧ T st.session where
  pass next inner held := ⟨flat.pass next inner held.1, held.2⟩
  push inner other held := ⟨flat.push inner other held.1, held.2⟩
  tame tame c := (Runs.and (flat.tame tame c) ((Session.Stable.of_alike alike).tame tame)).post
    fun _ _ kept => ⟨⟨kept.1.1, kept.2.1⟩, trivial⟩
  grammar e c' held := ⟨flat.grammar e c' held.1, held.2⟩

/-- What does not depend on messages, waiting decorators and scopes holds along with the rest. -/
theorem Along.and (along : Along n E A C) : Along n (fun failure st => E failure st ∧ T st.session)
    (fun k st => A k st ∧ T st.session) fun k st => C k st ∧ T st.session where
  flat k := (along.flat k).and alike
  clear k := (along.clear k).and alike
  weaken held := ⟨along.weaken held.1, held.2⟩
  edge next step held := ⟨along.edge next step held.1, held.2⟩
  begins next kind held := by
    obtain ⟨W, flat, here, waits⟩ := along.begins next kind held.1
    exact ⟨_, flat.and alike, ⟨here, held.2⟩, fun st arguments held =>
      ⟨waits st arguments held.1, alike st.session _ rfl held.2⟩⟩
  settled {_ s _} held := ⟨along.settled held.1, alike s _ rfl held.2⟩
  skipped {_ s _} condition held := ⟨along.skipped condition held.1, alike s _ rfl held.2⟩
  undecorated none held := ⟨along.undecorated none held.1, held.2⟩
  dangling some held := ⟨along.dangling some held.1, held.2⟩

/-- What does not depend on resources either outlives resource blocks. -/
theorem Upholds.resourceBlock (resources : ∀ {s : Session} resources, T s → T { s with resources })
    (d : TypeDef) (container : Option String) : Upholds T (Parse.resourceBlock d container) := by
  have stable : Session.Stable 0 T := .of_alike alike
  refine Attempts.upholds ((stable.along id).tameBlock (k := 0) (D := fun _ st => T st.session)
    (fun plan st kept => ?_) ?_ fun _ => id)
  · exact ⟨alike st.session _ rfl kept, Nat.zero_le _⟩
  · exact fun {_ s _} _ all kept => alike { s with resources := all } _ rfl (resources all kept)

end Alike

/-- What does not depend on types and modules, nor on the scopes, outlives type blocks. -/
theorem Upholds.typeBlock (stable : Session.Stable n P)
    (types : ∀ {s} types modules, P s → P { s with types, modules }) :
    Upholds P Parse.typeBlock := by
  refine Attempts.upholds (stable.typeBlock builds_trivial (fun _ => id) fun name d _ s kept => ?_)
  rw [registerType_eq]
  cases registered : s.register? d with
  | none => exact kept
  | some t =>
    obtain ⟨-, modules, rfl⟩ := Session.register?_eq_some registered
    exact types _ modules kept

/-- A declaration finds the type of its items in the session. -/
theorem Along.declaration {E : Failure → ParseState → Prop} {A C : Nat → ParseState → Prop} {k : Nat}
    (along : Along n E A C) (inside : ∀ {st}, C (k + 1) st → T st.session)
    (item : ∀ d container, (∃ s, T s ∧ s.typeNamed? d.name = some d) →
      Stays (A (k + 1)) E (declarationItem d container)) :
    Runs (A k) Parse.declaration (fun _ => A k) E := by
  refine along.claimed rfl (fun _ => id) fun decorators => ?_
  have flat := along.clear k
  have deeper := along.clear (k + 1)
  refine (flat.skip (by decide)).runs fun _ _ => flat.declaredType.runs fun (container, name) _ => ?_
  refine along.opening.bind fun _ => (stays_session inside).runs fun s kept => ?_
  split
  · rename_i d found
    have named : d.name = name.text := by simpa using List.find?_some found
    have items : Runs (C (k + 1)) (do
        Parse.toBrace (fun () => declarationItem d container) ()
        Parse.closeBlock) (fun _ => A k) E := by
      have each := item d container ⟨s, kept, named ▸ found⟩
      refine along.enter (((along.flat (k + 1)).toBrace (fun _ _ => each) trivial).runs fun _ _ => ?_)
      exact along.closeBlock.post fun _ _ => along.weaken
    refine deeper.rejectIf ?_
    split
    · exact (deeper.update (.note ..)).runs fun _ _ => items
    · exact items
  · exact deeper.reject _ _

/-- What is to be known of statements about states in front of a construct (`A`) and inside of it
(`C`), and of what is left of them where a construct fails (`E`), for them to hold along the reading of
a file, if imports keep them. All may depend on the current module. -/
structure Rounds (A C : Option Nat → Nat → ParseState → Prop)
    (E : Option Nat → Failure → ParseState → Prop) : Prop where
  along : ∀ m, Along 0 (E m) (A m) (C m)
  recovers : ∀ {m k st t failure}, A m k st → E m failure t → failure.isRecoverable = true →
    st.session.failures <+: t.session.failures → ∀ c, A m k
      ⟨{ t.session.record failure with
        scopes := t.session.scopes.truncate st.session.scopes.depth, pending := [] }, c⟩
  record : ∀ {m k s c} failure, A m k ⟨s, c⟩ → A m k ⟨{ s with pending := [] }.record failure, c⟩
  settings : ∀ {m k s c} definitions metadata output format, C m k ⟨s, c⟩ →
    C m k ⟨{ s with definitions, metadata, output, format }, c⟩
  typeBlock : ∀ m k, Runs (A m k) typeBlock (fun _ => A m k) (E m)
  resourceBlock : ∀ m k d container,
    Runs (fun st => A m k st ∧ st.session.typeNamed? d.name = some d) (resourceBlock d container)
      (fun _ => A m k) (E m)
  enter : ∀ {m k s t c module}, C m k ⟨s, c⟩ → s.enterModule? module = some t →
    C t.currentModule k ⟨t, c⟩
  leave : ∀ {m m' k s c t}, C m k ⟨s, c⟩ → A m' k t →
    A m k ⟨t.session.leaveModule s.currentModule, t.cursor⟩
  leaveFailed : ∀ {m m' k s c t failure}, C m k ⟨s, c⟩ → E m' failure t →
    E m failure ⟨t.session.leaveModule s.currentModule, t.cursor⟩

namespace Rounds

variable {A C : Option Nat → Nat → ParseState → Prop} {E : Option Nat → Failure → ParseState → Prop}
  {m : Option Nat} {k : Nat} {importer : Importer}

/-- A construct that fails is recovered from, unless the failure ends the file. -/
theorem runs_guarded {B : ParseState → Prop} {E : Failure → ParseState → Prop} {x : Parse Unit}
    (recovers : ∀ {st t failure}, B st → E failure t → failure.isRecoverable = true →
      st.session.failures <+: t.session.failures → ∀ c, B ⟨{ t.session.record failure with
        scopes := t.session.scopes.truncate st.session.scopes.depth, pending := [] }, c⟩)
    (grows : Grows x) (h : Runs B x (fun _ => B) E) :
    Runs B (guarded x) (fun _ => B) fun failure st => E failure st ∧ failure.isRecoverable = false := by
  intro st held
  have more := grows st
  cases run : x st with
  | ok u t =>
    rw [guarded_of_ok run]
    exact h.of_ok held run
  | error failure t =>
    rw [run] at more
    cases recoverable : failure.isRecoverable with
    | true =>
      rw [guarded_of_failure run recoverable]
      exact recovers held (h.of_error held run) recoverable more _
    | false =>
      rw [guarded_of_fatal run (Bool.eq_false_iff.1 recoverable)]
      exact ⟨h.of_error held run, recoverable⟩

section

variable (rounds : Rounds A C E)
include rounds

theorem guarded {x : Parse Unit} (grows : Grows x) (h : Runs (A m k) x (fun _ => A m k) (E m)) :
    Stays (A m k) (E m) (Parse.guarded x) :=
  (runs_guarded rounds.recovers grows h).mono (fun _ => id) (fun _ _ held => ⟨held, trivial⟩)
    fun _ _ => And.left

/-- The blocks of a declaration are read where the type of the declaration is known. -/
theorem declaration : Runs (A m k) Parse.declaration (fun _ => A m k) (E m) := by
  intro st held
  -- the types do not change up to the end of the declaration
  have alike (s t : Session) (alike : s.Alike t) (same : s.types = st.session.types) :
      t.types = st.session.types := by rw [← same, ← alike]
  have along := (rounds.along m).and alike
  have item (d : TypeDef) (container : Option String)
      (found : ∃ s : Session, s.types = st.session.types ∧ s.typeNamed? d.name = some d) :
      Stays (fun t => A m (k + 1) t ∧ t.session.types = st.session.types)
        (fun failure t => E m failure t ∧ t.session.types = st.session.types)
        (Parse.declarationItem d container) := by
    refine (stays_isAt _).andThen fun decorated => .ite (fun _ => along.decorator) fun _ => ?_
    have block : Runs (fun t => A m (k + 1) t ∧ t.session.types = st.session.types)
        (Parse.resourceBlock d container)
        (fun _ t => A m (k + 1) t ∧ t.session.types = st.session.types)
        fun failure t => E m failure t ∧ t.session.types = st.session.types := by
      intro t known
      have here : t.session.typeNamed? d.name = some d := by
        obtain ⟨s, there, found⟩ := found
        rwa [Session.typeNamed?, known.2, ← there]
      exact (Runs.and (rounds.resourceBlock m _ d container)
        (Upholds.resourceBlock alike (fun _ => id) d container)).post
          (fun _ _ kept => ⟨kept.1, kept.2.1⟩) t ⟨⟨known.1, here⟩, known.2⟩
    have grows : Grows (Parse.resourceBlock d container) :=
      .of_local fun _ _ _ => (Step.resourceBlock d container).local
    refine (runs_guarded (fun known stopped recoverable more c => ?_) grows block).mono (fun _ => id)
      (fun _ _ held => ⟨held, trivial⟩) fun _ _ => And.left
    exact ⟨rounds.recovers known.1 stopped.1 recoverable more c, stopped.2⟩
  exact (along.declaration And.right item).mono (fun _ => id) (fun _ _ => And.left) (fun _ _ => And.left)
    st ⟨held, rfl⟩

/-! ### Directives -/

theorem formatDirective : Stays (C m k) (E m) Parse.formatDirective := by
  have flat := (rounds.along m).clear k
  have chosen (format : Format) :
      Stays (C m k) (E m) (modifySession (·.setFormat format)) := by
    refine .modifyState fun st held => ?_
    change C m k ⟨Session.setFormat st.session format, st.cursor⟩
    unfold Session.setFormat
    split
    · exact held
    · exact rounds.settings _ _ _ _ held
  refine (flat.accept (by decide)).andThen fun demanded => ?_
  have body (u : Unit) : Stays (C m k) (E m) (formatName demanded) := by
    refine flat.identifier.andThen fun name => ?_
    split
    · refine .ite (fun _ => ?_) fun _ => chosen _
      exact (stays_session (I := fun _ => True) fun _ => trivial).andThen fun s =>
        .ite (fun _ => flat.reject _ _) fun _ => done _
    · exact flat.unexpected _ _
  refine .ite (fun _ => ?_) fun _ => body ()
  rw [discard_eq]
  exact ((flat.accept (by decide)).andThen fun _ => done _).andThen body

theorem directiveBody (imports : ∀ target, Stays (C m k) (E m) (importer target))
    (directive : Lexeme) : Stays (C m k) (E m) (Parse.directiveBody importer directive) := by
  have flat := (rounds.along m).clear k
  unfold Parse.directiveBody
  split
  · exact (flat.one (by decide)).andThen imports
  · have name : Stays (C m k) (E m) Parse.name := by
      refine flat.any.bind fun l => ?_
      split
      iterate 2 exact Flat.after (done _) ‹_›
      exact fun _ held => held.2 _
    exact name.andThen fun name => .modifyState fun st held => rounds.settings _ _ _ _ held
  · exact rounds.formatDirective
  · refine (flat.one (by decide)).andThen fun target => .modifyState fun st held => ?_
    dsimp only
    split
    · exact held
    · exact rounds.settings _ _ _ _ held
  · refine (flat.reading .expr).andThen fun e => (flat.evaluate directive _ e).andThen fun value => ?_
    exact flat.update (.note ..)
  · refine (flat.one (by decide)).andThen fun value => ?_
    refine (stays_session (I := fun _ => True) fun _ => trivial).andThen fun s => ?_
    split
    · exact .modifyState fun st held => rounds.settings _ _ _ _ held
    · exact flat.update (.note ..)

theorem directive (imports : ∀ target, Stays (C m k) (E m) (importer target)) :
    Runs (A m k) (Parse.directive importer) (fun _ => A m k) (E m) := by
  have along := rounds.along m
  refine along.claimed rfl (fun _ => id) fun decorators => ?_
  refine ((along.clear k).one (by decide)).runs fun directive _ => ?_
  refine (rounds.directiveBody imports directive).runs fun _ _ => ?_
  exact (along.leave along.semicolon).post fun _ _ => And.left

/-! ### Modules and files -/

/-- What was the current module before is that of a state in which the construct was read. -/
theorem enterModule (name : Lexeme) (decorators : Decorators) :
    Runs (C m k) (ofUpdate (Parse.enterModule name decorators))
      (fun previous t => ∃ s c m', C m k ⟨s, c⟩ ∧ previous = s.currentModule ∧ C m' k t) (E m) := by
  rintro ⟨s, c⟩ held
  unfold ofUpdate Parse.enterModule
  cases entered : s.enterModule? { name := name.text, decorators, origin := some name } with
  | none => exact ((rounds.along m).clear k).reject (α := Unit) (Q := fun _ _ => True) name _ ⟨s, c⟩ held
  | some t => exact ⟨s, c, t.currentModule, held, rfl, rounds.enter held entered⟩

theorem moduleBlock {body : Parse Unit} (inner : ∀ m k, Runs (A m k) body (fun _ => A m k) (E m)) :
    Runs (A m k) (Parse.moduleBlock body) (fun _ => A m k) (E m) := by
  have along := rounds.along m
  have flat := along.clear k
  rw [moduleBlock_eq]
  refine along.claimed rfl (fun _ => id) fun decorators => (flat.skip (by decide)).runs fun _ _ => ?_
  refine flat.identifier.runs fun name _ => along.opening.bind fun _ => ?_
  refine (rounds.enterModule name decorators).bind ?_
  rintro previous st ⟨s, c, m', before, rfl, held⟩
  have left : Runs (A m' (k + 1)) (Parse.andFinally body (·.leaveModule s.currentModule))
      (fun _ => A m (k + 1)) (E m) := by
    intro st held
    rw [andFinally_eq]
    cases run : body st with
    | ok u t => exact rounds.leave before ((inner m' _).of_ok held run)
    | error failure t => exact rounds.leaveFailed before ((inner m' _).of_error held run)
  exact (left.bind fun _ => along.closeBlock.post fun _ _ => along.weaken) st
    ((rounds.along m').weaken held)

section

variable (imports : ∀ m k target, Stays (C m k) (E m) (importer target))
include imports

theorem construct {body : Parse Unit} (inner : ∀ m k, Runs (A m k) body (fun _ => A m k) (E m)) :
    Runs (A m k) (Parse.construct importer body) (fun _ => A m k) (E m) := by
  have along := rounds.along m
  refine stays_cursor.runs fun c _ => ?_
  split
  · exact rounds.directive (imports m k)
  split
  · exact Runs.post along.decorator fun _ _ => And.left
  split
  · exact rounds.moduleBlock inner
  split
  · exact rounds.typeBlock m k
  split
  · exact rounds.declaration
  · exact (along.flat k).fail _

variable [importer.Natural]

omit rounds imports in
theorem grows_construct (depth : Nat) :
    Grows (Parse.construct importer (Parse.moduleBody importer depth)) :=
  .of_local fun _ _ _ =>
    (Step.construct (Local.moduleBody depth)).local

theorem moduleBody (depth : Nat) (m : Option Nat) (k : Nat) :
    Runs (A m k) (Parse.moduleBody importer depth) (fun _ => A m k) (E m) := by
  have flat := (rounds.along m).flat k
  induction depth generalizing m k with
  | zero => exact flat.fail _
  | succ depth ih =>
    have each := rounds.guarded (grows_construct depth)
      (rounds.construct (m := m) (k := k) imports fun m k => ih m k ((rounds.along m).flat k))
    exact Runs.post (flat.toBrace (fun _ _ => each) trivial) fun _ _ => And.left

theorem fileStep : Runs (A m k) (Parse.fileStep importer) (fun _ => A m k)
    fun failure st => E m failure st ∧ failure.isRecoverable = false := fun st held =>
  runs_guarded rounds.recovers (grows_construct _)
    (rounds.construct imports (rounds.moduleBody imports st.cursor.unread)) st held

/-- What holds in front of a file holds behind it, or a failure has ended it that can not be recovered
from. -/
theorem file : Runs (A m k) (Parse.file importer) (fun _ => A m k)
    fun failure st => E m failure st ∧ failure.isRecoverable = false := by
  have within (limit : Nat) : Runs (A m k) (constructsWithin importer limit) (fun _ => A m k)
      fun failure st => E m failure st ∧ failure.isRecoverable = false := by
    induction limit with
    | zero => exact fun _ held => held
    | succ limit ih =>
      rw [constructsWithin_succ]
      refine stays_cursor.runs fun c _ => ?_
      split
      · exact fun _ held => held
      · exact (rounds.fileStep imports).bind fun _ => ih
  rw [file_eq]
  refine Runs.bind (fun st held => within st.cursor.unread st held) fun _ st held => ?_
  have look : session st = .ok st.session st := rfl
  rw [fileEnd, bind_of_ok look]
  cases dangling? st.session with
  | none => exact held
  | some failure => exact rounds.record failure held

end

end

end Rounds

/-! ### Invariants of sessions -/

/-- Started in a session of `P`, the computation ends in one, or it fails as in `E`. -/
def Endures (P : Session → Prop) (E : Failure → Session → Prop) (x : Parse α) : Prop :=
  Stays (fun st : ParseState => P st.session) (fun failure st => E failure st.session) x

/-- What is to be known of an invariant `I` of sessions, and of what is left of it where a construct
fails (`E`), for it to outlive the reading of a file, if imports keep it. Both may depend on the current
module and on the files being read. -/
structure Steady (I : Option Nat → List Path → Session → Prop)
    (E : Option Nat → List Path → Failure → Session → Prop) : Prop where
  stable : ∀ m stack, Session.Stable 0 (I m stack)
  fails : ∀ {m stack failure s}, I m stack s → E m stack failure s
  recovers : ∀ {m stack s t failure}, I m stack s → E m stack failure t →
    failure.isRecoverable = true → s.failures <+: t.failures →
    I m stack { t.record failure with scopes := t.scopes.truncate s.scopes.depth, pending := [] }
  record : ∀ {m stack s} failure, I m stack s → I m stack (s.record failure)
  settings : ∀ {m stack s} definitions metadata output format, I m stack s →
    I m stack { s with definitions, metadata, output, format }
  typeBlock : ∀ m stack, Endures (I m stack) (E m stack) typeBlock
  resourceBlock : ∀ m stack d container,
    Runs (fun st : ParseState => I m stack st.session ∧ st.session.typeNamed? d.name = some d)
      (resourceBlock d container) (fun _ st => I m stack st.session)
      fun failure st => E m stack failure st.session
  enter : ∀ {m stack s t module}, I m stack s → s.enterModule? module = some t →
    I t.currentModule stack t
  leave : ∀ {m m' stack s t}, I m stack s → I m' stack t → I m stack (t.leaveModule s.currentModule)
  leaveFailed : ∀ {m m' stack s t failure}, I m stack s → E m' stack failure t →
    E m stack failure (t.leaveModule s.currentModule)

/-- What is to be known for the invariant to outlive the reading of files that import one another. -/
structure Lasting (I : Option Nat → List Path → Session → Prop)
    (E : Option Nat → List Path → Failure → Session → Prop) : Prop extends Steady I E where
  beginImport : ∀ {m stack s t path} level text, I m stack s → s.beginImport path = .ok t →
    I m (path :: stack) (t.note level text)
  endImport : ∀ {m stack s path}, I m (path :: stack) s → I m stack s.endImport
  stopImport : ∀ {m stack s path failure}, E m (path :: stack) failure s →
    failure.isRecoverable = false → I m stack (s.endImport.record failure)

section

variable {I : Option Nat → List Path → Session → Prop}
  {E : Option Nat → List Path → Failure → Session → Prop} {m : Option Nat} {stack : List Path}

theorem Steady.rounds (steady : Steady I E) (stack : List Path) :
    Rounds (fun m _ st => I m stack st.session) (fun m _ st => I m stack st.session)
      fun m failure st => E m stack failure st.session where
  along m := (steady.stable m stack).along steady.fails
  recovers held stopped recoverable more _ := steady.recovers held stopped recoverable more
  record failure held := steady.record failure ((steady.stable _ stack).pending held [])
  settings _ _ _ _ held := steady.settings _ _ _ _ held
  typeBlock m _ := Runs.post (steady.typeBlock m stack) fun _ _ => And.left
  resourceBlock m _ d container := steady.resourceBlock m stack d container
  enter held entered := steady.enter held entered
  leave before held := steady.leave before held
  leaveFailed before stopped := steady.leaveFailed before stopped

theorem Steady.parseSource (steady : Steady I E) {importer : Importer} [importer.Natural]
    (imports : ∀ m target, Endures (I m stack) (E m stack) (importer target))
    (source : SourceFile) : Runs (I m stack) (Rsrc.parseSource importer source) (fun _ => I m stack)
      fun failure s => E m stack failure s ∧ failure.isRecoverable = false := by
  intro s kept
  unfold Rsrc.parseSource
  cases Cursor.ofSource source with
  | error e => exact ⟨steady.fails kept, rfl⟩
  | ok cursor =>
    have file := (steady.rounds stack).file (m := m) (k := 0) (fun m _ => imports m)
    dsimp only
    cases run : Parse.file importer { session := s, cursor } with
    | ok u t => exact file.of_ok kept run
    | error failure t => exact file.of_error kept run

namespace Lasting

variable (lasting : Lasting I E) (t : FileTree)
include lasting

/-- An imported file is read under its own path; the invariant holds again when it is finished. -/
theorem importBy {importer : Importer} [importer.Natural]
    (imports : ∀ m stack target, Endures (I m stack) (E m stack) (importer target)) (target : Lexeme) :
    Runs (I m stack) (t.importBy (t.readInto importer) target) (fun _ => I m stack) (E m stack) := by
  intro s kept
  rcases t.importBy_cases target s with
    ⟨-, ⟨cause, run⟩ | run⟩ | ⟨path, entered, -, -, begun, -, run⟩
  · rw [run]
    exact lasting.fails kept
  · rw [run]
    exact kept
  · have inside := lasting.beginImport .info s!"importing {path.text}" kept begun
    have read : Runs (I m (path :: stack)) (t.readInto importer path)
        (fun _ => I m (path :: stack)) fun failure s =>
          E m (path :: stack) failure s ∧ failure.isRecoverable = false := by
      unfold FileTree.readInto
      cases t.readText path with
      | error e => exact fun _ kept => ⟨lasting.fails kept, rfl⟩
      | ok contents => exact lasting.parseSource (fun m => imports m (path :: stack)) _
    rw [run]
    unfold finishingImport
    cases result : t.readInto importer path (entered.note .info s!"importing {path.text}") with
    | ok u t => exact lasting.endImport (read.of_ok inside result)
    | error failure t =>
      have stopped := read.of_error inside result
      exact lasting.stopImport stopped.1 stopped.2

theorem importer (depth : Nat) (m : Option Nat) (stack : List Path) (target : Lexeme) :
    Endures (I m stack) (E m stack) (t.importer depth target) := by
  induction depth generalizing m stack target with
  | zero => exact fun _ kept => lasting.fails kept
  | succ depth ih =>
    rw [t.importer_succ]
    exact (runs_ofUpdate fun _ => lasting.importBy t ih target).post
      fun _ _ kept => ⟨kept, trivial⟩

theorem parse (source : SourceFile) : Runs (I m stack) (t.parse source) (fun _ => I m stack)
    fun failure s => E m stack failure s ∧ failure.isRecoverable = false :=
  lasting.parseSource (fun m => lasting.importer t t.importLimit m stack) source

end Lasting

end

/-! ### Invariants of scopes, types and resources -/

namespace Lasting

variable {I : Session → Prop}

/-- Nothing else counts than scopes, types and resources. -/
theorem of_same (stable : Session.Stable 0 I)
    (same : ∀ {s t}, I s → t.scopes = s.scopes → t.types = s.types → t.resources = s.resources → I t)
    (truncate : ∀ {s} depth, I s → I { s with scopes := s.scopes.truncate depth })
    (typeBlock : Upholds I Parse.typeBlock)
    (resourceBlock : ∀ d container,
      Runs (fun st : ParseState => I st.session ∧ st.session.typeNamed? d.name = some d)
        (Parse.resourceBlock d container) (fun _ st => I st.session) fun _ st => I st.session) :
    Lasting (fun _ _ => I) fun _ _ _ => I where
  stable _ _ := stable
  fails := id
  recovers _ stopped _ _ := same (truncate _ stopped) rfl rfl rfl
  record _ held := same held rfl rfl rfl
  settings _ _ _ _ held := same held rfl rfl rfl
  typeBlock _ _ := typeBlock
  resourceBlock _ _ := resourceBlock
  enter held entered := by
    rw [Session.enterModule?_eq_some entered]
    exact same held rfl rfl rfl
  leave _ held := same held rfl rfl rfl
  leaveFailed _ held := same held rfl rfl rfl
  beginImport _ _ held begun := by
    rw [Session.beginImport_eq_ok begun]
    exact same held rfl rfl rfl
  endImport {_ _ s _} held := by
    obtain ⟨imported, ended⟩ := s.endImport_eq
    rw [ended]
    exact same held rfl rfl rfl
  stopImport {_ _ s _ _} held _ := by
    obtain ⟨imported, ended⟩ := s.endImport_eq
    rw [ended]
    exact same held rfl rfl rfl

theorem final_parse (lasting : Lasting (fun _ _ => I) fun _ _ _ => I) (t : FileTree)
    (source : SourceFile) {s : Session} (held : I s) : I (finalState (t.parse source s)) := by
  have parsed := @parse _ _ none [] lasting t source
  cases run : t.parse source s with
  | ok u after => exact parsed.of_ok held run
  | error failure after => exact (parsed.of_error held run).1

end Lasting

end Parse

end Rsrc
