import Rsrc.Proofs.Lasting

/-!
# How deep in braces a file is read

What reads a construct passes as many closing braces as opening ones, and it passes braces and
semicolons only where no decorator waits. `Levels` lists what has to be known of statements `A n` about
a state that is `n` braces deep. Then whatever holds at a level in front of a construct holds at the
same level behind it, also for whole files with their imports (`Levels.file`).
-/

namespace Rsrc

variable {α : Type} {u : Update α}

/-- The failures with which the reading of a construct ends: those of the grammar, and those that end
only the construct. -/
def Failure.OfConstruct (failure : Failure) : Prop :=
  failure.isRecoverable = true ∨ ∃ e, failure = .grammar e

namespace Parse

variable {s : Session} {importer : Importer}

/-- No decorator waits, unless something has failed before. -/
def Clear (A : Nat → ParseState → Prop) (n : Nat) (st : ParseState) : Prop :=
  A n st ∧ (st.session.pending = [] ∨ st.session.failures ≠ [])

/-- What is to be known of statements `A n` about states that are `n` braces deep, for them to hold
along the reading of constructs. Of the session they depend only on decorators and failures, and
nothing is to be known where something has failed. -/
structure Levels (A : Nat → ParseState → Prop) : Prop where
  pass : ∀ {n s c l}, c.peek = some l → ¬ l.isEdge → A n ⟨s, c⟩ → A n ⟨s, c.advance⟩
  push : ∀ {n s c l}, ¬ l.isEdge → l.kind ≠ .decorator → A n ⟨s, c⟩ → A n ⟨s, c.push l⟩
  session : ∀ {n s s' c}, A n ⟨s, c⟩ → s'.pending = s.pending → s'.failures = s.failures → A n ⟨s', c⟩
  edge : ∀ {n m : Nat} {s c l}, c.peek = some l → (m : Int) = n + Cursor.braceStep l →
    Clear A n ⟨s, c⟩ → A m ⟨s, c.advance⟩
  waits : ∀ {n s c l}, c.peek = some l → l.kind = .decorator → A n ⟨s, c⟩ → ∀ arguments,
    A n (ParseState.waiting ⟨s, c.advance⟩ l arguments)
  settled : ∀ {n s c}, A n ⟨s, c⟩ → A n ⟨{ s with pending := [] }, c⟩
  skipped : ∀ {n s c}, (∃ d ∈ s.pending, d.name = "condition") → A n ⟨s, c⟩ →
    A n ⟨{ s with pending := [] }, c.skipConstruct⟩
  failed : ∀ {n s c}, s.failures ≠ [] → A n ⟨s, c⟩

theorem recoverable_of_dangling {failure : Failure} (h : dangling? s = some failure) :
    failure.isRecoverable = true := by
  obtain ⟨d, -, rfl⟩ := Option.map_eq_some_iff.1 h
  rfl

/-- Tame updates leave decorators and failures alone. -/
theorem flat_of_session {B : ParseState → Prop}
    (pass : ∀ {s c l}, c.peek = some l → ¬ l.isEdge → B ⟨s, c⟩ → B ⟨s, c.advance⟩)
    (push : ∀ {s c l}, ¬ l.isEdge → l.kind ≠ .decorator → B ⟨s, c⟩ → B ⟨s, c.push l⟩)
    (session : ∀ {s s' c}, B ⟨s, c⟩ → s'.pending = s.pending → s'.failures = s.failures → B ⟨s', c⟩) :
    Flat 0 (fun failure _ => failure.OfConstruct) B where
  pass := pass
  push := push
  tame {_ u} tame c s held := by
    cases run : u s with
    | ok a t =>
      have same : s.Untouched t := (Runs.of_ok (tame.untouched s) rfl run).1
      have pending := congrArg Session.pending same
      have failures := congrArg Session.failures same
      exact ⟨session held pending failures, trivial⟩
    | error failure t => exact .inl (tame.recoverable.of_error trivial run)
  grammar e _ _ := .inr ⟨e, rfl⟩

namespace Levels

variable {A : Nat → ParseState → Prop} {n : Nat} (levels : Levels A)
include levels

theorem along : Along 0 (fun failure _ => failure.OfConstruct) A (Clear A) where
  flat _ := flat_of_session levels.pass levels.push levels.session
  clear _ := by
    refine flat_of_session (fun next inner held => ⟨levels.pass next inner held.1, held.2⟩)
      (fun inner other held => ⟨levels.push inner other held.1, held.2⟩) fun held pending failures => ?_
    refine ⟨levels.session held.1 pending failures, ?_⟩
    rw [pending, failures]
    exact held.2
  weaken := And.left
  edge next step held := ⟨levels.edge next step held, held.2⟩
  begins {k s c l} next kind held := by
    -- what will hold when the decorator is there
    refine ⟨fun st => ∀ arguments, A k (st.waiting l arguments), ?_, levels.waits next kind held,
      fun st arguments held => held arguments⟩
    refine flat_of_session (fun next inner held arguments => levels.pass next inner (held arguments))
      (fun inner other held arguments => levels.push inner other (held arguments))
      fun held pending failures arguments => ?_
    exact levels.session (held arguments) (by simp [pending]) failures
  settled held := ⟨levels.settled held, .inl rfl⟩
  skipped := levels.skipped
  undecorated none held := ⟨held, .inl none⟩
  dangling some _ := .inl (recoverable_of_dangling some)

theorem resourceBlock (d : TypeDef) (container : Option String) : Runs (A n)
    (Parse.resourceBlock d container) (fun _ => A n) fun failure _ => failure.OfConstruct := by
  refine levels.along.tameBlock (fun plan st held => ?_) (fun _ _ held => ?_) fun _ => id
  · exact ⟨⟨levels.session held.1 rfl rfl, held.2⟩, Nat.zero_le _⟩
  · exact levels.session held.1 rfl rfl

theorem typeBlock : Runs (A n) Parse.typeBlock (fun _ => A n) fun failure _ => failure.OfConstruct := by
  refine levels.along.typeBlock builds_trivial (I := fun _ => True) (fun _ => trivial) (fun _ => id)
    fun name d _ => runs_ofUpdate fun c s held => ?_
  rw [registerType_eq]
  cases registered : s.register? d with
  | none => exact .inl rfl
  | some t =>
    obtain ⟨-, modules, rfl⟩ := Session.register?_eq_some registered
    exact levels.session held.1 rfl rfl

theorem rounds : Rounds (fun _ => A) (fun _ => Clear A) fun _ failure _ => failure.OfConstruct where
  along _ := levels.along
  recovers _ _ _ _ _ := levels.failed (by simp [Session.record])
  record _ _ := levels.failed (by simp [Session.record])
  settings _ _ _ _ held := ⟨levels.session held.1 rfl rfl, held.2⟩
  typeBlock _ _ := levels.typeBlock
  resourceBlock _ _ d container := (levels.resourceBlock d container).pre fun _ => And.left
  enter held entered := by
    rw [Session.enterModule?_eq_some entered]
    exact ⟨levels.session held.1 rfl rfl, held.2⟩
  leave _ held := levels.session held rfl rfl
  leaveFailed _ := id

/-- A file is left at the level at which it is entered, or the grammar ends it. -/
theorem file [importer.Natural] (imports : ∀ n target, Stays (Clear A n)
      (fun failure _ => failure.OfConstruct) (importer target)) :
    Runs (A n) (Parse.file importer) (fun _ => A n) fun failure _ => ∃ e, failure = .grammar e :=
  (levels.rounds.file (m := none) (fun _ => imports)).mono (fun _ => id) (fun _ _ => id)
    fun _ _ stopped => stopped.1.resolve_left (Bool.eq_false_iff.1 stopped.2)

end Levels

/-! ### Imports -/

/-- A file ends where its constructs end, and no decorator waits then. -/
theorem exists_of_file {st t : ParseState} (h : Parse.file importer st = .ok () t) :
    ∃ u, Parse.constructsWithin importer st.cursor.unread st = .ok () u ∧
      t.cursor = u.cursor ∧ t.session.pending = [] := by
  rw [file_eq] at h
  cases run : (do Parse.constructsWithin importer (← Parse.cursor).unread : Parse Unit) st with
  | error failure u =>
    rw [bind_of_error run] at h
    cases h
  | ok a u =>
    have look : session u = .ok u.session u := rfl
    rw [bind_of_ok run, fileEnd, bind_of_ok look] at h
    cases dangling : dangling? u.session with
    | none =>
      rw [dangling] at h
      cases h
      exact ⟨_, run, rfl, dangling?_eq_none_iff.1 dangling⟩
    | some failure =>
      rw [dangling] at h
      cases h
      exact ⟨_, run, rfl, rfl⟩

theorem pending_of_parseSource {source : SourceFile} {t : Session}
    (h : parseSource importer source s = .ok () t) : t.pending = [] := by
  unfold parseSource at h
  split at h
  · cases h
  · split at h
    · rename_i run
      cases h
      obtain ⟨-, -, -, settled⟩ := exists_of_file run
      exact settled
    · cases h

theorem pending_of_readInto {t : FileTree} {path : Path} {s' : Session}
    (h : t.readInto importer path s = .ok () s') : s'.pending = [] := by
  unfold FileTree.readInto at h
  cases contents : t.readText path <;> rw [contents] at h
  · cases h
  · exact pending_of_parseSource h

/-- An import leaves no decorators behind, unless it leaves failures. -/
theorem runs_importBy (t : FileTree) (importer : Importer) (target : Lexeme) :
    Runs (fun s => s.pending = [] ∨ s.failures ≠ []) (t.importBy (t.readInto importer) target)
      (fun _ s => s.pending = [] ∨ s.failures ≠ []) fun failure _ => failure.OfConstruct := by
  intro s held
  rcases t.importBy_cases target s with
    ⟨-, ⟨cause, run⟩ | run⟩ | ⟨path, entered, -, -, -, -, run⟩
  · rw [run]
    exact .inl rfl
  · rw [run]
    exact held
  · rw [run]
    unfold finishingImport
    cases read : t.readInto importer path (entered.note .info s!"importing {path.text}") with
    | error failure s' => exact .inr (by simp [Session.record])
    | ok u s' =>
      obtain ⟨imported, ended⟩ := s'.endImport_eq
      have settled : s'.pending = [] := pending_of_readInto read
      exact .inl (by rw [ended]; exact settled)

end Parse

theorem Update.Natural.failures_grow (natural : u.Natural) (s : Session) :
    s.failures <+: (finalState (u s)).failures := by
  have run := natural { failures := s.failures } { s with failures := [] }
  have same : Session.within { failures := s.failures } { s with failures := [] } = s := by
    simp [Session.within]
  rw [same] at run
  rw [run]
  cases u { s with failures := [] } with
  | ok a t => exact List.prefix_append ..
  | error failure t => exact List.prefix_append ..

namespace Parse

/-- Imports do not change the file that imports. -/
theorem Levels.importer {A : Nat → ParseState → Prop} (levels : Levels A) (t : FileTree) (depth n : Nat)
    (target : Lexeme) : Stays (Clear A n) (fun failure _ => failure.OfConstruct)
      (t.importer depth target) := by
  cases depth with
  | zero => exact fun _ _ => .inl rfl
  | succ depth =>
    rw [t.importer_succ]
    refine runs_ofUpdate fun c s held => ?_
    have grows := (t.natural_importBy (t.natural_readInto (t.importer depth)) target).failures_grow s
    have settles := runs_importBy t (t.importer depth) target
    cases run : t.importBy (t.readInto (t.importer depth)) target s with
    | error failure s' => exact settles.of_error held.2 run
    | ok u s' =>
      rw [run] at grows
      have clear := settles.of_ok held.2 run
      refine ⟨⟨?_, clear⟩, trivial⟩
      by_cases failed : s'.failures = []
      · have before : s.failures = [] := List.prefix_nil.1 (failed ▸ grows)
        have waiting : s'.pending = [] := clear.resolve_right fun some => some failed
        exact levels.session (levels.settled held.1) waiting (failed.trans before.symm)
      · exact levels.failed failed

end Parse

end Rsrc
