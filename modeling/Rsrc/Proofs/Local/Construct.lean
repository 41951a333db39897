import Rsrc.Proofs.Local.Expr
import Rsrc.Proofs.Recovery
import Rsrc.Proofs.Tame

/-!
# Reading constructs in a setting

Loops, decorators and blocks are read in the same way in two settings.
-/

namespace Rsrc

/-- No decorators wait. -/
def ParseState.settled (st : ParseState) : ParseState :=
  { st with session := { st.session with pending := [] } }

/-- Where reading goes on after a construct has failed. -/
def ParseState.afterFailure (st failed : ParseState) (failure : Failure) : ParseState :=
  let s := failed.session.record failure
  { session := { s with scopes := s.scopes.truncate st.session.scopes.depth, pending := [] }
    cursor := failed.cursor.recover st.cursor.mark }

namespace Parse

variable {α β : Type} {k k' : Setting} {weak p : Prop} {x : Parse α} {q : α → Prop} {st t : ParseState}
  {failure : Failure} {f : Session → Session}

/-! ### Loops -/

section Loops

variable {step : α → Parse α}

theorem stepsToBrace_succ (limit : Nat) (a : α) :
    stepsToBrace step (limit + 1) a = cursor >>= fun c =>
      if c.isAt LexemeKind.rightBrace then pure a
      else if c.finished then Parse.fail "`\x7d`"
      else step a >>= stepsToBrace step limit := by
  funext st
  rw [stepsToBrace]
  change (if st.cursor.isAt _ then _ else _ : Parse α) st = (if st.cursor.isAt _ then _ else _ : Parse α) st
  split
  · rfl
  · split
    · rfl
    · rfl

/-- A block is not closed by the end of the file. -/
theorem lost_stepsToBrace (limit : Nat) (a : α) {t : ParseState} (finished : t.cursor.finished) :
    Lost weak k (stepsToBrace step limit a t) := by
  cases limit with
  | zero => exact .inl rfl
  | succ limit =>
    have no : t.cursor.isAt LexemeKind.rightBrace = false := by
      have none : t.cursor.peek = none := by
        obtain ⟨injected, ahead⟩ : t.cursor.injected = [] ∧ t.cursor.ahead = [] := by
          simpa [Cursor.finished] using finished
        simp [Cursor.peek, injected, ahead]
      simp [Cursor.isAt, none]
    rw [stepsToBrace_succ]
    change Lost weak k ((if t.cursor.isAt _ then _ else _ : Parse α) t)
    rw [no, finished]
    exact .inl rfl

/-- At the end of the part, a step of the loop reads what stands in front of it. -/
theorem lost_of_advances {x : Parse α} {st : ParseState} (advances : AdvancesAt x (st.within k))
    (ended : st.cursor.ahead = []) (injected : st.cursor.injected = []) (more : k.next ≠ []) :
    Lost False k (x (st.within k)) := by
  have left : 0 < (st.within k).cursor.unread := by
    have : 0 < k.next.length := List.length_pos_iff.2 more
    simpa [Cursor.unread, injected, ended] using this
  have count : (st.within k).cursor.unread = k.next.length := by
    simp [Cursor.unread, injected, ended]
  have fewer := advances left
  cases ran : x (st.within k) with
  | ok a t =>
    rw [ran, count] at fewer
    refine .inl (Nat.lt_of_le_of_lt ?_ fewer)
    exact Nat.le_add_left ..
  | error failure t =>
    rw [ran, count] at fewer
    by_cases recoverable : failure.isRecoverable
    · exact .inr (Nat.lt_of_le_of_lt (Nat.le_add_left ..) (fewer recoverable))
    · exact .inl (by simpa using recoverable)

theorem Local.stepsToBrace [meets : Meets k k']
    (each : ∀ a, Step k k' True True (step a) fun _ => False) (limit : Nat) (a : α) :
    Local k k' False False (Parse.stepsToBrace step limit a) := by
  induction limit generalizing a with
  | zero => exact Local.fail _
  | succ limit ih =>
    intro st
    rw [stepsToBrace_succ]
    have forward : ∀ a, Forward (Parse.stepsToBrace step limit a) := fun a t => (ih a t).later
    have inside : LocalAt k k' False True (Parse.cursor >>= fun c =>
        if c.isAt LexemeKind.rightBrace then pure a
        else if c.finished then Parse.fail "`\x7d`"
        else step a >>= Parse.stepsToBrace step limit) (fun _ => True) st := by
      refine .cursor ?_ fun ready opened => ?_
      · refine .ite (fun _ => .pure id) fun _ => .ite (fun _ => Local.fail _ st) fun _ => ?_
        refine ⟨later_bind (each a st).later forward, fun ready opened => ?_⟩
        exact ((each a st).toLocalAt.sync ready opened).bindWeak (fun a => (forward a).onward)
          (fun _ a t finished => lost_stepsToBrace limit a finished) fun b t ready _ =>
            (ih b t).sync ready False.elim
      · obtain ⟨first, second⟩ := (opened trivial).isAt LexemeKind.rightBrace
        obtain ⟨first', second'⟩ := (opened trivial).finished
        exact ⟨by rw [first, first'], by rw [second, second']⟩
    refine ⟨inside.later, fun ready _ => ?_⟩
    by_cases opened : st.cursor.Open k k'
    · exact inside.sync ready fun _ => opened
    · -- The part ends before the block does.
      obtain ⟨cut, ended⟩ : Cut k k' ∧ st.cursor.ahead = [] := by simpa [Cursor.Open] using opened
      have injected := ready.injected cut ended
      refine .inl ⟨cut, ?_⟩
      cases next : k.next with
      | nil =>
        rw [← stepsToBrace_succ]
        exact lost_stepsToBrace _ a (by simp [Cursor.finished, injected, ended, next])
      | cons l rest =>
        have kind := (meets.first l (by simp [next])).2
        have no : (st.within k).cursor.isAt LexemeKind.rightBrace = false := by
          simp [Cursor.isAt, Cursor.peek, injected, ended, next, Expectation.matched, kind]
        have more : (st.within k).cursor.finished = false := by
          simp [Cursor.finished, injected, ended, next]
        change Lost False k ((if (st.within k).cursor.isAt _ then _ else _ : Parse α) (st.within k))
        rw [no, more]
        exact lost_of_advances ((each a _).advances.bind forward) ended injected (by simp [next])

/-- A step reads something, so that there are never more steps than lexemes. -/
theorem stepsToBrace_fuel (advances : ∀ a st, AdvancesAt (step a) st) {n n' : Nat} {a : α}
    {st : ParseState} (h : st.cursor.unread + 1 ≤ n) (h' : st.cursor.unread + 1 ≤ n') :
    Parse.stepsToBrace step n a st = Parse.stepsToBrace step n' a st := by
  induction n generalizing n' a st with
  | zero => omega
  | succ n ih =>
    cases n' with
    | zero => omega
    | succ n' =>
      rw [stepsToBrace_succ, stepsToBrace_succ]
      change (if st.cursor.isAt _ then _ else _ : Parse α) st =
        (if st.cursor.isAt _ then _ else _ : Parse α) st
      split
      · rfl
      · split
        · rfl
        · rename_i unfinished
          refine bind_congr_at rfl fun b t ran => ?_
          have fewer := advances a st (Cursor.unread_pos unfinished)
          rw [ran] at fewer
          dsimp only at fewer
          exact ih (by omega) (by omega)

theorem Local.toBrace [Meets k k'] (each : ∀ a, Step k k' True True (step a) fun _ => False)
    (a : α) : Local k k' False False (Parse.toBrace step a) := fun st =>
  .fueled (f := fun n => Parse.stepsToBrace step n a)
    (fun _ _ _ h h' => stepsToBrace_fuel (fun a st => (each a st).advances) h h')
    fun n => Local.stepsToBrace each n a st

end Loops

section Items

variable {item : Parse α}

theorem unread_of_accepted {e : Expectation} {st t : ParseState}
    (h : ofReading (Reading.accept e) st = .ok true t) : t.cursor.unread + 1 = st.cursor.unread :=
  Reading.unread_of_accept (ofReading_eq_ok h).1

theorem Local.itemsWithin (each : Local k k' False True item) (limit : Nat) :
    Local k k' False True (Parse.itemsWithin item limit) := by
  induction limit with
  | zero => exact Local.fail _
  | succ limit ih =>
    intro st
    rw [Parse.itemsWithin]
    refine (each st).bind fun first st => ?_
    refine (Local.acceptInner (by decide) st).bind fun more st => ?_
    cases more with
    | true => exact (ih st).bind fun rest st => .pure id
    | false => exact .pure id

theorem itemsWithin_fuel (forward : Forward item) {n n' : Nat} {st : ParseState}
    (h : st.cursor.unread + 1 ≤ n) (h' : st.cursor.unread + 1 ≤ n') :
    Parse.itemsWithin item n st = Parse.itemsWithin item n' st := by
  induction n generalizing n' st with
  | zero => omega
  | succ n ih =>
    cases n' with
    | zero => omega
    | succ n' =>
      rw [Parse.itemsWithin, Parse.itemsWithin]
      refine bind_congr_at rfl fun first t read => bind_congr_at rfl fun more u accepted => ?_
      cases more with
      | false => rfl
      | true =>
        have item_le := (forward st).unread
        rw [read] at item_le
        have comma := unread_of_accepted accepted
        exact bind_congr_at (ih (by dsimp only [finalState] at item_le; omega)
          (by dsimp only [finalState] at item_le; omega)) fun _ _ _ => rfl

theorem Local.items (each : Local k k' False True item) :
    Local k k' False True (Parse.items item) := fun st =>
  .fueled (f := fun n => Parse.itemsWithin item n)
    (fun _ _ _ h h' => itemsWithin_fuel (fun st => (each st).later) h h')
    fun n => Local.itemsWithin each n st

theorem Local.bracketed {opening closing : LexemeKind} (inner : Expectation.Inner opening)
    (inner' : Expectation.Inner closing) (each : Local k k' False True item) :
    Local k k' False True (Parse.bracketed opening closing item) := by
  intro st
  refine (Local.skip inner st).bind fun _ st => ?_
  refine (Local.acceptInner inner' st).bind fun none st => ?_
  cases none with
  | true => exact .pure id
  | false =>
    refine (Local.items each st).bind fun all st => ?_
    exact (Local.skip inner' st).bind fun _ st => .pure id

end Items

/-! ### Expressions -/

theorem Step.operand : Step k k' weak True Parse.operand := by
  intro st
  refine .cursor ?_ fun _ opened => ?_
  · split
    · exact (Step.expr st).bind fun e st => .pure id
    · exact Step.fail _ st
  · have opened := opened trivial
    simp only [Cursor.peek_within opened.first, Cursor.peek_within opened.second, and_self]

theorem Local.evaluate (origin : Lexeme) (scope : ScopeId) (e : Expr) :
    Local k k' weak p (Parse.ofUpdate (Update.evaluate origin (e.eval scope))) fun _ => p := fun _ =>
  .ofUpdate (Update.Tame.value (n := 0) origin scope e).natural

theorem Local.arguments : Local k k' False True Parse.arguments := by
  intro st
  refine (Local.bracketed (by decide) (by decide) Step.operand.local st).bind
    fun operands => .mapM fun operand _ st => ?_
  exact (Local.evaluate _ _ _ st).bind fun value st => .pure id

theorem inner_toLexeme (value : Value) (origin : Lexeme) : ¬ (value.toLexeme origin).isEdge := by
  cases value <;> simp [Value.toLexeme, Lexeme.placed, Lexeme.isEdge]

/-- Evaluates an expression that has been read, and puts a literal in its place. -/
def inject : Expr × Lexeme → Parse Unit := fun (e, origin) => do
  let value ← ofUpdate (Update.evaluate origin (e.eval Scopes.rootId))
  modify fun st => { st with cursor := st.cursor.push (value.toLexeme origin) }

variable (operand : Expr × Lexeme)

theorem inject_cases : (∃ failure s, inject operand st = .error failure { st with session := s }) ∨
      ∃ (value : Value) (s : Session), inject operand st =
        .ok () { session := s, cursor := st.cursor.push (value.toLexeme operand.2) } := by
  obtain ⟨e, origin⟩ := operand
  cases ran : Update.evaluate origin (e.eval Scopes.rootId) st.session with
  | ok value s =>
    have first : ofUpdate (Update.evaluate origin (e.eval Scopes.rootId)) st =
        .ok value { st with session := s } := by simp [ofUpdate, ran]
    exact .inr ⟨value, s, bind_of_ok first⟩
  | error failure s =>
    have first : ofUpdate (Update.evaluate origin (e.eval Scopes.rootId)) st =
        .error failure { st with session := s } := by simp [ofUpdate, ran]
    exact .inl ⟨failure, s, bind_of_error first⟩

theorem inject_within (j : Setting) :
    inject operand (st.within j) = j.place ParseState.within (inject operand st) := by
  obtain ⟨e, origin⟩ := operand
  have natural := (Update.Tame.value (n := 0) origin Scopes.rootId e).natural j st.session
  cases ran : Update.evaluate origin (e.eval Scopes.rootId) st.session with
  | ok value s =>
    rw [ran] at natural
    have first : ofUpdate (Update.evaluate origin (e.eval Scopes.rootId)) st =
        .ok value { st with session := s } := by simp [ofUpdate, ran]
    have first' : ofUpdate (Update.evaluate origin (e.eval Scopes.rootId)) (st.within j) =
        .ok value (ParseState.within j { st with session := s }) := by
      rw [ofUpdate, ParseState.within_session, natural]
      rfl
    have alone : inject (e, origin) st = _ := bind_of_ok first
    rw [alone]
    exact bind_of_ok first'
  | error failure s =>
    rw [ran] at natural
    have first : ofUpdate (Update.evaluate origin (e.eval Scopes.rootId)) st =
        .error failure { st with session := s } := by simp [ofUpdate, ran]
    have first' : ofUpdate (Update.evaluate origin (e.eval Scopes.rootId)) (st.within j) =
        .error failure (ParseState.within j { st with session := s }) := by
      rw [ofUpdate, ParseState.within_session, natural]
      rfl
    have alone : inject (e, origin) st = _ := bind_of_error first
    rw [alone]
    exact bind_of_error first'

theorem onward_inject : Onward (inject operand) := by
  intro st
  rcases inject_cases operand with ⟨failure, s, ran⟩ | ⟨value, s, ran⟩
  · rw [ran]
    exact Nat.le_refl _
  · rw [ran]
    exact Nat.le_refl _

theorem operand_of_ended (ended : st.cursor.peek = none) :
    Parse.operand st = .error (.grammar (st.cursor.unexpected "an expression")) st := by
  have read : Parse.cursor st = .ok st.cursor st := rfl
  unfold Parse.operand
  rw [bind_of_ok read, ended]
  rfl

theorem forward_inline : Forward (Parse.operand >>= inject) := by
  intro st
  have first : StepAt {} {} False True Parse.operand _ st := Step.operand st
  have later := first.toLocalAt.later
  cases ran : Parse.operand st with
  | error failure t =>
    rw [ran] at later
    rw [bind_of_error ran]
    exact later
  | ok operand t =>
    rw [ran] at later
    rw [bind_of_ok ran]
    rcases inject_cases operand with ⟨failure, s, run⟩ | ⟨value, s, run⟩
    · rw [run]
      exact later
    · rw [run]
      -- The expression had a lexeme, whose place the literal takes.
      have fewer : t.cursor.unread < st.cursor.unread := by
        rcases Nat.eq_zero_or_pos st.cursor.unread with none | left
        · have ended : st.cursor.peek = Option.none := Cursor.peek_of_unread none
          rw [operand_of_ended ended] at ran
          cases ran
        · have read := first.advances left
          rwa [ran] at read
      refine ⟨later.source, later.passed, ?_, fun clean l member => ?_⟩
      · change t.cursor.injected.length + 1 + t.cursor.ahead.length ≤ _
        simp only [Cursor.unread] at fewer ⊢
        omega
      · rcases List.mem_cons.1 member with rfl | old
        · exact inner_toLexeme value operand.2
        · exact later.injected clean l old

theorem Local.inlineValue : Local k k' weak True Parse.inlineValue := by
  intro st
  refine .cursor (.ite (fun _ => ?_) fun _ => .pure id) fun ready opened => ?_
  · change LocalAt k k' weak True (Parse.operand >>= inject) _ st
    refine ⟨forward_inline st, fun ready opened => ?_⟩
    refine ((Step.operand st).toLocalAt.sync ready opened).bind onward_inject fun operand t ready opened => ?_
    have opened := opened trivial
    refine .inr ⟨inject operand t, inject_within operand k, inject_within operand k', ?_, ?_⟩
    · rcases inject_cases operand with ⟨failure, s, ran⟩ | ⟨value, s, ran⟩
      · rw [ran]
        exact ready
      · rw [ran]
        exact ⟨ready.edge, fun cut ended => absurd ended (opened cut), ready.ending⟩
    · intro u t' same _
      rcases inject_cases operand with ⟨failure, s, ran⟩ | ⟨value, s, ran⟩
      · rw [ran] at same
        cases same
      · rw [ran] at same
        cases same
        exact opened
  · have inner : Expectation.Inner LexemeKind.identifier := by decide
    obtain ⟨first, second⟩ := (opened trivial).isAt LexemeKind.var
    obtain ⟨first', second'⟩ := ready.expects LexemeKind.leftParen (opened trivial) inner
    exact ⟨by rw [first, first'], by rw [second, second']⟩

theorem Local.integer : Local k k' weak True Parse.integer := by
  intro st
  refine (Local.inlineValue st).bind fun _ st => ?_
  refine (Local.one (by decide) st).bind fun l st => ?_
  split
  · exact .pure id
  · exact .throw _

/-! ### Decorators -/

theorem Local.decoratorArgument : Local k k' weak True Parse.decoratorArgument := by
  intro st
  refine (Local.acceptInner (by decide) st).bind fun negated st => ?_
  refine (Local.inlineValue st).bind fun _ st => ?_
  refine (Local.any st).bind fun l st => ?_
  split
  · rename_i kind
    exact .pure fun _ => by simp [Lexeme.isEdge, kind]
  · rename_i kind
    exact .pure fun _ => by simp [Lexeme.isEdge, kind]
  · rename_i kind
    exact .pure fun _ => by simp [Lexeme.isEdge, kind]
  · rename_i kind
    exact .pure fun _ => by simp [Lexeme.isEdge, kind]
  · exact .throw _

theorem Step.decorator : Step k k' weak True Parse.decorator := by
  intro st
  refine (Step.one (by decide) st).bind fun origin st => ?_
  refine (Local.isAt _ st).bind fun opening st => ?_
  cases opening with
  | true =>
    refine (Local.bracketed (by decide) (by decide)
      Local.decoratorArgument st).bind fun arguments st => ?_
    exact .modifySession fun _ _ => rfl
  | false =>
    exact (LocalAt.pure id).bind fun _ st => .modifySession fun _ _ => rfl

/-- A check that rejects what it finds. -/
theorem LocalAt.rejectIf {c : Prop} [Decidable c] {origin : Lexeme} {cause : SemanticCause}
    {f : Unit → Parse α} (h : ∀ u, Local k k' weak p (f u) q) :
    LocalAt k k' weak p
      (if c then Parse.ofUpdate (Update.reject origin cause) >>= f else f ()) q st :=
  .ite (fun _ => (LocalAt.ofUpdate (.throw _)).bind h) fun _ => h () st

/-! ### Claims -/

theorem claim_of_permits
    (permits : (⟨st.session.pending⟩ : Decorators).permits st.session.definitions.keys) :
    claim st = .ok (some ⟨st.session.pending⟩) st.settled := by
  change (if (⟨st.session.pending⟩ : Decorators).permits _ then _ else _ : Parse _) st.settled = _
  rw [if_pos permits]
  rfl

theorem claim_of_excludes
    (excludes : ¬ (⟨st.session.pending⟩ : Decorators).permits st.session.definitions.keys) :
    claim st = .ok none { st.settled with cursor := st.cursor.skipConstruct } := by
  change (if (⟨st.session.pending⟩ : Decorators).permits _ then _ else _ : Parse _) st.settled = _
  rw [if_neg excludes]
  rfl

/-- A construct that waiting decorators are handed to, or that they exclude. -/
theorem StepAt.claimed {f : Option Decorators → Parse α} {a : α} [meets : Meets k k']
    (excluded : f none = pure a)
    (each : ∀ decorators, StepAt k k' True True (f (some decorators)) (fun _ => False) st.settled) :
    StepAt k k' True True (claim >>= f) (fun _ => False) st := by
  by_cases permits : (⟨st.session.pending⟩ : Decorators).permits st.session.definitions.keys
  · have alone : ∀ j, claim (st.within j) = .ok (some ⟨st.session.pending⟩) (st.settled.within j) :=
      fun j => @claim_of_permits (st.within j) permits
    have here := each ⟨st.session.pending⟩
    refine ⟨⟨?_, fun ready opened => ?_⟩, ?_⟩
    · rw [bind_of_ok (claim_of_permits permits)]
      exact here.toLocalAt.later
    · rw [Sync, bind_of_ok (alone k), bind_of_ok (alone k')]
      exact here.toLocalAt.sync ready opened
    · rw [AdvancesAt, bind_of_ok (claim_of_permits permits)]
      exact here.advances
  · have alone : ∀ j, claim (st.within j) = .ok none
        { st.settled.within j with cursor := (st.cursor.within j).skipConstruct } :=
      fun j => @claim_of_excludes (st.within j) permits
    refine ⟨⟨?_, fun ready _ => ?_⟩, fun left => ?_⟩
    · rw [bind_of_ok (claim_of_excludes permits), excluded]
      exact .recover ..
    · have mark : ∀ j, (st.cursor.within j).skipConstruct =
          (st.cursor.within j).recover (st.cursor.mark + j.back.length) := by
        intro j
        rw [Cursor.skipConstruct]
        simp [Cursor.mark]
      rw [Sync, bind_of_ok (alone k), bind_of_ok (alone k'), excluded, mark, mark]
      rcases Cursor.recover_within (c := st.cursor) meets st.cursor.mark with
        ⟨first, second⟩ | ⟨cut, gone⟩
      · refine .inr ⟨.ok a { st.settled with cursor := st.cursor.skipConstruct }, ?_, ?_, ?_, ?_⟩
        · rw [first]
          rfl
        · rw [second]
          rfl
        · exact ready.later (.recover ..) (Cursor.injected_recover ..)
        · exact fun _ _ _ left => left.elim
      · refine .inl ⟨cut, ?_⟩
        exact gone.imp_right fun ended => ⟨trivial, ended⟩
    · rw [bind_of_ok (claim_of_excludes permits), excluded]
      exact Cursor.unread_skipConstruct_lt left

theorem Local.closeBlock [Meets k k'] :
    Local k k' weak True Parse.closeBlock fun _ => False := by
  intro st
  have close : Local k k' weak True (do
      Reading.skip LexemeKind.rightBrace
      Functor.discard (Reading.accept LexemeKind.semicolon) : Parse Unit) fun _ => False := by
    intro st
    refine (Local.skipEdge _ st).bind fun _ st => ?_
    rw [discard_eq]
    exact (Local.acceptSemicolon st).bind fun _ st => .pure id
  refine .session ?_ fun k s => rfl
  split
  · exact .throw _
  · exact close st

/-! ### Failures of constructs -/

theorem guarded_of_ok {x : Parse Unit} (ran : x st = .ok () t) : guarded x st = .ok () t := by
  unfold guarded
  rw [ran]

theorem guarded_of_fatal {x : Parse Unit} (ran : x st = .error failure t)
    (fatal : ¬ failure.isRecoverable) : guarded x st = .error failure t := by
  unfold guarded
  rw [ran]
  exact if_neg fatal

theorem guarded_of_failure {x : Parse Unit} (ran : x st = .error failure t)
    (recoverable : failure.isRecoverable) : guarded x st = .ok () (st.afterFailure t failure) := by
  unfold guarded
  rw [ran]
  exact if_pos recoverable

/-- A guarded construct comes to what the construct does, or to the state behind a failure that ends
the construct only. -/
theorem guarded_cases (x : Parse Unit) :
    guarded x st = x st ∨ ∃ failure t, x st = .error failure t ∧ failure.isRecoverable ∧
      guarded x st = .ok () (st.afterFailure t failure) := by
  cases ran : x st with
  | ok u t => exact .inl (guarded_of_ok ran)
  | error failure t =>
    by_cases recoverable : failure.isRecoverable
    · exact .inr ⟨failure, t, rfl, recoverable, guarded_of_failure ran recoverable⟩
    · exact .inl (guarded_of_fatal ran recoverable)

theorem afterFailure_within {j : Setting} {c : Cursor}
    (cursor : (t.cursor.within j).recover (st.cursor.mark + j.back.length) = c) :
    (st.within j).afterFailure (t.within j) failure =
      { session := (st.afterFailure t failure).session.within j, cursor := c } := by
  have mark : (st.cursor.within j).mark = st.cursor.mark + j.back.length := by simp [Cursor.mark]
  unfold ParseState.afterFailure
  simp only [ParseState.within_cursor, mark, cursor]
  simp [Session.record, Session.within]

theorem Step.guarded {x : Parse Unit} {q : Unit → Prop} [meets : Meets k k']
    (h : Step k k' True True x q) : Step k k' True True (guarded x) fun _ => False := by
  intro st
  refine ⟨⟨?_, fun ready opened => ?_⟩, fun left => ?_⟩
  · have later := (h st).toLocalAt.later
    rcases guarded_cases x with same | ⟨failure, t, ran, -, run⟩
    · rwa [same]
    · rw [ran] at later
      rw [run]
      exact later.trans (.recover ..)
  · rcases (h st).toLocalAt.sync ready opened with ⟨cut, lost⟩ | ⟨result, run, run', ready', -⟩
    · refine .inl ⟨cut, ?_⟩
      rcases guarded_cases x with same | ⟨failure, t, ran, recoverable, run⟩
      · rwa [same]
      · rw [ran] at lost
        rw [run]
        rcases lost with fatal | gone
        · simp [recoverable] at fatal
        · exact .inl (Nat.lt_of_le_of_lt (Cursor.Later.recover ..).length_ahead_le gone)
    · cases result with
      | ok u t =>
        exact .inr ⟨.ok () t, guarded_of_ok run, guarded_of_ok run', ready', fun _ _ _ left => left.elim⟩
      | error failure t =>
        by_cases recoverable : failure.isRecoverable
        · rw [Sync, guarded_of_failure run recoverable, guarded_of_failure run' recoverable]
          rcases Cursor.recover_within (c := t.cursor) meets st.cursor.mark with
            ⟨first, second⟩ | ⟨cut, gone⟩
          · refine .inr ⟨.ok () (st.afterFailure t failure), ?_, ?_, ?_, fun _ _ _ left => left.elim⟩
            · rw [afterFailure_within first]
              rfl
            · rw [afterFailure_within second]
              rfl
            · exact ready'.later (.recover ..) (Cursor.injected_recover ..)
          · refine .inl ⟨cut, ?_⟩
            rw [afterFailure_within rfl]
            exact gone.imp_right fun ended => ⟨trivial, ended⟩
        · exact .inr ⟨.error failure t, guarded_of_fatal run recoverable,
            guarded_of_fatal run' recoverable, ready', fun _ _ same => by cases same⟩
  · have fewer := (h st).advances left
    rcases guarded_cases x with same | ⟨failure, t, ran, recoverable, run⟩
    · rwa [same]
    · rw [ran] at fewer
      rw [run]
      exact Nat.lt_of_le_of_lt (Cursor.Later.recover ..).unread (fewer recoverable)

/-- A result whose session is changed in the end. -/
def endWith (f : Session → Session) :
    EStateM.Result Failure ParseState α → EStateM.Result Failure ParseState α
  | .ok a t => .ok a { t with session := f t.session }
  | .error failure t => .error failure { t with session := f t.session }

theorem andFinally_eq : andFinally x f st = endWith f (x st) := by
  unfold andFinally
  cases x st with
  | ok a t => rfl
  | error failure t => rfl

section EndWith

variable {r : EStateM.Result Failure ParseState α}

theorem cursor_endWith : (finalState (endWith f r)).cursor = (finalState r).cursor := by
  cases r with
  | ok a t => rfl
  | error failure t => rfl

theorem Lost.endWith (h : Lost weak k r) : Lost weak k (endWith f r) := by
  cases r with
  | ok a t => exact h
  | error failure t => exact h

theorem endWith_place (natural : ∀ k s, f (Session.within k s) = (f s).within k) :
    endWith f (k.place ParseState.within r) = k.place ParseState.within (endWith f r) := by
  cases r with
  | ok a t => simp [Parse.endWith, Setting.place, ParseState.within, natural]
  | error failure t => simp [Parse.endWith, Setting.place, ParseState.within, natural]

end EndWith

theorem Local.andFinally (h : Local k k' weak p x q)
    (natural : ∀ k s, f (Session.within k s) = (f s).within k) :
    Local k k' weak p (andFinally x f) q := by
  intro st
  refine ⟨?_, fun ready opened => ?_⟩
  · rw [andFinally_eq, cursor_endWith]
    exact (h st).later
  · rw [Sync, andFinally_eq, andFinally_eq]
    rcases (h st).sync ready opened with ⟨cut, lost⟩ | ⟨result, run, run', ready', opened'⟩
    · exact .inl ⟨cut, lost.endWith⟩
    · refine .inr ⟨endWith f result, ?_, ?_, ?_, fun a t same left => ?_⟩
      · rw [run, endWith_place natural]
      · rw [run', endWith_place natural]
      · rwa [cursor_endWith]
      · cases result with
        | ok a t =>
          cases same
          exact opened' a t rfl left
        | error failure t => cases same

end Parse

end Rsrc
