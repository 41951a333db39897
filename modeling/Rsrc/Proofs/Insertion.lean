import Rsrc.Proofs.Closing
import Mathlib.Logic.Relation

/-!
# Lexemes that make no difference

Two runs are compared, one over a file with some lexemes inserted and one over the file without them.
If the first one gets in front of the insertion and behind it without a difference in the session, then
both come to the same (`file_insert`). In front of the insertion they are two settings of one part of
the file; behind it, they are two settings of another part, until the end. What is around the insertion
may fail later on: then recovery goes back to a mark in front of the insertion, which does not matter,
since braces are balanced in it.
-/

namespace Rsrc

/-- Behind the second setting, further lexemes stand in the first one, in which braces are balanced. -/
structure Wider (j j' : Setting) : Prop where
  next : j.next = []
  next' : j'.next = []
  back : ∃ inserted, j.back = inserted ++ j'.back ∧ Cursor.braceDepth inserted = 0

namespace Wider

variable {j j' : Setting}

theorem whole (wider : Wider j j') : ¬ Cut j j' := by simp [Cut, wider.next, wider.next']

theorem meets (wider : Wider j j') : Meets j j' := .none wider.next wider.next'

end Wider

namespace Cursor

theorem take_to_mark (front back : List Lexeme) {mark : Nat} (h : mark ≤ back.length) :
    (front ++ back).take ((front ++ back).length - mark) = front ++ back.take (back.length - mark) := by
  have count : (front ++ back).length - mark = front.length + (back.length - mark) := by
    rw [List.length_append]
    omega
  rw [count, List.take_length_add_append]

/-- Behind the insertion, recovery does the same, if a lexeme has been read since. -/
theorem recover_wider {j j' : Setting} (wider : Wider j j') {c : Cursor} (some : c.consumed ≠ [])
    {mark : Nat} (before : mark ≤ j'.back.length) :
    ∃ c', (c.within j).recover mark = c'.within j ∧ (c.within j').recover mark = c'.within j' ∧
      c.Later c' ∧ c'.injected = [] := by
  obtain ⟨inserted, back, balanced⟩ := wider.back
  -- The two constructs that are to be recovered from.
  have second : (c.within j').consumed.take ((c.within j').mark - mark) = _ :=
    take_to_mark c.consumed j'.back before
  have first : (c.within j).consumed.take ((c.within j).mark - mark) =
      (c.consumed ++ inserted) ++ j'.back.take (j'.back.length - mark) := by
    have same : (c.within j).consumed = (c.consumed ++ inserted) ++ j'.back := by
      rw [within_consumed, back, List.append_assoc]
    rw [Cursor.mark, same]
    exact take_to_mark _ _ before
  generalize j'.back.take (j'.back.length - mark) = tail at first second
  have depth : braceDepth (c.consumed ++ inserted ++ tail) = braceDepth (c.consumed ++ tail) := by
    simp only [Lexeme.braceDepth_append, balanced]
    omega
  have last : (c.consumed ++ inserted ++ tail).head? = (c.consumed ++ tail).head? := by
    obtain ⟨l, rest, eq⟩ := List.exists_cons_of_ne_nil some
    simp [eq]
  have same (kind : LexemeKind) :
      endsWith kind (c.consumed ++ inserted ++ tail) = endsWith kind (c.consumed ++ tail) := by
    rw [endsWith, depth, last]
    rfl
  rw [recover_eq first, recover_eq second, same, same, depth]
  let bare : Cursor := { c with injected := [] }
  split
  · exact ⟨bare, rfl, rfl, .dropInjected c, rfl⟩
  · exact ⟨bare.pass _ _, pass_whole (c := bare) wider.next .., pass_whole (c := bare) wider.next' ..,
      (Later.dropInjected c).trans (.pass _ _), rfl⟩

end Cursor

namespace Parse

variable {j j' : Setting} {c : Cursor} {n : Nat} {x : Parse Unit} {st : ParseState}
  {importer : Importer} {place : Place}

/-! ### Behind the insertion -/

/-- Of `n` lexemes and more that have been read, the last one is behind the `n`-th; or else nothing
waits or has been injected. -/
structure Fresh (n : Nat) (st : ParseState) : Prop where
  mark : n ≤ st.cursor.mark
  fresh : n < st.cursor.mark ∨ st.session.pending = [] ∧ st.cursor.injected = []

/-- If the run has failed and can be recovered from, more than `n` lexemes have been read. -/
def Sound (n : Nat) : EStateM.Result Failure ParseState Unit → Prop
  | .ok _ t => Fresh n t
  | .error failure t => failure.isRecoverable → n < t.cursor.mark

theorem mark_le {c' : Cursor} (later : c.Later c') : c.mark ≤ c'.mark := by
  obtain ⟨passed, -, consumed⟩ := later.passed
  simp [Cursor.mark, consumed]

/-- A lexeme that is read comes from the source, if none is injected. -/
theorem mark_lt {c' : Cursor} (later : c.Later c') (injected : c.injected = [])
    (fewer : c'.unread < c.unread) : c.mark < c'.mark := by
  obtain ⟨passed, ahead, consumed⟩ := later.passed
  have some : 0 < passed.length := by
    have total := congrArg List.length ahead
    simp only [List.length_append] at total
    simp only [Cursor.unread, injected, List.length_nil] at fewer
    omega
  simp only [Cursor.mark, consumed, List.length_append, List.length_reverse]
  omega

theorem Sound.of_mark {r : EStateM.Result Failure ParseState Unit}
    (h : n < (finalState r).cursor.mark) : Sound n r := by
  cases r with
  | ok u t => exact ⟨Nat.le_of_lt h, .inl h⟩
  | error failure t => exact fun _ => h

/-- What reads something is sound. -/
theorem Sound.of_advances (fresh : Fresh n st) (forward : Forward x) (left : 0 < st.cursor.unread)
    (advances : AdvancesAt x st) : Sound n (x st) := by
  have later := forward st
  rcases fresh.fresh with more | ⟨-, injected⟩
  · exact .of_mark (Nat.lt_of_lt_of_le more (mark_le later))
  · have fewer := advances left
    cases ran : x st with
    | ok u t =>
      rw [ran] at fewer later
      exact .of_mark (Nat.lt_of_le_of_lt fresh.mark (mark_lt later injected fewer))
    | error failure t =>
      rw [ran] at fewer later
      exact fun recoverable =>
        Nat.lt_of_le_of_lt fresh.mark (mark_lt later injected (fewer recoverable))

theorem Sound.bind {f : Unit → Parse Unit} (first : Sound n (x st))
    (second : ∀ t, Fresh n t → Sound n (f () t)) : Sound n ((x >>= f) st) := by
  cases ran : x st with
  | ok u t =>
    rw [ran] at first
    rw [bind_of_ok ran]
    exact second t first
  | error failure t =>
    rw [ran] at first
    rw [bind_of_error ran]
    exact first

theorem sound_stepsToBrace {step : Parse Unit}
    (each : ∀ st : ParseState, Fresh n st → ¬ st.cursor.finished → Sound n (step st)) (limit : Nat)
    (fresh : Fresh n st) : Sound n (stepsToBrace (fun () => step) limit () st) := by
  induction limit generalizing st with
  | zero => exact nofun
  | succ limit ih =>
    rw [stepsToBrace_succ]
    change Sound n ((if st.cursor.isAt _ then _ else _ : Parse Unit) st)
    split
    · exact fresh
    · split
      · exact nofun
      · rename_i unfinished
        exact Sound.bind (each st fresh unfinished) fun t fresh => ih fresh

theorem sound_constructsWithin
    (each : ∀ st : ParseState, Fresh n st → ¬ st.cursor.finished → Sound n (fileStep importer st))
    (limit : Nat) (fresh : Fresh n st) : Sound n (constructsWithin importer limit st) := by
  induction limit generalizing st with
  | zero => exact fresh
  | succ limit ih =>
    rw [constructsWithin_succ]
    change Sound n ((if st.cursor.finished then _ else _ : Parse Unit) st)
    split
    · exact fresh
    · rename_i unfinished
      exact Sound.bind (each st fresh unfinished) fun t fresh => ih fresh

theorem sound_loop [importer.Natural] (fresh : Fresh n st) : Sound n (place.loop importer st) := by
  have each : ∀ (place : Place) (st : ParseState), Fresh n st → ¬ st.cursor.finished →
      Sound n (place.item importer st) := by
    intro place st fresh unfinished
    have step : Step {} {} True True (place.item importer) fun _ => False :=
      Step.item place
    exact .of_advances fresh (fun st => (step st).toLocalAt.later) (Cursor.unread_pos unfinished)
      (step st).advances
  cases place with
  | file => exact sound_constructsWithin (each .file) _ fresh
  | module => exact sound_stepsToBrace (each .module) _ fresh
  | declaration d container => exact sound_stepsToBrace (each (.declaration d container)) _ fresh

theorem sound_closeBlock (fresh : Fresh n st) : Sound n (closeBlock st) := by
  have close : Local {} {} False True closeBlock fun _ => False := Local.closeBlock
  rcases fresh.fresh with more | ⟨settled, injected⟩
  · exact .of_mark (Nat.lt_of_lt_of_le more (mark_le (close st).later))
  · have later := (close st).later
    have run : closeBlock st = (ofReading (Reading.skip LexemeKind.rightBrace) >>= fun _ =>
        Functor.discard (ofReading (Reading.accept LexemeKind.semicolon))) st := by
      have look : session st = .ok st.session st := rfl
      have none : dangling? st.session = none := by simp [dangling?, settled]
      refine (bind_of_ok look).trans ?_
      rw [none]
      rfl
    rw [run] at later ⊢
    cases ran : ofReading (Reading.skip LexemeKind.rightBrace) st with
    | error failure t =>
      rw [bind_of_error ran]
      intro recoverable
      unfold ofReading at ran
      split at ran
      · cases ran
      · cases ran
        cases recoverable
    | ok u t =>
      have passed := (Local.forward (Local.skipEdge LexemeKind.rightBrace)) st
      have fewer := Reading.unread_of_skip (ofReading_eq_ok ran).1
      rw [ran] at passed
      have more : n < t.cursor.mark :=
        Nat.lt_of_le_of_lt fresh.mark (mark_lt passed injected (Nat.lt_of_succ_le (Nat.le_of_eq fewer)))
      refine .of_mark (Nat.lt_of_lt_of_le more (mark_le ?_))
      rw [bind_of_ok ran, discard_eq]
      have semicolon : Local {} {} False False
          (ofReading (Reading.accept LexemeKind.semicolon) >>= fun _ => pure ()) fun _ => False :=
        fun st => (Local.acceptSemicolon st).bind fun _ st => .pure id
      exact (semicolon t).later

/-- Behind the insertion, two runs have come to the same. -/
def Twin (j j' : Setting) (r r' : EStateM.Result Failure ParseState Unit) : Prop :=
  ∃ result, r = j.place ParseState.within result ∧ r' = j'.place ParseState.within result ∧
    (finalState result).cursor.Ready j j' ∧ Sound j.back.length r

/-! ### Twins -/

section Twin

variable {x : Parse Unit} {f : Unit → Parse Unit} {st st' : ParseState}

theorem Twin.of_local {b : ParseState} {p : Prop} {q : Unit → Prop} (wider : Wider j j')
    (h : LocalAt j j' False p x q b) (ready : b.cursor.Ready j j')
    (sound : Sound j.back.length (x (b.within j))) : Twin j j' (x (b.within j)) (x (b.within j')) := by
  rcases h.sync ready fun _ cut => absurd cut wider.whole with ⟨cut, -⟩ | ⟨result, run, run', ready', -⟩
  · exact absurd cut wider.whole
  · exact ⟨result, run, run', ready', sound⟩

theorem Twin.bind (first : Twin j j' (x st) (x st'))
    (second : ∀ b : ParseState, b.cursor.Ready j j' → Fresh j.back.length (b.within j) →
      Twin j j' (f () (b.within j)) (f () (b.within j'))) :
    Twin j j' ((x >>= f) st) ((x >>= f) st') := by
  obtain ⟨result, run, run', ready, sound⟩ := first
  cases result with
  | ok u b =>
    rw [run] at sound
    have go : (x >>= f) st = f () (b.within j) := bind_of_ok run
    have go' : (x >>= f) st' = f () (b.within j') := bind_of_ok run'
    rw [go, go']
    exact second b ready sound
  | error failure b =>
    have go : (x >>= f) st = .error failure (b.within j) := bind_of_error run
    have go' : (x >>= f) st' = .error failure (b.within j') := bind_of_error run'
    rw [go, go']
    refine ⟨.error failure b, rfl, rfl, ready, ?_⟩
    rwa [run] at sound

theorem Twin.andFinally {g : Session → Session}
    (natural : ∀ k s, g (Session.within k s) = (g s).within k)
    (pending : ∀ s : Session, (g s).pending = s.pending) (h : Twin j j' (x st) (x st')) :
    Twin j j' (andFinally x g st) (andFinally x g st') := by
  obtain ⟨result, run, run', ready, sound⟩ := h
  rw [andFinally_eq, andFinally_eq, run']
  refine ⟨endWith g result, ?_, endWith_place natural, ?_, ?_⟩
  · rw [run, endWith_place natural]
  · rwa [cursor_endWith]
  · cases ran : x st with
    | ok u b =>
      rw [ran] at sound
      refine ⟨sound.mark, sound.fresh.imp_right fun ⟨settled, injected⟩ => ⟨?_, injected⟩⟩
      exact (pending _).trans settled
    | error failure b =>
      rw [ran] at sound
      exact sound

/-- A construct around the insertion, whose mark is in front of it. -/
theorem Twin.guarded (wider : Wider j j') (mark : st.cursor.mark = st'.cursor.mark)
    (depth : st.session.scopes.depth = st'.session.scopes.depth)
    (before : st.cursor.mark ≤ j'.back.length) (h : Twin j j' (x st) (x st')) :
    Twin j j' (guarded x st) (guarded x st') := by
  obtain ⟨result, run, run', ready, sound⟩ := h
  cases result with
  | ok u b =>
    rw [guarded_of_ok run, guarded_of_ok run']
    rw [run] at sound
    exact ⟨.ok u b, rfl, rfl, ready, sound⟩
  | error failure b =>
    by_cases recoverable : failure.isRecoverable
    · rw [run] at sound
      rw [guarded_of_failure run recoverable, guarded_of_failure run' recoverable]
      have some : b.cursor.consumed ≠ [] := by
        have more := sound recoverable
        rintro none
        simp [Cursor.mark, none] at more
      obtain ⟨c, first, second, later, clean⟩ := Cursor.recover_wider wider some before
      let s := b.session.record failure
      refine ⟨.ok () { session := { s with
          scopes := s.scopes.truncate st.session.scopes.depth, pending := [] }, cursor := c },
        ?_, ?_, ready.later later clean, ?_⟩
      · unfold ParseState.afterFailure
        simp only [ParseState.within_cursor, first]
        simp [Session.record, Session.within, Setting.place, ParseState.within, s]
      · unfold ParseState.afterFailure
        simp only [ParseState.within_cursor, ← mark, ← depth, second]
        simp [Session.record, Session.within, Setting.place, ParseState.within, s]
      · refine .of_mark ?_
        have more := mark_le later
        change _ < ((b.cursor.within j).recover st.cursor.mark).mark
        rw [first]
        have here := sound recoverable
        simp only [Cursor.mark, ParseState.within_cursor, Cursor.within_consumed,
          List.length_append] at here more ⊢
        omega
    · rw [guarded_of_fatal run recoverable, guarded_of_fatal run' recoverable]
      rw [run] at sound
      exact ⟨.error failure b, rfl, rfl, ready, sound⟩

end Twin

/-! ### In front of the insertion -/

/-- What is read in front of the insertion is read in the same way without the insertion. -/
theorem Step.follow {α : Type} {k k' : Setting} {x : Parse α} {q : α → Prop} {u : ParseState}
    {a : α} (step : Step k k' True True x q) (ready : st.cursor.Ready k k') (more : k.next ≠ [])
    (ran : x (st.within k) = .ok a u) (bound : k.next.length ≤ u.cursor.ahead.length) :
    st.cursor.Open k k' ∧ ∃ t : ParseState, u = t.within k ∧ x (st.within k') = .ok a (t.within k') ∧
      t.cursor.Ready k k' := by
  have opened : st.cursor.Open k k' := by
    intro cut ended
    have injected := ready.injected cut ended
    have count : (st.within k).cursor.unread = k.next.length := by
      simp [Cursor.unread, injected, ended]
    have fewer := (step (st.within k)).advances (by rw [count]; exact List.length_pos_iff.2 more)
    rw [ran, count] at fewer
    simp only [Cursor.unread] at fewer
    omega
  refine ⟨opened, ?_⟩
  rcases (step st).toLocalAt.sync ready fun _ => opened with ⟨-, lost⟩ | ⟨result, run, run', ready', -⟩
  · rw [ran] at lost
    rcases lost with gone | ⟨-, none, -⟩
    · omega
    · exact absurd none more
  · rw [ran] at run
    cases result with
    | error failure t => cases run
    | ok b t =>
      obtain ⟨rfl, rfl⟩ : a = b ∧ u = t.within k := by simpa [Setting.place] using run
      exact ⟨t, rfl, run', ready'⟩

theorem not_brace_of_keyword {word : String} (h : c.isAt (.keyword word)) :
    ¬ c.isAt LexemeKind.rightBrace := by
  obtain ⟨l, next, fits⟩ := exists_of_isAt h
  have kind : l.kind = .identifier := by
    simp only [Expectation.matched, Expectation.keyword] at fits
    simp_all
  simp [Cursor.isAt, next, Expectation.matched, kind]

/-- A loop that goes on behind a construct around the insertion. -/
theorem Twin.around [importer.Natural] (wider : Wider j j') {st' : ParseState} {word : String}
    (first : st.cursor.isAt (.keyword word)) (second : st'.cursor.isAt (.keyword word))
    (item : place.item importer st = Parse.guarded x st)
    (item' : place.item importer st' = Parse.guarded x st') (mark : st.cursor.mark = st'.cursor.mark)
    (depth : st.session.scopes.depth = st'.session.scopes.depth)
    (before : st.cursor.mark ≤ j'.back.length) (h : Twin j j' (x st) (x st')) :
    Twin j j' (place.loop importer st) (place.loop importer st') := by
  rw [loop_turn (not_finished_of_isAt first) (not_brace_of_keyword first),
    loop_turn (not_finished_of_isAt second) (not_brace_of_keyword second)]
  refine Twin.bind ?_ fun b ready fresh =>
    .of_local wider (Local.loop wider.whole place b) ready (sound_loop fresh)
  rw [item, item']
  exact .guarded wider mark depth before h

/-- A block around the insertion goes on to its closing brace. -/
theorem Twin.close {st' : ParseState} (wider : Wider j j') (h : Twin j j' (x st) (x st')) :
    Twin j j' ((x >>= fun _ => closeBlock) st) ((x >>= fun _ => closeBlock) st') := by
  refine h.bind fun b ready fresh => ?_
  have := wider.meets
  have close : LocalAt j j' False True closeBlock _ b := Local.closeBlock b
  exact .of_local wider close ready (sound_closeBlock fresh)

/-- What is around a position in front of the insertion: if the loop there comes to the same with and
without the insertion, so does the loop of the file, which may be the same loop. -/
theorem Reaches.twin [importer.Natural] {k k' : Setting} (wider : Wider j j') (meets : Meets k k')
    (more : k.next ≠ []) (back : k.back = []) (back' : k'.back = []) {t : ParseState}
    (ready : st.cursor.Ready k k')
    (fits : st.cursor.consumed.length + st.cursor.ahead.length ≤ j'.back.length)
    (h : Reaches importer (st.within k) place t) (bound : k.next.length ≤ t.cursor.ahead.length) :
    ∃ b : ParseState, t = b.within k ∧ b.cursor.Ready k k' ∧
      (Twin j j' (place.loop importer (b.within k)) (place.loop importer (b.within k')) →
        Twin j j' (Place.file.loop importer (st.within k))
          (Place.file.loop importer (st.within k'))) ∧
      (place = .file →
        Place.file.loop importer (st.within k) = Place.file.loop importer (b.within k) ∧
          Place.file.loop importer (st.within k') = Place.file.loop importer (b.within k')) := by
  have isAt : ∀ {b : ParseState}, b.cursor.Open k k' → ∀ e,
      (b.within k').cursor.isAt e = (b.within k).cursor.isAt e := fun opened e =>
    (opened.isAt e).2.trans (opened.isAt e).1.symm
  have mark : ∀ b : ParseState, (b.within k).cursor.mark = (b.within k').cursor.mark := by
    intro b
    simp [Cursor.mark, back, back']
  have inFront : ∀ {b : ParseState} {place : Place}, Reaches importer (st.within k) place (b.within k) →
      (b.within k).cursor.mark ≤ j'.back.length := by
    intro b place before
    obtain ⟨passed, ahead, consumed⟩ := before.later.passed
    have total := congrArg List.length ahead
    simp only [ParseState.within_cursor, Cursor.within_ahead, List.length_append] at total
    simp only [ParseState.within_cursor, Cursor.within_consumed, back, List.append_nil] at consumed
    simp only [ParseState.within_cursor, Cursor.mark, Cursor.within_consumed, back, List.append_nil,
      consumed, List.length_append, List.length_reverse]
    omega
  induction h with
  | start => exact ⟨st, rfl, ready, id, fun _ => ⟨rfl, rfl⟩⟩
  | turn before turn ih =>
    rename_i place t u
    have later := Step.later (Step.item place) turn.read
    obtain ⟨b, rfl, ready, twin, outside⟩ := ih (Nat.le_trans bound later.length_ahead_le)
    obtain ⟨opened, b', rfl, run', ready'⟩ :=
      Step.follow (Step.item place) ready more turn.read bound
    have turn' : Turn importer place (b.within k') (b'.within k') := by
      refine ⟨?_, ?_, run'⟩
      · rw [ParseState.within_cursor, opened.finished.2, ← opened.finished.1]
        exact turn.unfinished
      · rw [isAt opened]
        exact turn.inner
    refine ⟨b', rfl, ready', fun h => twin ?_, ?_⟩
    · rw [turn.loop_eq, turn'.loop_eq]
      exact h
    · rintro rfl
      rw [← turn.loop_eq, ← turn'.loop_eq]
      exact outside rfl
  | module before constructs word head ih =>
    rename_i place t u previous
    have later := Step.later Step.moduleHead head
    obtain ⟨b, rfl, ready, twin, -⟩ := ih (Nat.le_trans bound later.length_ahead_le)
    obtain ⟨opened, b', rfl, head', ready'⟩ :=
      Step.follow Step.moduleHead ready more head bound
    have word' : (b.within k').cursor.isAt (.keyword "module") := (isAt opened _).trans word
    refine ⟨b', rfl, ready', fun h => twin ?_, fun same => by cases same⟩
    refine .around wider word word' (item_module constructs word)
      (item_module constructs word') (mark b) rfl (inFront before) ?_
    rw [bind_of_ok head, bind_of_ok head']
    exact .close wider (h.andFinally (fun _ _ => rfl) fun _ => rfl)
  | declaration before constructs word head ih =>
    rename_i place t u d container
    have later := Step.later Step.declarationHead head
    obtain ⟨b, rfl, ready, twin, -⟩ := ih (Nat.le_trans bound later.length_ahead_le)
    obtain ⟨opened, b', rfl, head', ready'⟩ :=
      Step.follow Step.declarationHead ready more head bound
    have word' : (b.within k').cursor.isAt (.keyword "declare") := (isAt opened _).trans word
    refine ⟨b', rfl, ready', fun h => twin ?_, fun same => by cases same⟩
    refine .around wider word word' (item_declaration constructs word)
      (item_declaration constructs word') (mark b) rfl (inFront before) ?_
    rw [bind_of_ok head, bind_of_ok head']
    exact .close wider h

/-! ### Whole files -/

end Parse

/-- `@define deluxe;` -/
def Lexeme.defining : List Lexeme :=
  [.bare .directive "define", .bare .identifier "deluxe", .bare .semicolon]

/-- The state in which some lexemes of a file have been read, and others follow. -/
def Session.between (s : Session) (source : SourceFile) (read ahead : List Lexeme) : ParseState :=
  { session := s, cursor := { source, consumed := read.reverse, ahead } }

theorem Session.between_within (s : Session) (source : SourceFile) (read ahead next : List Lexeme) :
    (s.between source read ahead).within { next } = s.between source read (ahead ++ next) := by
  simp [Session.between, ParseState.within, Session.within, Cursor.within]

theorem ParseState.within_injective (k : Setting) : Function.Injective (ParseState.within k) := by
  rintro ⟨s, c⟩ ⟨s', c'⟩ same
  obtain ⟨session, cursor⟩ := ParseState.mk.inj same
  obtain rfl : s = s' := by
    simp only [Session.within, Session.mk.injEq, List.append_cancel_left_eq] at session
    cases s
    cases s'
    simp_all
  obtain rfl : c = c' := by
    simp only [Cursor.within, Cursor.mk.injEq, List.append_cancel_right_eq] at cursor
    cases c
    cases c'
    simp_all
  rfl

namespace Parse

variable {importer : Importer} {st : ParseState}

theorem turns_loop_eq [importer.Natural] {place : Place} {t : ParseState}
    (turns : Relation.ReflTransGen (Turn importer place) st t) :
    place.loop importer st = place.loop importer t := by
  induction turns with
  | refl => rfl
  | tail _ turn ih => exact ih.trans (turn.loop_eq)

/-- The end of a file is the same in two settings. -/
theorem Twin.file {st' : ParseState} (wider : Wider j j')
    (h : Twin j j' (Place.file.loop importer st) (Place.file.loop importer st')) :
    ∃ result, Parse.file importer st = j.place ParseState.within result ∧
      Parse.file importer st' = j'.place ParseState.within result := by
  obtain ⟨result, run, run', ready, -⟩ := h
  have go : ∀ st, Parse.file importer st = (Place.file.loop importer >>= fun _ => fileEnd) st :=
    fun st => congrFun (file_eq importer) st
  rw [go, go]
  cases result with
  | ok u b =>
    rw [bind_of_ok run, bind_of_ok run']
    have ending : LocalAt j j' False True fileEnd _ b := Local.fileEnd b
    rcases ending.sync ready fun _ cut => absurd cut wider.whole with
      ⟨cut, -⟩ | ⟨result, run, run', -⟩
    · exact absurd cut wider.whole
    · exact ⟨result, run, run'⟩
  | error failure b => exact ⟨.error failure b, bind_of_error run, bind_of_error run'⟩

/-- Where the loop comes to the end of the file and nothing waits, this is the end. -/
theorem file_of_loop {t : ParseState}
    (loop : Place.file.loop importer st = Place.file.loop importer t) (finished : t.cursor.finished)
    (settled : t.session.pending = []) : file importer st = .ok () t := by
  have ended : Place.file.loop importer st = .ok () t :=
    loop.trans (constructsWithin_of_finished finished)
  have quiet : dangling? t.session = none := by simp [dangling?, settled]
  have look : session t = .ok t.session t := rfl
  rw [file_eq]
  refine (bind_of_ok ended).trans ((bind_of_ok look).trans ?_)
  rw [quiet]
  rfl

/-- What a run comes to: the failure that has ended it, if any, and the session. -/
def outcome : EStateM.Result Failure ParseState Unit → Option Failure × Session
  | .ok () st => (none, st.session)
  | .error failure st => (some failure, st.session)

theorem outcome_place (j : Setting) (result : EStateM.Result Failure ParseState Unit) :
    outcome (j.place ParseState.within result) = ((outcome result).1, (outcome result).2.within j) := by
  cases result with
  | ok u st => rfl
  | error failure st => rfl

section Insert

variable {importer : Importer} {source : SourceFile} {s s₁ : Session} {A X B : List Lexeme}
  {place : Place} {failures : List Failure} {log : List LogEntry}

/-- What has been read up to a position where nothing waits ends with a brace or a semicolon. -/
theorem Reaches.ready {Y : List Lexeme} {k' : Setting} [importer.Natural]
    (reached : Reaches importer (s.between source [] (A ++ Y)) place (s₁.between source A Y))
    (settled : s₁.pending = []) (more : Y ≠ []) :
    (s.between source [] A).cursor.Ready { next := Y } k' := by
  refine ⟨fun _ l last => ?_, fun _ _ => rfl, fun whole => absurd (.inl more) whole⟩
  have clean : (s.between source [] (A ++ Y)).cursor.Clean := List.forall_mem_nil _
  rcases reached.closed clean settled with same | none | ⟨l', last', edge⟩
  · have empty : [] = A.reverse := congrArg (·.cursor.consumed) same
    obtain rfl : A = [] := by simpa using empty.symm
    cases last
  · exact absurd none more
  · obtain rfl : l = l' := by
      have last'' : A.getLast? = .some l' := by simpa [Session.between] using last'
      exact Option.some.inj (last.symm.trans last'')
    exact edge

/-- Items that change nothing but what is recorded make no difference to the rest of the file. -/
theorem file_insert [importer.Natural]
    (reached : Reaches importer (s.between source [] (A ++ (X ++ B))) place
      (s₁.between source A (X ++ B)))
    (settled : s₁.pending = [])
    (turns : Relation.ReflTransGen (Turn importer place) (s₁.between source A (X ++ B))
      ({ s₁ with failures, log }.between source (A ++ X) B))
    (some : X ≠ []) (first : ∀ l, X.head? = .some l → l.kind ≠ .semicolon ∧ l.kind ≠ .rightBrace)
    (balanced : Cursor.braceDepth X = 0) (next : ∀ l, B.head? = .some l → l.kind ≠ .semicolon)
    (inside : place ≠ .file → B ≠ []) :
    ∃ result,
      file importer (s.between source [] (A ++ (X ++ B))) = Setting.place ParseState.within
        { back := (A ++ X).reverse, failures, log } result ∧
      file importer (s.between source [] (A ++ B)) = Setting.place ParseState.within
        { back := A.reverse, failures := s₁.failures, log := s₁.log } result := by
  let k : Setting := { next := X ++ B }
  let k' : Setting := { next := B }
  let j : Setting := { back := (A ++ X).reverse, failures, log }
  let j' : Setting := { back := A.reverse, failures := s₁.failures, log := s₁.log }
  have wider : Wider j j' :=
    ⟨rfl, rfl, X.reverse, by simp [j, j'], by rw [Lexeme.braceDepth_reverse, balanced]⟩
  have front : (X ++ B).head? = X.head? := by
    obtain ⟨l, rest, rfl⟩ := List.exists_cons_of_ne_nil some
    rfl
  have meets : Meets k k' := ⟨fun l found => first l (front ▸ found), next⟩
  have more : k.next ≠ [] := by simp [k, some]
  obtain ⟨b, eq, -, twin, outside⟩ := Reaches.twin wider meets more rfl rfl
    (reached.ready settled more) (by simp [Session.between, j']) reached (Nat.le_refl _)
  obtain rfl : s₁.between source A [] = b :=
    ParseState.within_injective k ((s₁.between_within source A [] (X ++ B)).trans eq)
  let rest : ParseState := { s₁ with failures := [], log := [] }.between source [] B
  have here : place.loop importer ((s₁.between source A []).within k) =
      place.loop importer (rest.within j) := by
    have landed : rest.within j = { s₁ with failures, log }.between source (A ++ X) B := by
      simp [rest, j, Session.between, ParseState.within, Session.within, Cursor.within]
    rw [landed, ← eq]
    exact turns_loop_eq turns
  have there : (s₁.between source A []).within k' = rest.within j' := by
    simp [rest, j', k', Session.between, ParseState.within, Session.within, Cursor.within]
  by_cases last : B = []
  · -- Nothing is left to be read, neither with the insertion nor without it.
    obtain rfl : place = .file := by
      by_contra other
      exact inside other last
    obtain ⟨loop, loop'⟩ := outside rfl
    rw [here] at loop
    rw [there] at loop'
    have finished : ∀ i : Setting, i.next = [] → (rest.within i).cursor.finished := by
      intro i ended
      simp [rest, Session.between, Cursor.finished, last, ended]
    exact ⟨.ok () rest, file_of_loop loop (finished j rfl) settled,
      file_of_loop loop' (finished j' rfl) settled⟩
  · refine Twin.file wider (twin ?_)
    rw [here, there]
    refine .of_local wider (Local.loop wider.whole place rest) ?_
      (sound_loop ⟨?_, .inr ⟨settled, rfl⟩⟩)
    · exact ⟨fun cut => absurd cut wider.whole, fun cut => absurd cut wider.whole,
        fun _ => .inl (by simp [rest, Session.between, last])⟩
    · simp [rest, Session.between, Cursor.mark, Cursor.within, ParseState.within]

end Insert

end Parse

end Rsrc
