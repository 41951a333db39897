import Rsrc.Proofs.Position

/-!
# How items end

An item that has been read ends with a brace or a semicolon, unless it is a decorator, which then
waits. So does an item that has failed or has been skipped, unless the file ends first.
-/

namespace Rsrc

/-- What has been injected are not braces or semicolons. -/
def Cursor.Clean (c : Cursor) : Prop := ∀ l ∈ c.injected, ¬ l.isEdge

/-- The last lexeme behind the cursor is a brace or a semicolon, or there is none in front of it. -/
def Cursor.Closed (c : Cursor) : Prop :=
  c.ahead = [] ∨ ∃ l, c.consumed.head? = some l ∧ l.isEdge

namespace Cursor

variable {c : Cursor}

/-- A brace or a semicolon that is read comes from the source. -/
theorem Clean.advance {l : Lexeme} (clean : c.Clean) (next : c.peek = some l) (edge : l.isEdge) :
    c.advance.Clean ∧ c.advance.Closed := by
  rcases peek_cases next with ⟨injected, was, -⟩ | ⟨ahead, none, -, moved⟩
  · exact absurd edge (clean l (by simp [was]))
  · rw [moved]
    exact ⟨by simp [Clean, none], .inr ⟨l, rfl, edge⟩⟩

/-- A construct that is passed ends with a brace or a semicolon, or the file does first. The brace
that sets `closed` is the last lexeme passed. -/
theorem closed_passConstruct {passed : List Lexeme} {depth : Int} {closed : Bool} {ahead : List Lexeme}
    (edge : closed = true → depth ≤ 0 ∧ ∃ l, passed.head? = some l ∧ l.isEdge) :
    (passConstruct passed depth closed ahead).2 = [] ∨
      ∃ l, (passConstruct passed depth closed ahead).1.head? = some l ∧ l.isEdge := by
  induction ahead generalizing passed depth closed with
  | nil => exact .inl rfl
  | cons l ahead ih =>
    unfold passConstruct
    split
    · rename_i stop
      simp only [Bool.and_eq_true] at stop
      exact .inr (edge stop.1.2).2
    · rename_i on
      have unclosed : l.kind ≠ .semicolon → closed = false := by
        intro other
        cases closed with
        | false => rfl
        | true => exact absurd (by simpa [other] using (edge rfl).1) on
      split
      · rename_i kind
        split
        · exact .inr ⟨l, rfl, by simp [Lexeme.isEdge, kind]⟩
        · rename_i deep
          exact ih fun known => absurd (edge known).1 deep
      · rename_i kind
        exact ih fun shallow => ⟨by simpa using shallow, l, rfl, by simp [Lexeme.isEdge, kind]⟩
      · rename_i kind
        exact ih fun known => absurd known (by simp [unclosed, kind])
      · rename_i other _ _
        exact ih fun known => absurd known (by simp [unclosed other])

/-- Wherever recovery stops, a construct has ended. -/
theorem closed_recover (mark : Nat) : (c.recover mark).Closed := by
  have last (kind : LexemeKind) (edge : kind = .semicolon ∨ kind = .rightBrace)
      (ended : endsWith kind (c.consumed.take (c.mark - mark)) = true) :
      ∃ l, c.consumed.head? = some l ∧ l.isEdge := by
    simp only [endsWith, Bool.and_eq_true, beq_iff_eq] at ended
    obtain ⟨l, head, same⟩ := Option.map_eq_some_iff.1 ended.2
    rw [List.head?_take] at head
    refine ⟨l, ?_, ?_⟩
    · split at head
      · cases head
      · exact head
    · rcases edge with rfl | rfl <;> simp [Lexeme.isEdge, same]
  rw [recover_eq rfl]
  split
  · exact .inr (last _ (.inl rfl) ‹_›)
  · exact closed_passConstruct fun ended => ⟨depth_of_endsWith ended, last _ (.inr rfl) ended⟩

end Cursor

namespace Parse

variable {α β : Type}

/-- Whatever is read, the last lexeme of it is a brace or a semicolon. -/
def Closes (x : Parse α) : Prop :=
  Runs (fun st => st.cursor.Clean) x (fun _ t => t.cursor.Clean ∧ t.cursor.Closed) fun _ _ => True

/-- The cursor stays where it is. -/
def Still (x : Parse α) : Prop := ∀ st, (finalState (x st)).cursor = st.cursor

theorem Still.pure (a : α) : Still (Pure.pure a) := fun _ => rfl

theorem Still.ofUpdate (u : Update α) : Still (ofUpdate u) := by
  intro st
  unfold Parse.ofUpdate
  cases u st.session <;> rfl

theorem Still.forward {x : Parse α} (h : Still x) : Forward x := by
  intro st
  rw [h st]
  exact .refl _

theorem Still.bind {x : Parse α} {f : α → Parse β} (first : Still x) (second : ∀ a, Still (f a)) :
    Still (x >>= f) := by
  intro st
  have here := first st
  cases ran : x st with
  | ok a t =>
    rw [ran] at here
    rw [bind_of_ok ran]
    exact (second a t).trans here
  | error failure t =>
    rw [ran] at here
    rw [bind_of_error ran]
    exact here

theorem Still.ite {c : Prop} [Decidable c] {x y : Parse α} (yes : Still x) (no : Still y) :
    Still (if c then x else y) := by
  split
  · exact yes
  · exact no

theorem Still.session {f : Session → Parse α} (h : ∀ s, Still (f s)) : Still (Parse.session >>= f) :=
  fun st => h st.session st

namespace Closes

variable {x : Parse α} {f : α → Parse β}

theorem after (first : Forward x) (second : ∀ a, Closes (f a)) : Closes (x >>= f) := by
  have kept : Runs (fun st : ParseState => st.cursor.Clean) x (fun _ t => t.cursor.Clean)
      fun _ _ => True := by
    intro st clean
    have later := first st
    cases ran : x st with
    | ok a t =>
      rw [ran] at later
      exact later.injected clean
    | error failure t => trivial
  exact kept.bind second

/-- What follows may read on to another end or nothing at all. -/
theorem next (first : Closes x) (second : ∀ a, Closes (f a) ∨ Still (f a)) : Closes (x >>= f) := by
  refine Runs.bind first fun a st closed => ?_
  rcases second a with closes | stays
  · exact closes st closed.1
  · have same := stays st
    cases ran : f a st with
    | ok b t =>
      rw [ran] at same
      change t.cursor.Clean ∧ t.cursor.Closed
      rw [show t.cursor = st.cursor from same]
      exact closed
    | error failure t => trivial

theorem still (first : Closes x) (second : ∀ a, Still (f a)) : Closes (x >>= f) :=
  first.next fun a => .inr (second a)

theorem throw (failure : Failure) : Closes (MonadExcept.throw failure : Parse α) := fun _ _ => trivial

theorem ite {c : Prop} [Decidable c] {y : Parse α} (yes : c → Closes x) (no : ¬ c → Closes y) :
    Closes (if c then x else y) := by
  split
  · exact yes ‹_›
  · exact no ‹_›

theorem skip {kind : LexemeKind} (edge : kind = .semicolon ∨ kind = .leftBrace ∨ kind = .rightBrace) :
    Closes (ofReading (Reading.skip kind)) := by
  intro st clean
  cases ran : ofReading (Reading.skip kind) st with
  | error failure t => trivial
  | ok u t =>
    obtain ⟨l, read⟩ := Reading.discard_eq_ok (ofReading_eq_ok ran).1
    obtain ⟨next, moved⟩ := Reading.one_eq_ok read
    have same : l.kind = kind := by
      simpa [Expectation.matched] using Reading.matched_of_one read
    change t.cursor.Clean ∧ t.cursor.Closed
    rw [moved]
    refine clean.advance next ?_
    rcases edge with rfl | rfl | rfl <;> simp [Lexeme.isEdge, same]

theorem closeBlock : Closes Parse.closeBlock := by
  have close : Closes (ofReading (Reading.skip LexemeKind.rightBrace) >>= fun _ =>
      Functor.discard (ofReading (Reading.accept LexemeKind.semicolon))) := by
    refine Runs.bind (skip (.inr (.inr rfl))) fun _ st closed => ?_
    rw [discard_eq]
    by_cases semicolon : st.cursor.isAt LexemeKind.semicolon
    · obtain ⟨l, next, fits⟩ := exists_of_isAt semicolon
      have kind : l.kind = .semicolon := by simpa [Expectation.matched] using fits
      have ran : ofReading (Reading.accept LexemeKind.semicolon) st =
          .ok true { st with cursor := st.cursor.advance } := by
        simp [ofReading, Reading.accept, semicolon]
      rw [bind_of_ok ran]
      exact closed.1.advance next (by simp [Lexeme.isEdge, kind])
    · have ran : ofReading (Reading.accept LexemeKind.semicolon) st = .ok false st := by
        simp [ofReading, Reading.accept, semicolon]
      rw [bind_of_ok ran]
      exact closed
  unfold Parse.closeBlock
  refine after (fun st => .refl _) fun s => ?_
  split
  · exact throw _
  · exact close

/-- A construct that decorators exclude is skipped. -/
theorem claimed {f : Option Decorators → Parse α} {a : α} (excluded : f none = Pure.pure a)
    (each : ∀ decorators, Closes (f (some decorators))) : Closes (claim >>= f) := by
  intro st clean
  by_cases permits : (⟨st.session.pending⟩ : Decorators).permits st.session.definitions.keys
  · rw [bind_of_ok (claim_of_permits permits)]
    exact each _ st.settled clean
  · rw [bind_of_ok (claim_of_excludes permits), excluded]
    refine ⟨?_, Cursor.closed_recover ..⟩
    change Cursor.Clean st.cursor.skipConstruct
    simp [Cursor.Clean, Cursor.skipConstruct, Cursor.injected_recover]

theorem session {f : Session → Parse α} (h : ∀ s, Closes (f s)) : Closes (Parse.session >>= f) :=
  after (fun _ => .refl _) h

theorem rejectIf {c : Prop} [Decidable c] {origin : Lexeme} {cause : SemanticCause}
    {f : Unit → Parse α} (h : ∀ u, Closes (f u)) :
    Closes (if c then ofUpdate (Update.reject origin cause) >>= f else f ()) :=
  ite (fun _ => after (Still.ofUpdate _).forward h) fun _ => h ()

/-! ### Constructs -/

theorem directive {importer : Importer} [importer.Natural] :
    Closes (Parse.directive importer) := by
  refine claimed rfl fun _ => ?_
  refine after (Local.forward (Local.one (by decide))) fun directive => ?_
  exact after (Local.forward (Local.directiveBody directive)) fun _ => skip (.inl rfl)

theorem typeBlock : Closes Parse.typeBlock := by
  refine claimed rfl fun decorators => ?_
  refine after (Local.forward (Local.skip (by decide))) fun _ => ?_
  refine after (Local.forward Local.identifier) fun name => ?_
  refine after (Local.forward (Local.skip (by decide))) fun _ => ?_
  refine after (Local.forward (Local.one (by decide))) fun code => ?_
  refine after (Local.forward (Local.skipEdge _)) fun _ => ?_
  refine session fun s => rejectIf fun _ => rejectIf fun _ => ?_
  refine after (Local.forward (Local.toBrace (Step.typeItem) _)) fun d => ?_
  refine still closeBlock fun _ => (Still.ofUpdate _).bind fun d => ?_
  exact .ofUpdate _

theorem resourceBlock (d : TypeDef) (container : Option String) :
    Closes (Parse.resourceBlock d container) := by
  refine claimed rfl fun _ => ?_
  refine after (Local.forward Local.identifier) fun keyword => ?_
  split
  · rename_i kind _
    have body : ∀ arguments : List (Value × Lexeme),
        Closes (blockTail d container kind keyword (arguments.map fun a => ⟨a.1, a.2⟩)) := by
      intro arguments
      refine after (Still.ofUpdate _).forward fun plan => ?_
      refine after (Still.ofUpdate _).forward fun scope => ?_
      refine after (Still.ofUpdate _).forward fun r => ?_
      refine after (Local.forward (Local.skipEdge _)) fun _ => ?_
      refine after (Local.forward (Local.toBrace (Step.blockItem d scope) r)) fun r => ?_
      exact still closeBlock fun _ => .ofUpdate _
    refine after (Local.forward (Local.isAt _)) fun given => ?_
    cases given with
    | true => exact after (Local.forward Local.arguments) body
    | false => exact after (Still.pure _).forward body
  · exact throw _

theorem moduleHead : Closes Parse.moduleHead := by
  refine claimed rfl fun decorators => ?_
  refine after (Local.forward (Local.skip (by decide))) fun _ => ?_
  refine after (Local.forward Local.identifier) fun name => ?_
  refine still (skip (.inr (.inl rfl))) fun _ => ?_
  exact (Still.ofUpdate _).bind fun previous => .pure _

theorem declarationHead : Closes Parse.declarationHead := by
  refine claimed rfl fun _ => ?_
  refine after (Local.forward (Local.skip (by decide))) fun _ => ?_
  refine after (Local.forward Local.declaredType) fun (container, name) => ?_
  refine still (skip (.inr (.inl rfl))) fun _ => .session fun s => ?_
  split
  · rename_i d _
    have named : Still (pure (some (d, container)) : Parse (Option (TypeDef × Option String))) :=
      .pure _
    have noted : Still (if d.decorators.has "deprecated" then
        ofUpdate (Update.note .warn s!"{name.location}: type {quoted name.text} is deprecated") >>=
          fun _ => pure (some (d, container))
        else pure (some (d, container)) : Parse (Option (TypeDef × Option String))) :=
      .ite ((Still.ofUpdate _).bind fun _ => named) named
    exact .ite ((Still.ofUpdate _).bind fun _ => noted) noted
  · exact .ofUpdate _

theorem moduleBlock {body : Parse Unit} (each : Local {} {} False False body) :
    Closes (Parse.moduleBlock body) := by
  rw [moduleBlock_eq_head]
  refine next moduleHead fun entered => ?_
  cases entered with
  | none => exact .inr (.pure ())
  | some previous =>
    exact .inl (after (Local.forward (Local.andFinally each fun _ _ => rfl)) fun _ => closeBlock)

theorem declaration : Closes Parse.declaration := by
  rw [declaration_eq_head fun _ => pure ()]
  refine next declarationHead fun entered => ?_
  cases entered with
  | none => exact .inr (.pure ())
  | some named =>
    refine .inl (after (Local.forward (Local.toBrace (fun _ => ?_) ())) fun _ => closeBlock)
    exact Step.declarationItem named.1 named.2

end Closes

/-! ### Items -/

theorem pending_decorator :
    Runs (fun _ => True) decorator (fun _ t => t.session.pending ≠ []) fun _ _ => True := by
  have any : ∀ {γ : Type} (x : Parse γ), Runs (fun _ => True) x (fun _ _ => True) fun _ _ => True := by
    intro γ x st _
    cases x st <;> trivial
  refine (any _).bind fun origin => (any _).bind fun opening => ?_
  have waits : ∀ arguments : List String, Runs (fun _ => True)
      (modifySession fun s => { s with
        pending := s.pending ++ [{ name := origin.text, arguments, origin }] })
      (fun _ t => t.session.pending ≠ []) fun _ _ => True := by
    intro arguments st _
    change st.session.pending ++ [_] ≠ []
    simp
  cases opening with
  | true => exact (any _).bind waits
  | false => exact (any _).bind waits

section Item

variable {st t : ParseState}

theorem Closes.closed {x : Parse Unit} (h : Closes x) (clean : st.cursor.Clean)
    (read : x st = .ok () t) : t.cursor.Closed := by
  have closed := h st clean
  rw [read] at closed
  exact closed.2

theorem waits_of_decorator (read : decorator st = .ok () t) : t.session.pending ≠ [] := by
  have waits := pending_decorator st trivial
  rwa [read] at waits

theorem closed_of_guarded {x : Parse Unit}
    (construct : ∀ t, x st = .ok () t → t.session.pending = [] → t.cursor.Closed)
    (read : guarded x st = .ok () t) (settled : t.session.pending = []) : t.cursor.Closed := by
  rcases guarded_cases x with same | ⟨failure, t', -, -, run⟩
  · exact construct t (same.symm.trans read) settled
  · rw [run] at read
    cases read
    exact Cursor.closed_recover ..

theorem closed_of_construct {importer : Importer} [importer.Natural] {body : Parse Unit}
    (each : Local {} {} False False body) (clean : st.cursor.Clean)
    (read : construct importer body st = .ok () t) (settled : t.session.pending = []) :
    t.cursor.Closed := by
  unfold construct at read
  change (if st.cursor.isAt _ then _ else _ : Parse Unit) st = _ at read
  split at read
  · exact (Closes.directive).closed clean read
  · split at read
    · exact absurd settled (waits_of_decorator read)
    · split at read
      · exact (Closes.moduleBlock each).closed clean read
      · split at read
        · exact Closes.typeBlock.closed clean read
        · split at read
          · exact Closes.declaration.closed clean read
          · cases read

/-- An item that has been read has ended, unless it is a decorator. -/
theorem closed_of_item {importer : Importer} [importer.Natural] {place : Place}
    (clean : st.cursor.Clean) (read : place.item importer st = .ok () t)
    (settled : t.session.pending = []) : t.cursor.Closed := by
  have fileStep : Parse.fileStep importer st = .ok () t → t.cursor.Closed := fun read =>
    closed_of_guarded (fun t read settled => closed_of_construct
      (Local.moduleBody st.cursor.unread) clean read settled) read settled
  cases place with
  | file => exact fileStep read
  | module => exact fileStep read
  | declaration d container =>
    change (if st.cursor.isAt _ then _ else _ : Parse Unit) st = _ at read
    split at read
    · exact absurd settled (waits_of_decorator read)
    · exact closed_of_guarded (fun t read _ => (Closes.resourceBlock d container).closed clean read)
        read settled

end Item

/-- Where no decorators wait, the lexemes behind a position end with a brace or a semicolon. -/
theorem Reaches.closed {importer : Importer} [importer.Natural] {st t : ParseState}
    {place : Place} (h : Reaches importer st place t) (clean : st.cursor.Clean)
    (settled : t.session.pending = []) : st = t ∨ t.cursor.Closed := by
  cases h with
  | start => exact .inl rfl
  | turn before turn =>
    exact .inr (closed_of_item ((before.later).injected clean) turn.read settled)
  | module before constructs word head =>
    have closed := Closes.moduleHead _ ((before.later).injected clean)
    rw [head] at closed
    exact .inr closed.2
  | declaration before constructs word head =>
    have closed := Closes.declarationHead _ ((before.later).injected clean)
    rw [head] at closed
    exact .inr closed.2

end Parse

end Rsrc
