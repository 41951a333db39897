import Rsrc.Proofs.Levels.Reading
import Rsrc.Proofs.Local.File
import Rsrc.Proofs.Reading

/-!
# What blocks keep

What is known of a state can be followed through all that is read inside a type block or a resource
block. `Along` lists what has to be known of statements about a state that is some braces deep, in front
of a construct or inside of it, for them to hold along the way. What is built meanwhile, a type or the
values of a resource, can be described as well: `Builds` and `Fills` say what has to be known of the
steps. An invariant of sessions that tame updates keep is one case (`Session.Stable.along`).
-/

namespace Rsrc

/-! ### What changes when something is registered, entered or left -/

namespace Session

variable {s t : Session}

theorem register?_eq_some {d : TypeDef} (h : s.register? d = some t) :
    s.typeNamed? d.name = none ∧ ∃ modules, t = { s with types := s.types ++ [d], modules } := by
  rw [register?] at h
  split at h
  · cases h
  · rename_i unknown
    exact ⟨by simpa using unknown, _, (Option.some.inj h).symm⟩

theorem enterModule?_eq_some {m : Module} (h : s.enterModule? m = some t) :
    t = { s with modules := s.modules ++ [m], currentModule := some s.modules.length } := by
  rw [enterModule?] at h
  split at h
  · cases h
  · exact (Option.some.inj h).symm

theorem beginImport_eq_ok {path : Path} (h : s.beginImport path = .ok t) :
    t = { s with importStack := path :: s.importStack } := by
  rw [beginImport] at h
  split at h
  · cases h
  · exact (Except.ok.inj h).symm

theorem endImport_eq (s : Session) :
    ∃ imported, s.endImport = { s with importStack := s.importStack.tail, imported } := by
  unfold endImport
  split
  · rename_i none
    exact ⟨s.imported, by rw [none, List.tail_nil, ← none]⟩
  · rename_i path rest some
    exact ⟨_, by rw [some, List.tail_cons]⟩

theorem store_eq (r : Resource) : ∃ resources, s.store r = { s with resources } := by
  unfold store
  split
  · exact ⟨_, rfl⟩
  · exact ⟨_, rfl⟩

end Session

/-- What is joined to the value has nothing joined to it. -/
def FieldValue.Simple (v : FieldValue) : Prop := ∀ part ∈ v.joined, part.joined = []

theorem Field.simple_synthesize (label : String) (origin : Lexeme) :
    ∀ v ∈ (synthesize label origin).values, v.Simple := by
  simp [synthesize, FieldValue.Simple]

/-- The state with one more decorator that waits. -/
def ParseState.waiting (st : ParseState) (l : Lexeme) (arguments : List String) : ParseState :=
  { st with session := { st.session with
      pending := st.session.pending ++ [{ name := l.text, arguments, origin := l }] } }

namespace Parse

variable {α β : Type} {n k m : Nat} {I J : Session → Prop} {B D : ParseState → Prop}
  {E : Failure → ParseState → Prop} {d : TypeDef} {P : BlockPlan → Prop} {R : Record → Prop}
  {Q : α → ParseState → Prop}

theorem runs_ofUpdate {u : Update α}
    (h : ∀ c, Runs (fun s => B ⟨s, c⟩) u (fun a s => Q a ⟨s, c⟩) fun failure s => E failure ⟨s, c⟩) :
    Runs B (ofUpdate u) Q E := by
  intro st held
  have ran := h st.cursor st.session held
  unfold ofUpdate
  cases run : u st.session with
  | ok a s =>
    rw [run] at ran
    exact ran
  | error failure s =>
    rw [run] at ran
    exact ran

theorem stays_cursor : Stays B E Parse.cursor := fun _ held => ⟨held, trivial⟩

/-- A look at the cursor comes first. -/
theorem looking {f : Cursor → Parse α} (h : ∀ c, Runs (fun st => B st ∧ st.cursor = c) (f c) Q E) :
    Runs B (Parse.cursor >>= f) Q E :=
  fun st held => h st.cursor st ⟨held, rfl⟩

theorem stays_isAt (e : Expectation) : Stays B E (Parse.isAt e) :=
  fun _ held => ⟨held, trivial⟩

theorem stays_session (inside : ∀ {st}, B st → I st.session) : Stays B E Parse.session I :=
  fun _ held => ⟨held, inside held⟩

/-- Nothing has to be known of the result. -/
theorem done (a : α) : Stays B E (Pure.pure a) := .pure trivial

/-! ### Between edges -/

/-- What holds of a state goes on to hold between edges: lexemes that are no edges may be passed,
literals injected and tame updates made. -/
structure Flat (n : Nat) (E : Failure → ParseState → Prop) (B : ParseState → Prop) : Prop where
  pass : ∀ {s c l}, c.peek = some l → ¬ l.isEdge → B ⟨s, c⟩ → B ⟨s, c.advance⟩
  push : ∀ {s c l}, ¬ l.isEdge → l.kind ≠ .decorator → B ⟨s, c⟩ → B ⟨s, c.push l⟩
  tame : ∀ {α : Type} {u : Update α}, u.Tame n → ∀ c,
    Stays (fun s => B ⟨s, c⟩) (fun failure s => E failure ⟨s, c⟩) u
  grammar : ∀ {s c} e c', B ⟨s, c⟩ → E (.grammar e) ⟨s, c'⟩

namespace Flat

variable {e : Expectation} (flat : Flat n E B)
include flat

variable {Q : α → ParseState → Prop}

theorem fail {Q : α → ParseState → Prop} (expected : String) : Runs B (Parse.fail expected) Q E :=
  fun _ held => flat.grammar _ _ held

theorem unexpected (l : Lexeme) (expected : String) : Runs B (Parse.unexpected l expected) Q E :=
  fun _ held => flat.grammar _ _ held

theorem update {u : Update α} (h : u.Tame n) : Stays B E (ofUpdate u) :=
  runs_ofUpdate (flat.tame h)

theorem reject (origin : Lexeme) (cause : SemanticCause) :
    Runs B (ofUpdate (Update.reject origin cause)) Q E :=
  fun st held => flat.update (Update.Tame.reject (α := α) origin cause) st held

theorem rejectIf {c : Prop} [Decidable c] {origin : Lexeme} {cause : SemanticCause}
    {f : Unit → Parse α} (h : Runs B (f ()) Q E) :
    Runs B (if c then ofUpdate (Update.reject origin cause) >>= f else f ()) Q E := by
  split
  · exact Runs.bind (Q := fun _ => B) (flat.reject _ _) fun _ => h
  · exact h

theorem define {origin : Lexeme} {result : Except DefinitionError α} {Q : α → Prop}
    (h : ∀ a, result = .ok a → Q a) : Stays B E (ofUpdate (Update.define origin result)) Q := by
  cases result with
  | ok a => exact fun _ held => ⟨held, h a rfl⟩
  | error e => exact flat.reject _ _

theorem reading {r : Reading α} (h : ∀ {C : Cursor → Prop} [Reading.Passes C], Reading.Steady C r) :
    Stays B E (ofReading r) := by
  intro st held
  have passes : Reading.Passes fun c => B ⟨st.session, c⟩ := ⟨fun next inner => flat.pass next inner⟩
  have ran := h (C := fun c => B ⟨st.session, c⟩) st.cursor held
  unfold ofReading
  cases run : r st.cursor with
  | ok a c =>
    rw [run] at ran
    exact ⟨ran, trivial⟩
  | error e c => exact flat.grammar _ _ held

theorem skip (inner : e.Inner) : Stays B E (ofReading (Reading.skip e)) :=
  flat.reading (.skip inner)

theorem accept (inner : e.Inner) : Stays B E (ofReading (Reading.accept e)) :=
  flat.reading (.accept inner)

theorem one (inner : e.Inner) : Stays B E (ofReading (Reading.one e)) :=
  flat.reading (.one inner)

theorem identifier : Stays B E (ofReading Reading.identifier) :=
  flat.reading .identifier

theorem ensure (word : String) {kind : LexemeKind} (inner : Expectation.Inner kind) :
    Stays B E (ofReading (Reading.ensure [.keyword word, kind])) := by
  refine flat.reading (.ensure fun e member => ?_)
  rcases List.mem_cons.1 member with rfl | member
  · exact Expectation.inner_iff.2 (by simp [Expectation.keyword])
  · obtain rfl := List.mem_singleton.1 member
    exact inner

/-- Any lexeme is read; that it is no edge has to be found out. -/
theorem any : Runs B (ofReading Reading.any)
    (fun l st => (¬ l.isEdge → B st) ∧ ∀ e, E (.grammar e) st) E := by
  intro st held
  unfold ofReading Reading.any
  cases next : st.cursor.peek with
  | none => exact flat.grammar _ _ held
  | some l => exact ⟨fun inner => flat.pass next inner held, fun e => flat.grammar e _ held⟩

/-- A lexeme is read that has been looked at before. -/
theorem anyAt (inner : e.Inner) :
    Runs (fun st => B st ∧ st.cursor.isAt e) (ofReading Reading.any) (fun _ => B) E := by
  rintro st ⟨held, here⟩
  unfold ofReading Reading.any
  cases next : st.cursor.peek with
  | none => exact flat.grammar _ _ held
  | some l =>
    have fits : e.matched l := by simpa [Cursor.isAt, next] using here
    exact flat.pass next (inner l fits) held

omit flat in
/-- The lexeme is found out to be of some kind. -/
theorem after {l : Lexeme} {x : Parse α} {kind : LexemeKind} (h : Runs B x Q E) (same : l.kind = kind)
    (inner : kind ≠ .semicolon ∧ kind ≠ .leftBrace ∧ kind ≠ .rightBrace := by decide) :
    Runs (fun st => (¬ l.isEdge → B st) ∧ ∀ e, E (.grammar e) st) x Q E :=
  h.pre fun _ held => held.1 (by simp [Lexeme.isEdge, same, inner])

/-! ### Loops -/

theorem toBrace {step : α → Parse α} {Q : α → Prop} (each : ∀ a, Q a → Stays B E (step a) Q) {a : α}
    (h : Q a) : Stays B E (Parse.toBrace step a) Q := by
  have within : ∀ limit a, Q a → Stays B E (stepsToBrace step limit a) Q := by
    intro limit
    induction limit with
    | zero => exact fun _ _ => flat.fail _
    | succ limit ih =>
      intro a known
      rw [stepsToBrace_succ]
      refine stays_cursor.andThen fun c => .ite (fun _ => .pure known) fun _ => ?_
      exact .ite (fun _ => flat.fail _) fun _ => (each a known).bind ih
  exact stays_cursor.andThen fun c => within _ a h

theorem items {item : Parse α} (each : Stays B E item) : Stays B E (Parse.items item) := by
  have within : ∀ limit, Stays B E (itemsWithin item limit) := by
    intro limit
    induction limit with
    | zero => exact flat.fail _
    | succ limit ih =>
      refine each.andThen fun first => (flat.accept (by decide)).andThen fun more => ?_
      exact .ite (fun _ => ih.andThen fun rest => done _) fun _ => done _
  exact stays_cursor.andThen fun c => within _

theorem bracketed {item : Parse α} {opening closing : LexemeKind}
    (first : Expectation.Inner opening) (last : Expectation.Inner closing) (each : Stays B E item) :
    Stays B E (Parse.bracketed opening closing item) := by
  refine (flat.skip first).andThen fun _ => (flat.accept last).andThen fun closed => ?_
  refine .ite (fun _ => done _) fun _ => (flat.items each).andThen fun all => ?_
  exact (flat.skip last).andThen fun _ => done _

/-! ### Expressions -/

theorem operand : Stays B E Parse.operand := by
  refine stays_cursor.andThen fun c => ?_
  split
  · exact (flat.reading .expr).andThen fun e => done _
  · exact flat.fail _

theorem evaluate (origin : Lexeme) (scope : ScopeId) (e : Expr) :
    Stays B E (ofUpdate (Update.evaluate origin (e.eval scope))) :=
  flat.update (.value origin scope e)

theorem arguments : Stays B E Parse.arguments := by
  refine (flat.bracketed (by decide) (by decide) flat.operand).andThen fun operands => ?_
  refine Stays.trivial (Q := fun all => ∀ a ∈ all, True) (.mapM fun (e, origin) _ => ?_)
  exact (flat.evaluate origin _ e).andThen fun value => done _

theorem inlineValue : Stays B E Parse.inlineValue := by
  refine stays_cursor.andThen fun c => .ite (fun _ => ?_) fun _ => done _
  refine flat.operand.andThen fun (e, origin) => (flat.evaluate origin _ e).andThen fun value => ?_
  refine fun st held => ⟨flat.push (inner_toLexeme value origin) ?_ held, trivial⟩
  cases value <;> simp [Value.toLexeme, Lexeme.placed]

theorem integer : Stays B E Parse.integer := by
  refine flat.inlineValue.andThen fun _ => (flat.one (by decide)).andThen fun l => ?_
  split
  · exact done _
  · exact flat.unexpected _ _

theorem decoratorArgument : Stays B E Parse.decoratorArgument := by
  refine (flat.accept (by decide)).andThen fun negated => flat.inlineValue.andThen fun _ => ?_
  refine flat.any.bind fun l => ?_
  split
  iterate 4 exact after (done _) ‹_›
  exact fun _ held => held.2 _

/-! ### Parts of types -/

theorem byteOrder (decorators : Decorators) : Stays B E (Parse.byteOrder decorators) := by
  unfold Parse.byteOrder
  split
  · exact done _
  · split
    · exact done _
    · exact done _
    · exact flat.unexpected _ _

theorem valueSymbol : Stays B E Parse.valueSymbol := by
  refine flat.identifier.andThen fun name => (flat.skip (by decide)).andThen fun _ => ?_
  exact (flat.reading .expr).andThen fun _ => done _

theorem valuePart : Stays B E Parse.valuePart fun v => v.joined = [] := by
  have descriptor : Stays B E Parse.descriptor? := by
    refine (flat.accept (by decide)).andThen fun written => .ite (fun _ => ?_) fun _ => done _
    exact flat.identifier.andThen fun name => (flat.accept (by decide)).andThen fun _ => done _
  have default : Stays B E Parse.default? := by
    refine (flat.accept (by decide)).andThen fun written => .ite (fun _ => ?_) fun _ => done _
    exact flat.operand.andThen fun _ => done _
  refine flat.identifier.andThen fun name => descriptor.andThen fun _ => default.andThen fun _ => ?_
  refine (stays_isAt _).andThen fun opened => .ite (fun _ => ?_) fun _ => ?_
  · exact (flat.bracketed (by decide) (by decide) flat.valueSymbol).andThen fun _ => .pure rfl
  · exact (done []).andThen fun _ => .pure rfl

theorem joinedWithin (limit : Nat) :
    Stays B E (Parse.joinedWithin limit) fun parts => ∀ part ∈ parts, part.joined = [] := by
  induction limit with
  | zero => exact .pure (by simp)
  | succ limit ih =>
    refine (flat.accept (by decide)).andThen fun joined => .ite (fun _ => ?_) fun _ => .pure (by simp)
    refine flat.valuePart.bind fun part single => ih.bind fun rest others => .pure ?_
    simpa using ⟨single, others⟩

theorem repetition : Stays B E Parse.repetition := by
  have ending (bounds : Int64 × Int64) : Stays B E (do
      let count ← Reading.identifier
      Reading.skip LexemeKind.rightAngle
      return ({ lower := bounds.1, upper := bounds.2, count := count.text } : Repetition)) :=
    flat.identifier.andThen fun count => (flat.skip (by decide)).andThen fun _ => done _
  have comma := flat.skip (e := LexemeKind.comma) (by decide)
  refine (flat.ensure _ (by decide)).andThen fun _ => stays_cursor.andThen fun c => ?_
  refine .ite (fun _ => (done _).andThen ending) fun _ => ?_
  refine flat.integer.andThen fun lower => comma.andThen fun _ => flat.integer.andThen fun upper => ?_
  exact comma.andThen fun _ => (done _).andThen ending

theorem declaredType : Stays B E Parse.declaredType := by
  refine flat.any.bind fun first => ?_
  split
  · refine after ?_ ‹_›
    exact (flat.skip (by decide)).andThen fun _ => flat.identifier.andThen fun _ => done _
  · refine after ?_ ‹_›
    refine (flat.accept (by decide)).andThen fun contained => .ite (fun _ => ?_) fun _ => done _
    exact flat.identifier.andThen fun _ => done _
  · exact fun _ held => held.2 _

end Flat

/-! ### Constructs -/

/-- What is to be known of statements about states that are `k` braces deep, in front of a construct
(`A k`) and inside of it (`C k`), for them to hold along the reading of a construct. -/
structure Along (n : Nat) (E : Failure → ParseState → Prop) (A C : Nat → ParseState → Prop) : Prop where
  flat : ∀ k, Flat n E (A k)
  clear : ∀ k, Flat n E (C k)
  weaken : ∀ {k st}, C k st → A k st
  edge : ∀ {k m : Nat} {s c l}, c.peek = some l → (m : Int) = k + Cursor.braceStep l →
    C k ⟨s, c⟩ → C m ⟨s, c.advance⟩
  begins : ∀ {k s c l}, c.peek = some l → l.kind = .decorator → A k ⟨s, c⟩ →
    ∃ W, Flat n E W ∧ W ⟨s, c.advance⟩ ∧ ∀ st arguments, W st → A k (st.waiting l arguments)
  settled : ∀ {k s c}, A k ⟨s, c⟩ → C k ⟨{ s with pending := [] }, c⟩
  skipped : ∀ {k s c}, (∃ d ∈ s.pending, d.name = "condition") → A k ⟨s, c⟩ →
    A k ⟨{ s with pending := [] }, c.skipConstruct⟩
  undecorated : ∀ {k st}, st.session.pending = [] → A k st → C k st
  dangling : ∀ {k st failure}, dangling? st.session = some failure → A k st → E failure st

theorem dangling?_eq_none_iff {s : Session} : dangling? s = none ↔ s.pending = [] := by
  simp [dangling?]

theorem exists_condition {d : Decorators} {names : List String} (h : ¬ d.permits names = true) :
    ∃ decorator ∈ d.all, decorator.name = "condition" := by
  simp only [Decorators.permits, List.all_eq_true, not_forall] at h
  obtain ⟨decorator, member, -⟩ := h
  obtain ⟨among, named⟩ := List.mem_filter.1 member
  exact ⟨decorator, among, by simpa using named⟩

namespace Along

variable {A C : Nat → ParseState → Prop} (along : Along n E A C)
include along

variable {Q : α → ParseState → Prop} {f : Option Decorators → Parse α}

theorem enter {x : Parse α} (h : Runs (A k) x Q E) : Runs (C k) x Q E :=
  h.pre fun _ => along.weaken

theorem leave {x : Parse α} {Q : α → Prop} (h : Stays (C k) E x Q) :
    Runs (C k) x (fun a st => A k st ∧ Q a) E :=
  Runs.post h fun _ _ kept => ⟨along.weaken kept.1, kept.2⟩

theorem one {e : Expectation} (step : ∀ l, e.matched l → (m : Int) = k + Cursor.braceStep l) :
    Runs (C k) (ofReading (Reading.one e)) (fun _ => C m) E := by
  intro st held
  unfold ofReading Reading.one Reading.matching
  cases next : st.cursor.peek with
  | none => exact (along.clear k).grammar _ _ held
  | some l =>
    by_cases fits : e.matched l
    · simp only [fits, if_true]
      exact along.edge next (step l fits) held
    · simp only [fits, Bool.false_eq_true, if_false]
      exact (along.clear k).grammar _ _ held

theorem skip {kind : LexemeKind}
    (step : ∀ l : Lexeme, l.kind = kind → (m : Int) = k + Cursor.braceStep l) :
    Runs (C k) (ofReading (Reading.skip kind)) (fun _ => C m) E := by
  unfold Reading.skip
  rw [discard_eq, ofReading_bind]
  exact (along.one fun l fits => step l (Expectation.kind_of_matched fits)).bind fun _ _ held => held

theorem semicolon : Stays (C k) E (ofReading (Reading.skip LexemeKind.semicolon)) :=
  (along.skip (m := k) fun l kind => by simp [Cursor.braceStep, kind]).post fun _ _ held => ⟨held, trivial⟩

theorem opening :
    Runs (C k) (ofReading (Reading.skip LexemeKind.leftBrace)) (fun _ => C (k + 1)) E :=
  along.skip fun l kind => by simp [Cursor.braceStep, kind]

theorem acceptSemicolon : Stays (C k) E (ofReading (Reading.accept LexemeKind.semicolon)) := by
  intro st held
  unfold ofReading Reading.accept
  cases next : st.cursor.peek with
  | none => simpa [Cursor.isAt, next] using held
  | some l =>
    by_cases fits : Expectation.matched LexemeKind.semicolon l
    · simp only [Cursor.isAt, next, Option.any_some, fits, if_true]
      have same : Cursor.braceStep l = 0 := by
        simp [Cursor.braceStep, Expectation.kind_of_matched fits]
      exact ⟨along.edge next (by simp [same]) held, trivial⟩
    · simpa [Cursor.isAt, next, fits] using held

theorem closeBlock : Runs (A (k + 1)) Parse.closeBlock (fun _ => C k) E := by
  intro st held
  have look : session st = .ok st.session st := rfl
  unfold Parse.closeBlock
  rw [bind_of_ok look]
  cases dangling : dangling? st.session with
  | none =>
    have closing : Runs (C (k + 1)) (ofReading (Reading.skip LexemeKind.rightBrace)) (fun _ => C k) E :=
      along.skip fun l kind => by simp [Cursor.braceStep, kind]
    have close : Runs (C (k + 1)) (do
        Reading.skip LexemeKind.rightBrace
        Functor.discard (Reading.accept LexemeKind.semicolon) : Parse Unit) (fun _ => C k) E := by
      refine closing.bind fun _ => ?_
      rw [discard_eq]
      exact along.acceptSemicolon.runs fun _ _ _ held => held
    exact close st (along.undecorated (dangling?_eq_none_iff.1 dangling) held)
  | some failure => exact along.dangling dangling held

theorem decorator : Stays (A k) E Parse.decorator := by
  -- behind the first lexeme, the decorator could be there with any arguments
  have first : Runs (A k) (ofReading (Reading.one LexemeKind.decorator)) (fun l st =>
      ∃ W, Flat n E W ∧ W st ∧ ∀ st arguments, W st → A k (st.waiting l arguments)) E := by
    intro st held
    unfold ofReading Reading.one Reading.matching
    cases next : st.cursor.peek with
    | none => exact (along.flat k).grammar _ _ held
    | some l =>
      by_cases fits : Expectation.matched LexemeKind.decorator l
      · simp only [fits, if_true]
        exact along.begins next (Expectation.kind_of_matched fits) held
      · simp only [fits, Bool.false_eq_true, if_false]
        exact (along.flat k).grammar _ _ held
  refine first.bind fun l st ⟨W, flat, held, waits⟩ => ?_
  have waiting (arguments : List String) : Runs W (modifySession fun s => { s with
      pending := s.pending ++ [{ name := l.text, arguments, origin := l }] })
        (fun _ st => A k st ∧ True) E := fun st held => ⟨waits st arguments held, trivial⟩
  have rest : Runs W (do
      let arguments ←
        if ← Parse.isAt LexemeKind.leftParen then
          Parse.bracketed .leftParen .rightParen Parse.decoratorArgument
        else pure []
      modifySession fun s =>
        { s with pending := s.pending ++ [{ name := l.text, arguments, origin := l }] })
      (fun _ st => A k st ∧ True) E := by
    refine (stays_isAt _).runs fun opened _ => ?_
    cases opened with
    | true =>
      refine (flat.bracketed (by decide) (by decide) flat.decoratorArgument).runs fun arguments _ => ?_
      exact waiting arguments
    | false => exact (done []).runs fun arguments _ => waiting arguments
  exact rest st held

/-- A construct that begins with a claim, of whose first lexeme something is known. If it is not
excluded, it has not been touched, and no decorator waits. -/
theorem claimedAt (G : Cursor → Prop) {a : α} (excluded : f none = Pure.pure a)
    (skipped : ∀ st, A k st → Q a st)
    (each : ∀ decorators, Runs (fun st => C k st ∧ G st.cursor) (f (some decorators)) Q E) :
    Runs (fun st => A k st ∧ G st.cursor) (Parse.claim >>= f) Q E := by
  rintro st ⟨held, seen⟩
  by_cases permits : (⟨st.session.pending⟩ : Decorators).permits st.session.definitions.keys
  · rw [bind_of_ok (claim_of_permits permits)]
    exact each _ _ ⟨along.settled held, seen⟩
  · rw [bind_of_ok (claim_of_excludes permits), excluded]
    exact skipped _ (along.skipped (exists_condition permits) held)

theorem claimed {a : α} (excluded : f none = Pure.pure a) (skipped : ∀ st, A k st → Q a st)
    (each : ∀ decorators, Runs (C k) (f (some decorators)) Q E) :
    Runs (A k) (Parse.claim >>= f) Q E :=
  (along.claimedAt (fun _ => True) excluded skipped fun decorators =>
    (each decorators).pre fun _ => And.left).pre fun _ held => ⟨held, trivial⟩

end Along

/-! ### Types -/

/-- What an entry of a template can hold: a type by its name, a rectangle, or none of these. -/
inductive Holds (I : Session → Prop) : Tag → Option TypeDef → Prop
  | nested {s : Session} {name : String} {d : TypeDef} (kept : I s) (found : s.typeNamed? name = some d) :
    Holds I (.nested name) (some d)
  | rect {s : Session} (kept : I s) : Holds I .rect (s.typeNamed? "Rect")
  | plain {code : String} {tag : Tag} (known : Tag.ofCode? code = some tag) (other : tag ≠ .rect) :
    Holds I tag none

/-- What is to be known of the steps by which a template (`T`) and a type (`D`) are built. -/
structure Builds (I : Session → Prop) (T : Template TypeDef → Prop) (D : TypeDef → Prop) : Prop where
  empty : ∀ order, T { order }
  entry : ∀ {t t' : Template TypeDef} {label : String} {tag : Tag} {nested : Option TypeDef},
    Holds I tag nested → T t → t.addEntry (.make TypeDef.minimumSize label tag nested) = .ok t' → T t'
  start : ∀ name code decorators origin, D { name, code, decorators, origin }
  template : ∀ {d d' : TypeDef} {t : Template TypeDef}, D d → T t → d.setTemplate t = .ok d' → D d'
  constructor : ∀ {d d' : TypeDef} {c : Constructor}, D d → d.addConstructor c = .ok d' → D d'
  field : ∀ {d d' : TypeDef} {f : Field}, D d → (∀ v ∈ f.values, v.Simple) →
    d.addField f = .ok d' → D d'

theorem builds_trivial : Builds I (fun _ => True) fun _ => True :=
  ⟨fun _ => trivial, fun _ _ _ => trivial, fun _ _ _ _ => trivial, fun _ _ _ => trivial,
    fun _ _ => trivial, fun _ _ _ => trivial⟩

theorem Flat.entryTag (flat : Flat n E B) (inside : ∀ {st}, B st → I st.session) :
    Stays B E Parse.entryTag fun (tag, nested) => Holds I tag nested := by
  refine flat.identifier.andThen fun code => .ite (fun _ => ?_) fun _ => ?_
  · refine (flat.skip (by decide)).andThen fun _ => flat.identifier.andThen fun name => ?_
    refine (flat.skip (by decide)).andThen fun _ => (stays_session inside).bind fun s kept => ?_
    split
    · rename_i found
      exact .pure (.nested kept found)
    · exact flat.reject _ _
  · split
    · exact flat.reject _ _
    · exact (stays_session inside).bind fun s kept => .pure (.rect kept)
    · rename_i other known
      exact .pure (.plain known other)

theorem Builds.implicitFields {T : Template TypeDef → Prop} {D : TypeDef → Prop}
    (builds : Builds I T D) {d' : TypeDef} {origin : Lexeme} (known : D d)
    (h : d.addImplicitFields origin = .ok d') : D d' := by
  have all : ∀ (labels : List String) {d d' : TypeDef}, D d →
      labels.foldlM (fun d label => d.addField (Field.synthesize label origin)) d = .ok d' → D d' := by
    intro labels
    induction labels with
    | nil =>
      intro d d' known h
      cases h
      exact known
    | cons label labels ih =>
      intro d d' known h
      rw [List.foldlM_cons] at h
      obtain ⟨next, added, rest⟩ := exists_of_bind_eq_ok h
      exact ih (builds.field known (Field.simple_synthesize _ _) added) rest
  exact all _ known h

namespace Along

variable {A C : Nat → ParseState → Prop} (along : Along n E A C)
include along

theorem fieldItem (values : List FieldValue) :
    Stays (A k) E (Parse.fieldItem values) fun values' =>
      (∀ v ∈ values, v.Simple) → ∀ v ∈ values', v.Simple := by
  refine (stays_isAt _).andThen fun decorated => .ite (fun _ => ?_) fun _ => ?_
  · exact along.decorator.andThen fun _ => .pure id
  refine along.claimed rfl (fun _ held => ⟨held, id⟩) fun decorators => along.leave ?_
  have flat := along.clear k
  refine flat.valuePart.trivial.andThen fun first => stays_cursor.andThen fun c => ?_
  refine (flat.joinedWithin _).bind fun joined parts => along.semicolon.andThen fun _ => ?_
  have one {v : FieldValue} (same : v.joined = joined) (simple : ∀ v ∈ values, v.Simple) :
      ∀ w ∈ values ++ [v], w.Simple := by
    intro w member
    rcases List.mem_append.1 member with old | new
    · exact simple w old
    · rw [List.mem_singleton.1 new, FieldValue.Simple, same]
      exact parts
  refine .ite (fun _ => ?_) fun _ => .pure (one rfl)
  exact (flat.update (scoped_constantValue _).toTame).andThen fun _ => .pure (one rfl)

theorem fieldBody (decorators : Decorators) (name : Lexeme) :
    Stays (C k) E (Parse.fieldBody decorators name) fun f => ∀ v ∈ f.values, v.Simple := by
  refine along.acceptSemicolon.andThen fun short => .ite (fun _ => ?_) fun _ => ?_
  · exact .ite (fun _ => .pure (Field.simple_synthesize _ _)) fun _ => (along.clear k).reject _ _
  · refine along.opening.bind fun _ => along.enter ?_
    have items := (along.flat (k + 1)).toBrace (Q := fun values => ∀ v ∈ values, v.Simple)
      (fun values simple => (along.fieldItem values).mono fun _ kept => kept simple) (a := []) (by simp)
    exact items.runs fun values simple => along.closeBlock.bind fun _ => Stays.pure (by exact simple)

section

variable {T : Template TypeDef → Prop} {D : TypeDef → Prop} (builds : Builds I T D)
  (inside : ∀ {k st}, C k st → I st.session)
include builds

theorem fieldBlock (known : D d) : Stays (A k) E (Parse.fieldBlock d) D := by
  refine along.claimed rfl (fun _ held => ⟨held, known⟩) fun decorators => along.leave ?_
  have flat := along.clear k
  refine (flat.ensure _ (by decide)).andThen fun _ => (flat.one (by decide)).andThen fun name => ?_
  refine (flat.skip (by decide)).andThen fun _ => ?_
  have ending (repetition : Option Repetition) : Stays (C k) E (do
      let field ← Parse.fieldBody decorators name
      let deprecated := (decorators.get? "deprecated").map fun d => d.arguments.head?.getD ""
      Update.define name (d.addField { field with repetition, deprecated })) D :=
    (along.fieldBody decorators name).bind fun field simple =>
      flat.define fun d' added => builds.field known (by exact simple) added
  refine (stays_isAt _).andThen fun repeatable => .ite (fun _ => ?_) fun _ => (done none).andThen ending
  refine Stays.andThen ?_ ending
  rw [map_eq_pure_bind]
  exact flat.repetition.andThen fun _ => done _

theorem constructorBlock (known : D d) :
    Runs (fun st => A k st ∧ st.cursor.isAt (.keyword "constructor")) (Parse.constructorBlock d)
      (fun d st => A k st ∧ D d) E := by
  have flat := along.clear k
  have deeper := along.clear (k + 1)
  have statement (body : List Statement) (_ : True) :
      Stays (C (k + 1)) E (constructorStatement body) :=
    (deeper.reading .statement).andThen fun _ => along.semicolon.andThen fun _ => done _
  refine along.claimedAt (fun c => c.isAt (.keyword "constructor")) rfl (fun _ held => ⟨held, known⟩)
    fun decorators => (flat.anyAt (by decide)).bind fun keyword => along.leave ?_
  refine (flat.bracketed (by decide) (by decide) flat.identifier).andThen fun parameters => ?_
  refine along.opening.bind fun _ => (deeper.toBrace statement trivial).runs fun body _ => ?_
  exact (along.enter along.closeBlock).bind fun _ =>
    flat.define fun d' added => builds.constructor known added

include inside

theorem templateEntry {t : Template TypeDef} (known : T t) :
    Stays (C k) E (Parse.templateEntry t) T := by
  have flat := along.clear k
  refine (flat.entryTag inside).bind fun (tag, nested) held => flat.identifier.andThen fun label => ?_
  exact along.semicolon.andThen fun _ => flat.define fun t' added => builds.entry held known added

theorem templateBlock (known : D d) :
    Runs (fun st => A k st ∧ st.cursor.isAt (.keyword "template")) (Parse.templateBlock d)
      (fun d st => A k st ∧ D d) E := by
  have flat := along.clear k
  refine along.claimedAt (fun c => c.isAt (.keyword "template")) rfl (fun _ held => ⟨held, known⟩)
    fun decorators => (flat.anyAt (by decide)).bind fun keyword => along.leave ?_
  refine (flat.byteOrder decorators).andThen fun order => along.opening.bind fun _ => ?_
  refine ((along.clear (k + 1)).toBrace (fun t => along.templateEntry builds inside)
    (builds.empty order)).runs fun t filled => ?_
  exact (along.enter along.closeBlock).bind fun _ =>
    flat.define fun d' set => builds.template known filled set

theorem typeItem (known : D d) : Stays (A k) E (Parse.typeItem d) D := by
  refine looking fun c => ?_
  split
  · exact Runs.pre (along.decorator.andThen fun _ => Stays.pure known) fun _ => And.left
  split
  · rename_i here
    exact (along.templateBlock builds inside known).pre fun _ held => ⟨held.1, held.2 ▸ here⟩
  split
  · rename_i here
    exact (along.constructorBlock builds known).pre fun _ held => ⟨held.1, held.2 ▸ here⟩
  split
  · exact Runs.pre (along.fieldBlock builds known) fun _ => And.left
  · exact ((along.flat k).fail _).pre fun _ => And.left

/-- What is read of a type is followed up to the moment when the type is added. -/
theorem typeBlock {K : ParseState → Prop} (weaker : ∀ st, A k st → K st)
    (register : ∀ name d, D d → Runs (C k) (ofUpdate (registerType name d)) (fun _ => K) E) :
    Runs (A k) Parse.typeBlock (fun _ => K) E := by
  refine along.claimed rfl weaker fun decorators => ?_
  have flat := along.clear k
  refine (flat.skip (by decide)).runs fun _ _ => flat.identifier.runs fun name _ => ?_
  refine (flat.skip (by decide)).runs fun _ _ => (flat.one (by decide)).runs fun code _ => ?_
  refine along.opening.bind fun _ => (stays_session inside).runs fun s _ => ?_
  refine (along.clear (k + 1)).rejectIf ((along.clear (k + 1)).rejectIf (along.enter ?_))
  refine ((along.flat (k + 1)).toBrace (fun d => along.typeItem builds inside)
    (builds.start name.text code.text decorators (some name))).runs fun d known => ?_
  refine along.closeBlock.bind fun _ => ?_
  exact (flat.define fun d' added => builds.implicitFields known added).runs (register name)

end

end Along

/-! ### Resources -/

/-- The head of a resource block: what kind it is, its keyword and its arguments. There is none if the
block is excluded. -/
def blockHead : Parse (Option (BlockKind × Lexeme × List Argument)) := do
  match ← claim with
  | none => return none
  | some _ =>
    let keyword ← Reading.identifier
    let some kind := BlockKind.ofKeyword? keyword.text
      | unexpected keyword "`new`, `override` or `duplicate`"
    let arguments ← if ← isAt LexemeKind.leftParen then arguments else pure []
    return some (kind, keyword, arguments.map fun (value, origin) => ⟨value, origin⟩)

theorem resourceBlock_eq_head (container : Option String) :
    resourceBlock d container = blockHead >>= fun head =>
      match head with
      | none => pure ()
      | some (kind, keyword, arguments) => blockTail d container kind keyword arguments := by
  unfold resourceBlock blockHead
  rw [bind_assoc]
  congr 1
  funext claimed
  cases claimed with
  | none => rfl
  | some decorators =>
    simp only [bind_assoc]
    congr 1
    funext keyword
    cases BlockKind.ofKeyword? keyword.text with
    | none => rfl
    | some kind =>
      simp only [bind_assoc]
      congr 1
      funext opened
      cases opened with
      | false => rfl
      | true =>
        rw [if_pos rfl, if_pos rfl, bind_assoc]
        rfl

/-- What is to be known of the steps by which the values of a resource are made (`R`) in a scope, if it
was planned as in `P`. -/
structure Fills (I : Session → Prop) (E : Failure → Session → Prop) (J : Session → Prop) (d : TypeDef)
    (scope : ScopeId) (P : BlockPlan → Prop) (R : Record → Prop) : Prop where
  initial : ∀ {plan : BlockPlan}, P plan → ∀ keyword, Stays I E (plan.initial d scope keyword) R
  assign : ∀ origin operands path {r : Record}, R r →
    Stays I E (d.assign scope origin operands r "" path) R
  finish : ∀ {plan : BlockPlan}, P plan → ∀ keyword {r : Record}, R r →
    Runs I (plan.finish d scope keyword r) (fun _ => J) E

/-- Tame updates fill a resource of whose values nothing has to be known. -/
theorem Fills.of_tame {E : Failure → Session → Prop} {scope : ScopeId}
    (tame : ∀ {u : Update Record}, u.Tame n → Stays I E u) (above : n ≤ scope.index)
    (store : ∀ {plan : BlockPlan} {s : Session} {r : Resource}, P plan → r.reference = plan.reference →
      I s → J (Session.store { s with scopes := s.scopes.release scope } r)) :
    Fills I E J d scope P fun _ => True where
  initial {plan} _ keyword := tame (plan.tame_initial d above keyword)
  assign _ _ _ _ _ := tame (d.scoped_assign ..).toTame
  finish planned _ r _ := (tame (d.scoped_pad scope r).toTame).runs fun _ _ _ kept =>
    store planned rfl kept

namespace Along

variable {A C : Nat → ParseState → Prop} (along : Along n E A C)
include along

theorem blockHead : Runs (A k) Parse.blockHead (fun head st => A k st ∧ (head.isSome → C k st)) E := by
  refine along.claimed rfl (fun _ held => ⟨held, nofun⟩) fun decorators => ?_
  have flat := along.clear k
  refine flat.identifier.runs fun keyword _ => ?_
  split
  · refine (stays_isAt _).runs fun opened _ => ?_
    cases opened with
    | true => exact flat.arguments.runs fun _ _ _ held => ⟨along.weaken held, fun _ => held⟩
    | false => exact (done []).runs fun _ _ _ held => ⟨along.weaken held, fun _ => held⟩
  · exact flat.unexpected _ _

section

variable {scope : ScopeId} {D : Nat → ParseState → Prop}
  (fills : ∀ k c, Fills (fun s => C k ⟨s, c⟩) (fun failure s => E failure ⟨s, c⟩) (fun s => D k ⟨s, c⟩)
    d scope P R)
include fills

theorem blockItem {r : Record} (known : R r) : Stays (A k) E (Parse.blockItem d scope r) R := by
  refine (stays_isAt _).andThen fun decorated => .ite (fun _ => ?_) fun _ => ?_
  · exact along.decorator.andThen fun _ => .pure known
  refine along.claimed rfl (fun _ held => ⟨held, known⟩) fun decorators => along.leave ?_
  have flat := along.clear k
  refine stays_cursor.andThen fun c => ?_
  split
  · refine (flat.reading .path).andThen fun path => (flat.skip (by decide)).andThen fun _ => ?_
    refine (flat.items flat.operand).andThen fun operands => along.semicolon.andThen fun _ => ?_
    exact runs_ofUpdate fun c => (fills k c).assign _ _ _ known
  · exact flat.fail _

/-- The body of a resource block is followed up to the moment when the resource is stored. -/
theorem blockBody {plan : BlockPlan} (planned : P plan) (keyword : Lexeme) :
    Runs (C k) (Parse.blockBody d keyword plan scope) (fun _ => D k) E := by
  have initial : Stays (C k) E (ofUpdate (plan.initial d scope keyword)) R :=
    runs_ofUpdate fun c => (fills k c).initial planned keyword
  refine initial.runs fun r known => along.opening.bind fun _ => along.enter ?_
  refine ((along.flat (k + 1)).toBrace (fun r => along.blockItem fills) known).runs fun r known => ?_
  exact along.closeBlock.bind fun _ => runs_ofUpdate fun c => (fills k c).finish planned keyword known

end

/-- What is read of a resource block is followed up to the moment when the resource is stored. -/
theorem resourceBlock {container : Option String} {K : ScopeId → Prop} {D : Nat → ParseState → Prop}
    (plan : ∀ (kind : BlockKind) keyword arguments,
      Stays (C k) E (ofUpdate (kind.plan d container keyword arguments)) P)
    (openScope : ∀ plan : BlockPlan, Stays (C k) E (ofUpdate plan.openScope) K)
    (fills : ∀ scope, K scope → ∀ k c, Fills (fun s => C k ⟨s, c⟩) (fun failure s => E failure ⟨s, c⟩)
      (fun s => D k ⟨s, c⟩) d scope P R) (weaker : ∀ st, A k st → D k st) :
    Runs (A k) (Parse.resourceBlock d container) (fun _ => D k) E := by
  rw [resourceBlock_eq_head]
  refine along.blockHead.bind fun head => ?_
  cases head with
  | none => exact fun st held => weaker st held.1
  | some head =>
    refine Runs.pre (P := C k) ?_ fun _ held => held.2 rfl
    refine (plan _ _ _).runs fun plan planned => (openScope plan).runs fun scope opened => ?_
    exact along.blockBody (fills scope opened) planned _

/-- A resource block of which nothing has to be known but that tame updates lead to it. -/
theorem tameBlock {container : Option String} {D : Nat → ParseState → Prop}
    (openScope : ∀ plan : BlockPlan,
      Stays (C k) E (ofUpdate plan.openScope) fun scope => n ≤ scope.index)
    (store : ∀ {k s c} (scope : ScopeId) resources, C k ⟨s, c⟩ →
      D k ⟨{ s with scopes := s.scopes.release scope, resources }, c⟩)
    (weaker : ∀ st, A k st → D k st) :
    Runs (A k) (Parse.resourceBlock d container) (fun _ => D k) E := by
  refine along.resourceBlock (P := fun _ => True) (R := fun _ => True)
    (fun kind _ _ => (along.clear k).update (kind.tame_plan ..)) openScope
    (fun scope above k c => ?_) weaker
  refine .of_tame (fun tame => (along.clear k).tame tame c) above fun {_ s r} _ _ held => ?_
  obtain ⟨resources, stored⟩ := Session.store_eq r
  rw [stored]
  exact store scope resources held

end Along

/-! ### Invariants of sessions -/

/-- The computation keeps `I` of the session, and its result is in `Q` if it has one. -/
def Upholds (I : Session → Prop) (x : Parse α) (Q : α → Prop := fun _ => True) : Prop :=
  Keeps (fun st : ParseState => I st.session) x Q

/-- Where the session is in `I`, the computation succeeds in `J` or fails in `I`. -/
def Attempts (I J : Session → Prop) (x : Parse α) : Prop :=
  Runs (fun st : ParseState => I st.session) x (fun _ st => J st.session) fun _ st => I st.session

theorem Attempts.upholds {x : Parse α} (h : Attempts I I x) : Upholds I x :=
  Runs.post h fun _ _ kept => ⟨kept, trivial⟩

namespace Upholds

theorem reading (r : Reading α) : Upholds I (ofReading r) := by
  intro st kept
  unfold ofReading
  cases r st.cursor with
  | ok a cursor => exact ⟨kept, trivial⟩
  | error e cursor => exact kept

theorem update {u : Update α} {Q : α → Prop} (h : Keeps I u Q) : Upholds I (ofUpdate u) Q :=
  runs_ofUpdate fun _ => h

end Upholds

end Parse

/-- Tame updates in a session of `n` frames and more keep `I`, and so do decorators. -/
structure Session.Stable (n : Nat) (I : Session → Prop) : Prop where
  tame : ∀ {α : Type} {u : Update α}, u.Tame n → Keeps I u
  pending : ∀ {s : Session}, I s → ∀ pending, I { s with pending }

namespace Session.Stable

open Parse

variable {n : Nat} {I J : Session → Prop} {d : TypeDef} (stable : Session.Stable n I)
include stable

theorem flat {E : Failure → Session → Prop} (fails : ∀ {failure s}, I s → E failure s) :
    Flat n (fun failure st => E failure st.session) fun st => I st.session :=
  ⟨fun _ _ => id, fun _ _ => id, fun tame _ =>
    Runs.mono (stable.tame tame) (fun _ => id) (fun _ _ => id) fun _ _ => fails, fun _ _ => fails⟩

theorem along {E : Failure → Session → Prop} (fails : ∀ {failure s}, I s → E failure s) :
    Along n (fun failure st => E failure st.session) (fun _ st => I st.session)
      fun _ st => I st.session where
  flat _ := stable.flat fails
  clear _ := stable.flat fails
  weaken := id
  edge _ _ := id
  begins _ _ kept := ⟨_, stable.flat fails, kept, fun _ _ kept => stable.pending kept _⟩
  settled kept := stable.pending kept _
  skipped _ kept := stable.pending kept _
  undecorated _ := id
  dangling _ := fails

theorem decorator : Upholds I Parse.decorator := (stable.along id).decorator (k := 0)

theorem closeBlock : Upholds I Parse.closeBlock :=
  ((stable.along id).closeBlock (k := 0)).post fun _ _ kept => ⟨kept, trivial⟩

theorem blockHead : Upholds I Parse.blockHead :=
  ((stable.along id).blockHead (k := 0)).post fun _ _ kept => ⟨kept.1, trivial⟩

/-- What is read of a type keeps `I` up to the moment when the type is added. -/
theorem typeBlock {T : Template TypeDef → Prop} {D : TypeDef → Prop} (builds : Builds I T D)
    (weaker : ∀ s, I s → J s)
    (register : ∀ name d, D d → Runs I (registerType name d) (fun _ => J) fun _ => I) :
    Attempts I J Parse.typeBlock :=
  (stable.along id).typeBlock (k := 0) builds id (fun _ => weaker _) fun name d known =>
    runs_ofUpdate fun _ => register name d known

section

variable {P : BlockPlan → Prop} {R : Record → Prop}

/-- The body of a resource block keeps `I` up to the moment when the resource is stored. -/
theorem blockBody {scope : ScopeId} (fills : Fills I (fun _ => I) J d scope P R) {plan : BlockPlan}
    (planned : P plan) (keyword : Lexeme) : Attempts I J (blockBody d keyword plan scope) :=
  (stable.along id).blockBody (k := 0) (D := fun _ st => J st.session) (fun _ _ => fills) planned keyword

/-- What is read of a resource block keeps `I` up to the moment when the resource is stored. -/
theorem resourceBlock {container : Option String} {K : ScopeId → Prop}
    (plan : ∀ (kind : BlockKind) keyword arguments, Keeps I (kind.plan d container keyword arguments) P)
    (openScope : ∀ plan : BlockPlan, Keeps I plan.openScope K)
    (fills : ∀ scope, K scope → Fills I (fun _ => I) J d scope P R) (weaker : ∀ s, I s → J s) :
    Attempts I J (resourceBlock d container) :=
  (stable.along id).resourceBlock (k := 0) (D := fun _ st => J st.session)
    (fun kind _ _ => runs_ofUpdate fun _ => plan kind _ _)
    (fun plan => runs_ofUpdate fun _ => openScope plan)
    (fun scope opened _ _ => fills scope opened) fun _ => weaker _

end

end Session.Stable

end Rsrc
