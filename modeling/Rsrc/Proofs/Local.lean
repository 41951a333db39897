import Rsrc.Construct.File
import Rsrc.Proofs.Keeps

/-!
# Reading a part of a file

A part of a file is read in a setting: lexemes of the file stand behind it and in front of it, and
failures and messages have been recorded before. `Local` says of a computation that it can not tell
two settings apart. In both it does the same to the part, which ends with a brace or a semicolon; or
else, in the first setting, it goes on into the lexemes in front of the part or fails for good.
-/

namespace Rsrc

variable {k : Setting} {st : ParseState}

/-- What stands around a part of a file. -/
structure Setting where
  /-- The lexemes behind the part, the last one first. -/
  back : List Lexeme := []
  /-- The lexemes in front of the part. -/
  next : List Lexeme := []
  /-- What has been recorded before the part is read. -/
  failures : List Failure := []
  log : List LogEntry := []

/-! ### States in a setting -/

def Cursor.within (k : Setting) (c : Cursor) : Cursor :=
  { c with consumed := c.consumed ++ k.back, ahead := c.ahead ++ k.next }

def Session.within (k : Setting) (s : Session) : Session :=
  { s with failures := k.failures ++ s.failures, log := k.log ++ s.log }

def ParseState.within (k : Setting) (st : ParseState) : ParseState :=
  { session := st.session.within k, cursor := st.cursor.within k }

@[simp] theorem ParseState.within_session : (st.within k).session = st.session.within k := rfl

@[simp] theorem ParseState.within_cursor : (st.within k).cursor = st.cursor.within k := rfl

@[simp] theorem Cursor.within_injected (c : Cursor) : (c.within k).injected = c.injected := rfl

@[simp] theorem Cursor.within_ahead (k : Setting) (c : Cursor) :
    (c.within k).ahead = c.ahead ++ k.next := rfl

@[simp] theorem Cursor.within_consumed (c : Cursor) :
    (c.within k).consumed = c.consumed ++ k.back := rfl

/-- A result whose state is put into a setting. -/
def Setting.place {ε σ α : Type} (into : Setting → σ → σ) (k : Setting) :
    EStateM.Result ε σ α → EStateM.Result ε σ α
  | .ok a s => .ok a (into k s)
  | .error e s => .error e (into k s)

/-! ### Moving forward -/

/-- Braces and semicolons, with which constructs and their heads end. -/
def Lexeme.isEdge (l : Lexeme) : Bool :=
  l.kind == .semicolon || l.kind == .leftBrace || l.kind == .rightBrace

/-- The second cursor is where the first one can get by reading on. -/
structure Cursor.Later (c c' : Cursor) : Prop where
  source : c'.source = c.source
  passed : ∃ passed, c.ahead = passed ++ c'.ahead ∧ c'.consumed = passed.reverse ++ c.consumed
  unread : c'.unread ≤ c.unread
  injected : (∀ l ∈ c.injected, ¬ l.isEdge) → ∀ l ∈ c'.injected, ¬ l.isEdge

namespace Cursor.Later

variable {c c' c'' : Cursor}

theorem refl (c : Cursor) : c.Later c := ⟨rfl, ⟨[], rfl, rfl⟩, Nat.le_refl _, fun h => h⟩

theorem trans (h : c.Later c') (h' : c'.Later c'') : c.Later c'' := by
  obtain ⟨passed, ahead, consumed⟩ := h.passed
  obtain ⟨passed', ahead', consumed'⟩ := h'.passed
  refine ⟨h'.source.trans h.source, ⟨passed ++ passed', ?_, ?_⟩, Nat.le_trans h'.unread h.unread,
    fun clean => h'.injected (h.injected clean)⟩
  · rw [ahead, ahead', List.append_assoc]
  · rw [consumed', consumed, List.reverse_append, List.append_assoc]

theorem length_ahead_le (h : c.Later c') : c'.ahead.length ≤ c.ahead.length := by
  obtain ⟨passed, ahead, -⟩ := h.passed
  rw [ahead, List.length_append]
  omega

theorem advance (c : Cursor) : c.Later c.advance := by
  obtain ⟨source, consumed, injected, ahead⟩ := c
  cases injected with
  | cons l injected =>
    refine ⟨rfl, ⟨[], rfl, rfl⟩, ?_, fun clean l' member => ?_⟩
    · simp only [Cursor.advance, Cursor.unread, List.length_cons]
      omega
    · exact clean l' (List.mem_cons_of_mem _ member)
  | nil =>
    cases ahead with
    | nil => exact refl _
    | cons l ahead =>
      refine ⟨rfl, ⟨[l], rfl, rfl⟩, ?_, fun clean => clean⟩
      simp [Cursor.advance, Cursor.unread]

end Cursor.Later

/-- Computations that only read on. -/
def Parse.Forward {α : Type} (x : Parse α) : Prop :=
  ∀ st : ParseState, st.cursor.Later (finalState (x st)).cursor

theorem Parse.later_bind {α β : Type} {x : Parse α} {f : α → Parse β}
    (first : st.cursor.Later (finalState (x st)).cursor) (second : ∀ a, (f a).Forward) :
    st.cursor.Later (finalState ((x >>= f) st)).cursor := by
  cases ran : x st with
  | ok a t =>
    rw [ran] at first
    rw [bind_of_ok ran]
    exact first.trans (second a t)
  | error failure t =>
    rw [ran] at first
    rw [bind_of_error ran]
    exact first

/-- Computations that do not go back in the file. -/
def Parse.Onward {α : Type} (x : Parse α) : Prop :=
  ∀ st : ParseState, (finalState (x st)).cursor.ahead.length ≤ st.cursor.ahead.length

theorem Parse.Forward.onward {α : Type} {x : Parse α} (h : x.Forward) : x.Onward := fun st =>
  (h st).length_ahead_le

/-! ### Two settings -/

/-- The part ends before the file does, in one of the settings. -/
def Cut (k k' : Setting) : Prop := k.next ≠ [] ∨ k'.next ≠ []

/-- What stands in front of the part does not go on with its last construct. In the first setting it
does not close a block either. -/
class Meets (k k' : Setting) : Prop where
  first : ∀ l, k.next.head? = some l → l.kind ≠ .semicolon ∧ l.kind ≠ .rightBrace
  second : ∀ l, k'.next.head? = some l → l.kind ≠ .semicolon

theorem Meets.none {k k' : Setting} (first : k.next = []) (second : k'.next = []) : Meets k k' := by
  constructor
  · simp [first]
  · simp [second]

instance Meets.alone : Meets {} {} := .none rfl rfl

/-- Something of the part is left to be read. -/
def Cursor.Open (k k' : Setting) (c : Cursor) : Prop := Cut k k' → c.ahead ≠ []

/-- The part ends with a brace or a semicolon; or it is the end of the file, and then there is a last
lexeme to which the end is blamed in both settings. -/
structure Cursor.Ready (k k' : Setting) (c : Cursor) : Prop where
  edge : Cut k k' → ∀ l, c.ahead.getLast? = some l → l.isEdge
  injected : Cut k k' → c.ahead = [] → c.injected = []
  ending : ¬ Cut k k' → c.consumed ++ c.ahead ≠ [] ∨ k.back.head? = k'.back.head?

namespace Parse

variable {α β : Type} {r : EStateM.Result Failure ParseState α}

/-- The run has failed for good or has gone on into what stands in front of the part. A `weak` run is
also lost if it succeeds at the end of the file, where the file ends with the part. -/
def Lost (weak : Prop) (k : Setting) : EStateM.Result Failure ParseState α → Prop
  | .ok _ st => st.cursor.ahead.length < k.next.length ∨ weak ∧ k.next = [] ∧ st.cursor.finished
  | .error failure st => !failure.isRecoverable ∨ st.cursor.ahead.length < k.next.length

theorem Lost.of_gone {weak : Prop} {k : Setting}
    (h : (finalState r).cursor.ahead.length < k.next.length) :
    Lost weak k r := by
  cases r with
  | ok a st => exact .inl h
  | error failure st => exact .inr h

theorem Lost.mono {weak weak' : Prop} {k : Setting} (h : Lost weak k r) (weaker : weak → weak') :
    Lost weak' k r := by
  cases r with
  | ok a st => exact h.imp_right fun ⟨w, ended⟩ => ⟨weaker w, ended⟩
  | error failure st => exact h

/-- From a state in the part, the computation does the same in both settings, and where `q` holds of
its result, something of the part is left. -/
def Sync (k k' : Setting) (weak : Prop) (x : Parse α) (q : α → Prop) (st : ParseState) : Prop :=
  (Cut k k' ∧ Lost weak k (x (st.within k))) ∨
    ∃ r, x (st.within k) = k.place ParseState.within r ∧
      x (st.within k') = k'.place ParseState.within r ∧ (finalState r).cursor.Ready k k' ∧
      ∀ a t, r = .ok a t → q a → t.cursor.Open k k'

/-- From the state, the computation reads on, and if the state is in the part, it can not tell the
settings apart; where `p` holds, it can count on something of the part being left. -/
structure LocalAt (k k' : Setting) (weak p : Prop) (x : Parse α) (q : α → Prop) (st : ParseState) :
    Prop where
  later : st.cursor.Later (finalState (x st)).cursor
  sync : st.cursor.Ready k k' → (p → st.cursor.Open k k') → Sync k k' weak x q st

/-- The computation can not tell the settings apart. -/
def Local (k k' : Setting) (weak p : Prop) (x : Parse α) (q : α → Prop := fun _ => True) : Prop :=
  ∀ st, LocalAt k k' weak p x q st

theorem Local.forward {p : Prop} {x : Parse α} {q : α → Prop} (h : Local {} {} False p x q) :
    Forward x := fun st => (h st).later

variable {k k' : Setting} {weak p : Prop} {st : ParseState}

namespace Sync

variable {x : Parse α} {f : α → Parse β} {q : α → Prop} {r : β → Prop}

/-- A computation that gives up at the end of the file may follow one that succeeds there. -/
theorem bindWeak {early : Prop} (first : Sync k k' early x q st) (onward : ∀ a, Onward (f a))
    (ended : early → ∀ a (t : ParseState), t.cursor.finished → Lost weak k (f a t))
    (second : ∀ a t, t.cursor.Ready k k' → (q a → t.cursor.Open k k') →
      Sync k k' weak (f a) r t) :
    Sync k k' weak (x >>= f) r st := by
  rcases first with ⟨cut, lost⟩ | ⟨result, run, run', ready, opened⟩
  · refine .inl ⟨cut, ?_⟩
    cases ran : x (st.within k) with
    | ok a t =>
      rw [ran] at lost
      rw [bind_of_ok ran]
      rcases lost with gone | ⟨early, -, finished⟩
      · exact .of_gone (Nat.lt_of_le_of_lt (onward a t) gone)
      · exact ended early a t finished
    | error failure t =>
      rw [ran] at lost
      rw [bind_of_error ran]
      exact lost
  · cases result with
    | ok a t =>
      rw [Sync, bind_of_ok run, bind_of_ok run']
      exact second a t ready (opened a t rfl)
    | error failure t =>
      exact .inr ⟨.error failure t, bind_of_error run, bind_of_error run', ready,
        fun a t h => nomatch h⟩

theorem bind (first : Sync k k' False x q st) (onward : ∀ a, Onward (f a))
    (second : ∀ a t, t.cursor.Ready k k' → (q a → t.cursor.Open k k') →
      Sync k k' weak (f a) r t) :
    Sync k k' weak (x >>= f) r st := first.bindWeak onward False.elim second

theorem mono {weak' : Prop} {q' : α → Prop} (h : Sync k k' weak x q st)
    (weaker : weak → weak') (less : ∀ a, q' a → q a) : Sync k k' weak' x q' st := by
  rcases h with ⟨cut, lost⟩ | ⟨result, run, run', ready, opened⟩
  · exact .inl ⟨cut, lost.mono weaker⟩
  · exact .inr ⟨result, run, run', ready, fun a t same left => opened a t same (less a left)⟩

end Sync

namespace LocalAt

variable {x : Parse α} {f : α → Parse β} {q : α → Prop} {r : β → Prop}

theorem bind (first : LocalAt k k' False p x q st) (second : ∀ a, Local k k' weak (q a) (f a) r) :
    LocalAt k k' weak p (x >>= f) r st where
  later := later_bind first.later fun a t => (second a t).later
  sync ready opened :=
    (first.sync ready opened).bind (fun a t => (second a t).later.length_ahead_le) fun a t =>
      (second a t).sync

theorem mono {weak' p' : Prop} {q' : α → Prop} (h : LocalAt k k' weak p x q st)
    (weaker : weak → weak') (more : p → p') (less : ∀ a, q' a → q a) :
    LocalAt k k' weak' p' x q' st where
  later := h.later
  sync ready opened := (h.sync ready fun known => opened (more known)).mono weaker less

theorem pure {a : α} (h : q a → p) : LocalAt k k' weak p (Pure.pure a) q st where
  later := .refl _
  sync ready opened := .inr ⟨.ok a st, rfl, rfl, ready, by
    rintro _ _ ⟨⟩ left
    exact opened (h left)⟩

theorem throw (failure : Failure) : LocalAt k k' weak p (MonadExcept.throw failure) q st where
  later := .refl _
  sync ready _ := .inr ⟨.error failure st, rfl, rfl, ready, fun _ _ h => nomatch h⟩

theorem ite {c : Prop} [Decidable c] {y : Parse α} (yes : c → LocalAt k k' weak p x q st)
    (no : ¬ c → LocalAt k k' weak p y q st) : LocalAt k k' weak p (if c then x else y) q st := by
  split
  · exact yes ‹_›
  · exact no ‹_›

/-- What the computation does may be said in another way at this state. -/
theorem congr {y : Parse α} (h : LocalAt k k' weak p y q st) (alone : x st = y st)
    (first : x (st.within k) = y (st.within k)) (second : x (st.within k') = y (st.within k')) :
    LocalAt k k' weak p x q st where
  later := alone ▸ h.later
  sync ready opened := by
    rw [Sync, first, second]
    exact h.sync ready opened

/-- A look at the cursor, where what is done next is the same in both settings. -/
theorem cursor {f : Cursor → Parse α} (h : LocalAt k k' weak p (f st.cursor) q st)
    (same : st.cursor.Ready k k' → (p → st.cursor.Open k k') →
      f (st.cursor.within k) = f st.cursor ∧ f (st.cursor.within k') = f st.cursor) :
    LocalAt k k' weak p (Parse.cursor >>= f) q st where
  later := h.later
  sync ready opened := by
    obtain ⟨here, there⟩ := same ready opened
    have run : (Parse.cursor >>= f) (st.within k) = f st.cursor (st.within k) :=
      congrFun here (st.within k)
    have run' : (Parse.cursor >>= f) (st.within k') = f st.cursor (st.within k') :=
      congrFun there (st.within k')
    rw [Sync, run, run']
    exact h.sync ready opened

/-- A look at the session, where what is done next is the same in both settings. -/
theorem session {f : Session → Parse α} (h : LocalAt k k' weak p (f st.session) q st)
    (same : ∀ k s, f (Session.within k s) = f s) :
    LocalAt k k' weak p (Parse.session >>= f) q st where
  later := h.later
  sync ready opened := by
    have run : ∀ k, (Parse.session >>= f) (st.within k) = f st.session (st.within k) :=
      fun k => congrFun (same k st.session) (st.within k)
    rw [Sync, run, run]
    exact h.sync ready opened

end LocalAt

end Parse

/-! ### Updates -/

/-- The update does not look at what has been recorded, and keeps it. -/
def Update.Natural {α : Type} (u : Update α) : Prop :=
  ∀ (k : Setting) (s : Session), u (s.within k) = k.place Session.within (u s)

namespace Parse

variable {α β : Type} {k k' : Setting} {weak p : Prop} {st : ParseState}

theorem LocalAt.ofUpdate {u : Update α} (natural : u.Natural) :
    LocalAt k k' weak p (ofUpdate u) (fun _ => p) st where
  later := by
    unfold Parse.ofUpdate
    cases u st.session with
    | ok a s => exact .refl _
    | error failure s => exact .refl _
  sync ready opened := by
    have run : ∀ k : Setting, Parse.ofUpdate u (st.within k) =
        k.place ParseState.within (Parse.ofUpdate u st) := by
      intro k
      unfold Parse.ofUpdate
      rw [ParseState.within_session, natural]
      cases u st.session with
      | ok a s => rfl
      | error failure s => rfl
    refine .inr ⟨Parse.ofUpdate u st, run k, run k', ?_, fun a t same => ?_⟩
    · unfold Parse.ofUpdate
      cases u st.session with
      | ok a s => exact ready
      | error failure s => exact ready
    · unfold Parse.ofUpdate at same
      cases ran : u st.session with
      | ok a s =>
        rw [ran] at same
        cases same
        exact opened
      | error failure s =>
        rw [ran] at same
        cases same

theorem LocalAt.modifySession {f : Session → Session}
    (natural : ∀ k s, f (Session.within k s) = (f s).within k) :
    LocalAt k k' weak p (modifySession f) (fun _ => p) st where
  later := .refl _
  sync ready opened := by
    have run : ∀ k : Setting, Parse.modifySession f (st.within k) =
        k.place ParseState.within (Parse.modifySession f st) := fun k =>
      congrArg (fun s => EStateM.Result.ok () (ParseState.mk s (st.cursor.within k)))
        (natural k st.session)
    exact .inr ⟨_, run k, run k', ready, fun a t same => by cases same; exact opened⟩

theorem Local.mapM {f : α → Parse β} {items : List α}
    (each : ∀ a ∈ items, Local k k' False p (f a) fun _ => p) :
    Local k k' False p (items.mapM f) fun _ => p := by
  induction items with
  | nil =>
    intro st
    exact .pure id
  | cons a items ih =>
    intro st
    rw [List.mapM_cons]
    refine (each a List.mem_cons_self st).bind fun b st => ?_
    refine (ih (fun a' member => each a' (List.mem_cons_of_mem _ member)) st).bind fun rest st => ?_
    exact .pure id

end Parse

end Rsrc
