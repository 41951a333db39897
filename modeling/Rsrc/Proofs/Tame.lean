import Rsrc.Proofs.Blind
import Rsrc.Proofs.Scopes

/-!
# What updates touch

Up to the moment at which a construct takes effect, the updates made for it are tame: they do not look
at what has been recorded, and nothing is different after them but messages, waiting decorators and
the frames that were made meanwhile. This is shown for all that happens inside a resource block and
inside a type.
-/

namespace Rsrc

/-- Nothing is different from the first session but messages, waiting decorators and further
frames. -/
structure Session.Inside (s₀ s : Session) : Prop where
  same : { s with scopes := s₀.scopes, log := s₀.log, pending := s₀.pending } = s₀
  frames : s₀.scopes.frames <+: s.scopes.frames
  plain : s.scopes.Plain

/-- Nothing is different from the first session but messages and scopes. -/
def Session.Untouched (s₀ s : Session) : Prop := { s with scopes := s₀.scopes, log := s₀.log } = s₀

/-- Nothing is different from the first session but messages, waiting decorators and scopes. -/
def Session.Alike (s₀ s : Session) : Prop :=
  { s with scopes := s₀.scopes, log := s₀.log, pending := s₀.pending } = s₀

/-- The update does not look at what has been recorded, and it leaves all but messages and scopes as
it is, also the number of frames. If it fails, only the construct fails for which it is made. Inside a
session of `n` frames, it stays there. -/
structure Update.Tame {α : Type} (n : Nat) (u : Update α) : Prop where
  natural : u.Natural
  untouched : ∀ s₀ : Session, Keeps s₀.Untouched u
  level : ∀ m, 1 ≤ m → Keeps (fun s : Session => s.scopes.depth = m) u
  recoverable : Runs (fun _ => True) u (fun _ _ => True) fun failure _ => failure.isRecoverable = true
  inside : ∀ s₀ : Session, s₀.scopes.depth = n → Keeps s₀.Inside u

namespace Session.Inside

variable {s₀ s : Session}

theorem refl (plain : s.scopes.Plain) : s.Inside s := ⟨rfl, List.prefix_refl _, plain⟩

theorem withScopes (h : s₀.Inside s) {scopes : Scopes} (frames : s₀.scopes.frames <+: scopes.frames)
    (plain : scopes.Plain) : s₀.Inside { s with scopes } := ⟨h.same, frames, plain⟩

theorem depth_le (h : s₀.Inside s) : s₀.scopes.depth ≤ s.scopes.depth := h.frames.length_le

/-- Inside a session, its frames are the first ones. -/
theorem truncate (inside : s₀.Inside s) (rooted : s₀.scopes.frames ≠ []) :
    s.scopes.truncate s₀.scopes.depth = s₀.scopes := by
  have some : 1 ≤ s₀.scopes.frames.length := List.length_pos_iff.2 rooted
  have depth : max s₀.scopes.depth 1 = s₀.scopes.frames.length := Nat.max_eq_left some
  have taken := List.prefix_iff_eq_take.1 inside.frames
  show (⟨s.scopes.frames.take (max s₀.scopes.depth 1)⟩ : Scopes) = s₀.scopes
  rw [depth, ← taken]

/-- What is inside a session and has no further frames has the same ones. -/
theorem scopes_eq (h : s₀.Inside s) (depth : s.scopes.depth = s₀.scopes.depth) :
    s.scopes = s₀.scopes := by
  have frames : s.scopes.frames = s₀.scopes.frames := (h.frames.eq_of_length depth.symm).symm
  cases same : s.scopes with
  | mk frames' =>
    cases same₀ : s₀.scopes with
    | mk frames₀ => simp_all

end Session.Inside

/-- All that evaluation has to keep inside a session: the frames of the session, and that routines are
built in. -/
theorem Scopes.tolerates_inside (s₀ : Session) :
    Scopes.Tolerates s₀.scopes.depth fun s => s₀.scopes.frames <+: s.frames ∧ s.Plain where
  depth h := h.1.length_le
  push kind parent h :=
    ⟨(Scopes.tolerates_prefix _).push kind parent h.1, Scopes.tolerates_plain.push kind parent h.2⟩
  rebind f above h :=
    ⟨(Scopes.tolerates_prefix _).rebind f above h.1,
      Scopes.tolerates_plain.rebind f (Nat.zero_le _) h.2⟩
  release above h :=
    ⟨(Scopes.tolerates_prefix _).release above h.1,
      Scopes.tolerates_plain.release (Nat.zero_le _) h.2⟩

variable (d : TypeDef) (scope : ScopeId) (origin : Lexeme) (field : Field) (plan : BlockPlan)

namespace Update

/-! ### Natural updates -/

namespace Natural

variable {α β : Type} {u : Update α} {f : α → Update β}

theorem pure (a : α) : (Pure.pure a : Update α).Natural := fun _ _ => rfl

theorem throw (failure : Failure) : (MonadExcept.throw failure : Update α).Natural := fun _ _ => rfl

theorem bind (first : u.Natural) (second : ∀ a, (f a).Natural) : (u >>= f).Natural := by
  intro k s
  cases ran : u s with
  | ok a t =>
    have run : u (s.within k) = .ok a (t.within k) := by rw [first, ran]; rfl
    rw [bind_of_ok run, bind_of_ok ran, second]
  | error failure t =>
    have run : u (s.within k) = .error failure (t.within k) := by rw [first, ran]; rfl
    rw [bind_of_error run, bind_of_error ran]
    rfl

/-- A look at the session, but not at what has been recorded. -/
theorem get {g : Session → Update α} (same : ∀ (k : Setting) s, g (s.within k) = g s)
    (h : ∀ s, (g s).Natural) : (MonadState.get >>= g).Natural := by
  intro k s
  change g (s.within k) (s.within k) = k.place Session.within (g s s)
  rw [same, h]

theorem modifyState {g : Session → Session} (same : ∀ (k : Setting) s, g (s.within k) = (g s).within k) :
    (modify g : Update Unit).Natural := fun k s =>
  congrArg (EStateM.Result.ok ()) (same k s)

end Natural

/-! ### Tame updates -/

namespace Tame

variable {α β : Type} {n : Nat} {u : Update α} {f : α → Update β}

theorem pure (a : α) : Tame n (Pure.pure a : Update α) :=
  ⟨.pure a, fun _ => .pure trivial, fun _ _ => .pure trivial, fun _ _ => trivial,
    fun _ _ => .pure trivial⟩

theorem reject (cause : SemanticCause) : Tame n (Update.reject origin cause : Update α) :=
  ⟨.throw _, fun _ => .throw _, fun _ _ => .throw _, fun _ _ => rfl, fun _ _ => .throw _⟩

theorem bind (first : Tame n u) (second : ∀ a, Tame n (f a)) : Tame n (u >>= f) :=
  ⟨first.natural.bind fun a => (second a).natural,
    fun s₀ => (first.untouched s₀).andThen fun a => (second a).untouched s₀,
    fun m some => (first.level m some).andThen fun a => (second a).level m some,
    first.recoverable.bind fun a => (second a).recoverable,
    fun s₀ depth => (first.inside s₀ depth).andThen fun a => (second a).inside s₀ depth⟩

theorem get {g : Session → Update α} (same : ∀ (k : Setting) s, g (s.within k) = g s)
    (h : ∀ s, Tame n (g s)) : Tame n (MonadState.get >>= g) :=
  ⟨.get same fun s => (h s).natural,
    fun s₀ => Stays.get.trivial.andThen fun s => (h s).untouched s₀,
    fun m some => Stays.get.trivial.andThen fun s => (h s).level m some,
    fun s _ => (h s).recoverable s trivial,
    fun s₀ depth => Stays.get.trivial.andThen fun s => (h s).inside s₀ depth⟩

theorem define (result : Except DefinitionError α) : Tame n (Update.define origin result) := by
  cases result with
  | ok a => exact .pure a
  | error e => exact .reject origin _

/-- What a computation on scopes keeps of them, its evaluation keeps of the session, where nothing but
the scopes matters. -/
theorem keeps_evaluate {computation : Eval α} {I : Session → Prop} {K : Scopes → Prop}
    (keeps : Keeps K computation) (scopes : ∀ {s}, I s → K s.scopes)
    (replace : ∀ {s scopes}, I s → K scopes → I { s with scopes }) :
    Keeps I (Update.evaluate origin computation) := by
  intro s kept
  have ran := keeps s.scopes (scopes kept)
  unfold Update.evaluate
  cases run : computation s.scopes with
  | ok a scopes =>
    rw [run] at ran
    exact ⟨replace kept ran.1, trivial⟩
  | error e scopes =>
    rw [run] at ran
    exact replace kept ran

theorem evaluate {computation : Eval α}
    (level : ∀ m, 1 ≤ m → Keeps (fun s : Scopes => s.depth = m) computation)
    (keeps : ∀ s₀ : Session, s₀.scopes.depth = n →
      Keeps (fun s : Scopes => s₀.scopes.frames <+: s.frames ∧ s.Plain) computation) :
    Tame n (Update.evaluate origin computation) where
  natural k s := by
    have same : (s.within k).scopes = s.scopes := rfl
    unfold Update.evaluate
    rw [same]
    cases computation s.scopes with
    | ok a scopes => rfl
    | error e scopes => rfl
  untouched s₀ := keeps_evaluate origin (K := fun _ => True)
    (fun s _ => by cases computation s <;> trivial) (fun _ => trivial) fun same _ => same
  level m some := keeps_evaluate origin (level m some) id fun _ kept => kept
  recoverable s _ := by
    unfold Update.evaluate
    cases computation s.scopes <;> trivial
  inside s₀ depth := keeps_evaluate origin (keeps s₀ depth)
    (fun inside => ⟨inside.frames, inside.plain⟩) fun inside kept => inside.withScopes kept.1 kept.2

theorem value (scope : ScopeId) (e : Expr) : Tame n (Update.evaluate origin (e.eval scope)) :=
  .evaluate origin (fun _ some => Scopes.keeps_depth_eval some e)
    fun _ _ => .of_unchanged fun _ kept => kept.2.eval scope e

theorem note (level : LogLevel) (text : String) : Tame n (Update.note level text) where
  natural := .modifyState fun k s => by
    simp [Session.note, Session.within]
  untouched _ := .modifyState fun _ same => same
  level _ _ := .modifyState fun _ depth => depth
  recoverable _ _ := trivial
  inside s₀ _ := .modifyState fun s inside => ⟨inside.same, inside.frames, inside.plain⟩

theorem keeps_inScope (parent : ScopeId) {g : ScopeId → Update α} {I K : Session → Prop}
    (keeps : ∀ {s}, I s → Keeps K (g s.scopes.next))
    (enter : ∀ {s}, I s → K { s with scopes := s.scopes.push .shadow parent })
    (leave : ∀ {s t}, I s → K t → I { t with scopes := t.scopes.release s.scopes.next }) :
    Keeps I (Update.inScope parent g) := by
  intro s kept
  have ran := keeps kept _ (enter kept)
  unfold Update.inScope
  dsimp only
  cases run : g s.scopes.next { s with scopes := s.scopes.push .shadow parent } with
  | ok a t =>
    rw [run] at ran
    exact ⟨leave kept ran.1, trivial⟩
  | error e t =>
    rw [run] at ran
    exact leave kept ran

theorem inScope (parent : ScopeId) {g : ScopeId → Update α}
    (h : ∀ m (scope : ScopeId), m ≤ scope.index → Tame m (g scope)) :
    Tame n (Update.inScope parent g) where
  natural k s := by
    have entered : g (s.within k).scopes.next
        { s.within k with scopes := (s.within k).scopes.push .shadow parent } = _ :=
      (h 0 s.scopes.next (Nat.zero_le _)).natural k { s with scopes := s.scopes.push .shadow parent }
    unfold Update.inScope
    dsimp only
    rw [entered]
    cases g s.scopes.next { s with scopes := s.scopes.push .shadow parent } with
    | ok a t => rfl
    | error e t => rfl
  untouched s₀ := keeps_inScope parent (fun _ => (h 0 _ (Nat.zero_le _)).untouched s₀)
    (fun same => same) fun _ same => same
  level m some := by
    refine keeps_inScope (K := fun s => s.scopes.depth = m + 1) parent
      (fun _ => (h 0 _ (Nat.zero_le _)).level (m + 1) (Nat.le_add_left ..))
      (fun depth => (Scopes.depth_push ..).trans (congrArg (· + 1) depth)) fun {s t} depth deeper => ?_
    rw [Scopes.release, Scopes.next, depth]
    exact Scopes.depth_truncate some (Nat.le_of_succ_le deeper.ge)
  recoverable s _ := by
    have ran := (h 0 s.scopes.next (Nat.zero_le _)).recoverable
      { s with scopes := s.scopes.push .shadow parent } trivial
    unfold Update.inScope
    dsimp only
    cases run : g s.scopes.next { s with scopes := s.scopes.push .shadow parent } with
    | ok a t => trivial
    | error e t =>
      rw [run] at ran
      exact ran
  inside s₀ depth := by
    have tolerates := Scopes.tolerates_inside s₀
    have above {s : Session} (inside : s₀.Inside s) : s₀.scopes.depth ≤ s.scopes.next.index :=
      inside.depth_le
    refine keeps_inScope parent
      (fun inside => (h s₀.scopes.depth _ (above inside)).inside s₀ rfl)
      (fun inside => ?_) fun {s t} inside ran => ?_
    · have pushed := tolerates.push .shadow parent ⟨inside.frames, inside.plain⟩
      exact inside.withScopes pushed.1 pushed.2
    · have kept := tolerates.release (above inside) ⟨ran.frames, ran.plain⟩
      exact ran.withScopes kept.1 kept.2

/-- Decorators that wait make no difference. -/
theorem alike (h : Tame n u) (s₀ : Session) : Keeps s₀.Alike u := by
  refine .of_final fun s before => ?_
  have same : s.Untouched (finalState (u s)) := (h.untouched s).final rfl
  unfold Session.Alike at before ⊢
  rw [← same] at before
  exact before

end Tame

/-- A tame update that depends on nothing but the scopes. -/
structure Scoped {α : Type} (n : Nat) (u : Update α) : Prop extends Tame n u where
  blind : u.Blind

namespace Scoped

variable {α β : Type} {n : Nat} {u : Update α} {f : α → Update β}

theorem pure (a : α) : Scoped n (Pure.pure a : Update α) := ⟨.pure a, .pure a⟩

theorem reject (cause : SemanticCause) :
    Scoped n (Update.reject origin cause : Update α) := ⟨.reject origin cause, .reject origin cause⟩

theorem bind (first : Scoped n u) (second : ∀ a, Scoped n (f a)) : Scoped n (u >>= f) :=
  ⟨first.toTame.bind fun a => (second a).toTame, first.blind.bind fun a => (second a).blind⟩

/-- A look at the scopes. -/
theorem get {g : Session → Update α} (same : ∀ s, g s = g { scopes := s.scopes })
    (h : ∀ s, Scoped n (g s)) : Scoped n (MonadState.get >>= g) :=
  ⟨.get (fun _ s => (same _).trans (same s).symm) fun s => (h s).toTame,
    .get same fun s => (h s).blind⟩

theorem ite {c : Prop} [Decidable c] {u v : Update α} (yes : c → Scoped n u)
    (no : ¬ c → Scoped n v) : Scoped n (if c then u else v) := by
  split
  · exact yes ‹_›
  · exact no ‹_›

theorem foldlM {g : β → α → Update β} {items : List α} (step : ∀ b a, Scoped n (g b a))
    (start : β) : Scoped n (items.foldlM g start) := by
  induction items generalizing start with
  | nil => exact .pure start
  | cons a items ih =>
    rw [List.foldlM_cons]
    exact (step start a).bind fun b => ih b

theorem mapM {g : α → Update β} {items : List α} (each : ∀ a, Scoped n (g a)) :
    Scoped n (items.mapM g) := by
  induction items with
  | nil => exact .pure []
  | cons a items ih =>
    rw [List.mapM_cons]
    exact (each a).bind fun b => ih.bind fun rest => .pure _

theorem value (scope : ScopeId) (e : Expr) :
    Scoped n (Update.evaluate origin (e.eval scope)) := ⟨.value origin scope e, .evaluate _ _⟩

theorem modifyScopes {g : Scopes → Scopes} (level : ∀ s, (g s).depth = s.depth)
    (keeps : ∀ s₀ : Session, s₀.scopes.depth = n → ∀ s : Scopes,
      s₀.scopes.frames <+: s.frames ∧ s.Plain → s₀.scopes.frames <+: (g s).frames ∧ (g s).Plain) :
    Scoped n (Update.modifyScopes g) where
  natural := .modifyState fun _ _ => rfl
  untouched _ := .modifyState fun _ same => same
  level _ _ := .modifyState fun s depth => (level s.scopes).trans depth
  recoverable _ _ := trivial
  inside s₀ depth := .modifyState fun s inside =>
    have kept := keeps s₀ depth s.scopes ⟨inside.frames, inside.plain⟩
    inside.withScopes kept.1 kept.2
  blind := .modifyScopes g

theorem inScope (parent : ScopeId) {g : ScopeId → Update α}
    (h : ∀ m (scope : ScopeId), m ≤ scope.index → Scoped m (g scope)) :
    Scoped n (Update.inScope parent g) :=
  ⟨.inScope parent fun m scope above => (h m scope above).toTame,
    .inScope parent fun scope => (h 0 scope (Nat.zero_le _)).blind⟩

theorem bindSymbols {scope : ScopeId} (above : n ≤ scope.index) (symbols : List FieldSymbol) :
    Scoped n (Update.bindSymbols scope symbols) := by
  unfold Update.bindSymbols
  induction symbols with
  | nil => exact .pure ()
  | cons symbol symbols ih =>
    refine Scoped.bind ?_ fun _ => ih
    refine (Scoped.value _ scope _).bind fun value =>
      .modifyScopes (fun _ => Scopes.depth_define ..) fun s₀ depth s kept => ?_
    exact (Scopes.tolerates_inside s₀).define (depth ▸ above) _ _ kept

/-- A routine is run in a scope of its own under a scope made meanwhile. -/
theorem execute {scope : ScopeId} (above : n ≤ scope.index) (r : Routine) (arguments : List Value) :
    Scoped n (Update.evaluate origin (r.execute Scopes.call scope arguments)) := by
  refine ⟨.evaluate origin (fun m some => Scopes.keeps_depth_execute some r arguments)
    fun s₀ depth => ?_, .evaluate _ _⟩
  exact (Scopes.tolerates_inside s₀).execute (depth ▸ above)
    (fun scope name values _ => .of_unchanged fun _ kept => kept.2.call scope name values)
    r arguments

end Scoped

end Update

/-! ### Values -/

namespace TypeDef

open Update

variable {n : Nat}
  {operand : Operand} {r : Record} {operands : List Operand} {front : String} {v : FieldValue}

theorem scoped_construct (arguments : List Value) : Scoped n (d.construct scope origin arguments) := by
  unfold construct
  cases d.constructor? arguments.length with
  | none => exact .reject _ _
  | some c =>
    refine .inScope scope fun m inner above => ?_
    exact (Scoped.execute origin above c.routine arguments).bind fun _ => .get (fun _ => rfl)
      fun s => .pure _

theorem scoped_constructInto (nested : TypeDef) (scope : ScopeId) (key : String) (origin : Lexeme)
    (arguments : List Expr) : Scoped n (nested.constructInto scope key r origin arguments) :=
  (Scoped.mapM fun e => .value origin scope e).bind fun values =>
    (nested.scoped_construct scope origin values).bind fun _ => .pure _

theorem scoped_symbols (symbols : List FieldSymbol) :
    Scoped n (Update.inScope scope fun inner => Update.bindSymbols inner symbols) :=
  .inScope scope fun _ _ above => .bindSymbols above symbols

/-- The value of an expression that may use symbols of a label. -/
theorem scoped_withSymbols (symbols : List FieldSymbol) :
    Scoped n (Update.inScope scope fun inner => do
      Update.bindSymbols inner symbols
      Update.evaluate operand.origin (operand.expr.eval inner)) :=
  .inScope scope fun _ _ above => (Scoped.bindSymbols above symbols).bind fun _ => .value ..

/-- An expression for a label is a call of a constructor of the type that is nested there, or it is
evaluated with the symbols of the label. -/
theorem assignExpr_cases (key : String) :
    (∃ t arguments, d.nested? v.name = some t ∧ operand.expr = .call t.name arguments ∧
      d.assignExpr scope v key r operand = t.constructInto scope key r operand.origin arguments) ∨
    (∀ t name arguments, d.nested? v.name = some t → operand.expr = .call name arguments →
      name ≠ t.name) ∧ d.assignExpr scope v key r operand = (do
        let value ← Update.inScope scope fun inner => do
          Update.bindSymbols inner v.symbols
          Update.evaluate operand.origin (operand.expr.eval inner)
        return r.set key (v.coerce value)) := by
  unfold assignExpr
  split
  · rename_i t name arguments nested call
    by_cases own : name = t.name
    · subst own
      exact .inl ⟨t, arguments, nested, call, if_pos rfl⟩
    · refine .inr ⟨fun t' name' arguments' nested' call' => ?_, if_neg own⟩
      cases nested.symm.trans nested'
      cases call.symm.trans call'
      exact own
  · rename_i none
    exact .inr ⟨fun t name arguments nested call => absurd call (none t name arguments nested), rfl⟩

theorem scoped_assignExpr (key : String) : Scoped n (d.assignExpr scope v key r operand) := by
  rcases assignExpr_cases d scope key with ⟨t, arguments, -, -, run⟩ | ⟨-, run⟩
  · rw [run]
    exact scoped_constructInto ..
  · rw [run]
    exact (scoped_withSymbols scope v.symbols).bind fun value => .pure _

theorem scoped_partValue (part : FieldValue) (parts : List FieldValue) (scope : ScopeId) :
    Scoped n (part.partValue parts scope operand) := by
  refine .inScope scope fun m inner above => ?_
  refine Scoped.bind (.modifyScopes (fun _ => Scopes.depth_defineAll ..) fun s₀ depth s kept => ?_)
    fun _ => (Scoped.bindSymbols above _).bind fun _ => .value ..
  exact (Scopes.tolerates_inside s₀).defineAll (depth ▸ above) _ kept

theorem scoped_assignValue : Scoped n (d.assignValue scope v front r operand) :=
  .ite (fun _ => scoped_assignExpr ..) fun _ =>
    .foldlM (fun _ _ => (scoped_partValue ..).bind fun _ => .pure _) r

/-! ### Defaults -/

theorem scoped_defaultValue {nested : d.Below → Record → String → Update Record}
    (inner : ∀ t r front, Scoped n (nested t r front)) (scope : ScopeId) (byName : Bool)
    (front : String) (r : Record) (v : FieldValue) :
    Scoped n (d.defaultValue nested scope byName front r v) := by
  unfold defaultValue
  split
  · exact .pure _
  · exact scoped_assignExpr ..
  · refine .get (fun _ => rfl) fun s => ?_
    dsimp only
    split
    · exact .pure _
    · exact inner ..
    · exact .pure _

theorem scoped_defaults (d : TypeDef) (r : Record) (front : String) :
    Scoped n (d.defaults scope r front) := by
  rw [defaults]
  refine .foldlM (fun r field => .ite (fun _ => .pure _) fun _ => .foldlM (fun r v => ?_) r) r
  exact d.scoped_defaultValue (fun t r front => scoped_defaults t.val r front) ..
termination_by sizeOf d
decreasing_by exact t.2

theorem scoped_defaultEntry : Scoped n (d.defaultEntry scope field) :=
  .foldlM (fun _ _ => d.scoped_defaultValue (fun t r front => scoped_defaults scope t.val r front) ..) _

theorem scoped_defaultEntries (count : Nat) : Scoped n (d.defaultEntries scope field count) := by
  induction count with
  | zero => exact .pure _
  | succ count ih => exact (d.scoped_defaultEntry scope field).bind fun _ => ih.bind fun _ => .pure _

theorem scoped_ensureEntry (key : String) (r : Record) : Scoped n (d.ensureEntry scope field key r) :=
  .ite (fun _ => .pure _) fun _ => (d.scoped_defaultEntry scope field).bind fun _ => .pure _

theorem scoped_padField (field : Field) : Scoped n (d.padField scope r field) := by
  unfold padField
  split
  · exact .pure _
  · exact .ite (fun _ => .pure _) fun _ => (scoped_defaultEntries ..).bind fun _ => .pure _

theorem scoped_pad (r : Record) : Scoped n (d.pad scope r) :=
  .foldlM (fun _ _ => scoped_padField ..) r

/-! ### Assignments -/

theorem scoped_singleOperand (path : String) (origin : Lexeme) :
    Scoped n (singleOperand path operands origin) := by
  unfold singleOperand
  split
  · exact .pure _
  · exact .reject _ _
  · exact .reject _ _

theorem scoped_assignValues (values : List FieldValue) :
    Scoped n (d.assignValues scope front r values operands) :=
  .foldlM (fun _ _ => scoped_assignValue ..) r

theorem scoped_assignField (field : Field) :
    Scoped n (d.assignField scope front r field operands) := by
  have body : ∀ _ : Unit, Scoped n (if field.isRepeatable = true then do
        let entry ← d.defaultEntry scope field
        let entry ← d.assignValues scope "" entry field.values operands
        return r.pushEntry (front ++ field.name) entry
      else d.assignValues scope front r field.values operands) := fun _ =>
    .ite (fun _ => (scoped_defaultEntry ..).bind fun _ => (scoped_assignValues ..).bind fun _ => .pure _)
      fun _ => scoped_assignValues ..
  unfold assignField
  dsimp only
  split
  · exact (Scoped.reject _ _).bind body
  · exact body ()

theorem scoped_updateLast (key : String) (r : Record)
    {update : Record → Update Record} (inner : ∀ entry, Scoped n (update entry)) :
    Scoped n (d.updateLast scope field key r update) := by
  refine (d.scoped_ensureEntry scope field key r).bind fun r => ?_
  split
  · exact .pure _
  · exact (inner _).bind fun _ => .pure _

theorem scoped_assignPart (field : Field) : Scoped n (d.assignPart scope front r field v operand) :=
  .ite (fun _ => d.scoped_updateLast scope field _ r fun _ => scoped_assignValue ..) fun _ =>
    scoped_assignValue ..

theorem scoped_warnDeprecated (origin : Lexeme) : Scoped n (warnDeprecated field origin) := by
  unfold warnDeprecated
  split
  · exact ⟨.note .., .note _ _⟩
  · exact .pure _

theorem scoped_assign (operands : List Operand) (d : TypeDef)
    (r : Record) (front : String) (path : List String) :
    Scoped n (d.assign scope origin operands r front path) := by
  rw [assign]
  split
  · exact .reject _ _
  · rename_i target found
    refine (scoped_warnDeprecated _ _).bind fun _ => .ite (fun _ => ?_) fun _ => ?_
    · split
      · exact (scoped_singleOperand ..).bind fun operand => scoped_assignPart ..
      · exact scoped_assignField ..
    · split
      · split
        · have shorter : target.inner.length < path.length := length_inner_lt found
          exact .ite
            (fun _ => scoped_updateLast _ _ _ _ _ fun entry =>
              scoped_assign operands _ entry _ target.inner)
            fun _ => scoped_assign operands _ r _ target.inner
        · exact .reject _ _
      · exact .reject _ _
termination_by path.length

theorem scoped_runConstructor {scope : ScopeId} (above : n ≤ scope.index)
    (origin : Lexeme) (r : Record) (arguments : List Value) :
    Scoped n (d.runConstructor scope origin r arguments) := by
  unfold runConstructor
  split
  · exact .pure r
  · rename_i c _
    refine (Scoped.execute origin above c.routine arguments).bind fun _ => ?_
    refine .get (fun _ => rfl) fun s => Scoped.bind
      (.modifyScopes (fun _ => Scopes.depth_modify ..) fun s₀ depth t kept => ?_) fun _ =>
      .foldlM (fun r pair => scoped_assign ..) r
    exact (Scopes.tolerates_inside s₀).dropLocals (depth ▸ above) _ kept

end TypeDef

/-! ### Blocks -/

section Block

open Update

variable {n : Nat}

theorem tame_slotAt (container : Option String) (reference : Option Reference)
    (origin : Lexeme) : Tame n (slotAt d container reference origin) := by
  refine .get (fun _ _ => rfl) fun s => ?_
  split
  · exact .pure _
  · exact .reject _ _

theorem BlockKind.tame_source (kind : BlockKind) (d : TypeDef) (container : Option String)
    (keyword : Lexeme) (references : List GivenReference) :
    Tame n (kind.source d container keyword references) := by
  unfold BlockKind.source
  split
  · exact .reject _ _
  · exact (tame_slotAt ..).bind fun slot => .pure _
  · exact .pure _

theorem BlockKind.tame_target (references : List GivenReference) : Tame n (target references) := by
  unfold target
  split
  · exact .pure _
  · exact .pure _
  · exact .reject _ _

theorem BlockKind.tame_explicit (target : Option GivenReference) (naming : Naming) :
    Tame n (explicit target naming) := by
  unfold explicit
  split
  · exact .reject _ _
  · exact .pure _
  · exact .pure _
  · exact .pure _

theorem BlockKind.tame_start (kind : BlockKind) (keyword : Lexeme) (source : Option GivenReference)
    (slot : Reference) (name : Option String) : Tame n (kind.start keyword source slot name) := by
  refine .get (fun _ _ => rfl) fun s => ?_
  dsimp only
  split
  · exact .reject _ _
  · exact .pure _
  · exact .pure _
  · exact .pure _
  · exact .reject _ _
  · refine .get (fun _ _ => rfl) fun s => ?_
    split
    · exact .reject _ _
    · exact .reject _ _
    · exact .pure _

theorem BlockKind.tame_plan (kind : BlockKind) (d : TypeDef) (container : Option String)
    (keyword : Lexeme) (arguments : List Argument) :
    Tame n (kind.plan d container keyword arguments) := by
  refine (kind.tame_source ..).bind fun (source, references) => ?_
  refine (tame_target _).bind fun target => ?_
  dsimp only
  split
  · refine (Tame.pure _).bind fun naming => ?_
    refine (tame_explicit ..).bind fun given => (tame_slotAt ..).bind fun slot => ?_
    exact (kind.tame_start ..).bind fun (name, start) => .pure _
  · refine (Tame.reject _ _).bind fun naming => ?_
    refine (tame_explicit ..).bind fun given => (tame_slotAt ..).bind fun slot => ?_
    exact (kind.tame_start ..).bind fun (name, start) => .pure _

/-- The scope of a block is made above all others. -/
theorem BlockPlan.runs_openScope (s₀ : Session) :
    Keeps s₀.Inside plan.openScope fun scope => s₀.scopes.depth ≤ scope.index := by
  intro s inside
  have above : s₀.scopes.depth ≤ s.scopes.next.index := inside.depth_le
  have tolerates := Scopes.tolerates_inside s₀
  have pushed := tolerates.push .shadow Scopes.rootId ⟨inside.frames, inside.plain⟩
  have bound := tolerates.define above "name" (.string plan.name)
    (tolerates.define above "id" (.integer plan.reference.id) pushed)
  exact ⟨inside.withScopes bound.1 bound.2, above⟩

theorem BlockPlan.natural_openScope : plan.openScope.Natural :=
  .get (fun _ _ => rfl) fun _ => .bind (.modifyState fun _ _ => rfl) fun _ => .pure _

/-- Runs the constructor that a plan asks for, if any. -/
def BlockPlan.construct (plan : BlockPlan) (d : TypeDef) (scope : ScopeId) (keyword : Lexeme)
    (r : Record) : Update Record :=
  match plan.constructor with
  | some arguments => d.runConstructor scope keyword r arguments
  | none => pure r

theorem BlockPlan.tame_initial (d : TypeDef) {scope : ScopeId}
    (above : n ≤ scope.index) (keyword : Lexeme) : Tame n (plan.initial d scope keyword) := by
  have run : ∀ r, Tame n (plan.construct d scope keyword r) := by
    intro r
    unfold BlockPlan.construct
    split
    · exact (d.scoped_runConstructor above ..).toTame
    · exact .pure r
  unfold BlockPlan.initial
  dsimp only
  split
  · exact .get (fun _ _ => rfl) fun s => run _
  · exact (d.scoped_defaults ..).toTame.bind run

theorem natural_store (k : Setting) (s : Session) (r : Resource) :
    (s.within k).store r = (s.store r).within k := by
  have same : (s.within k).resources = s.resources := rfl
  unfold Session.store
  rw [same]
  cases s.resources.findIdx? (·.occupies r.reference) with
  | some index => rfl
  | none => rfl

theorem BlockPlan.natural_finish (d : TypeDef) (scope : ScopeId) (keyword : Lexeme)
    (r : Record) : (plan.finish d scope keyword r).Natural := by
  refine ((d.scoped_pad (n := 0) scope r).natural).bind fun r => .modifyState fun k s => ?_
  exact natural_store k { s with scopes := s.scopes.release scope } _

end Block

end Rsrc
