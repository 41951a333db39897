import Rsrc.Proofs.Expr.Reads
import Rsrc.Proofs.Progress.Loops
import Rsrc.Proofs.Resource.Stored

/-!
# Reading ends

Every loop of the grammar is repeated without a limit and leaves less to be read with each turn, also
where a construct is skipped, where a failure is recovered from and where a value takes the place of an
expression. Where all routines are built in, evaluation makes no calls inside one another either, and
they stay the only ones whatever is read. So a file is read in finitely many steps
(`Parse.file_terminates`).
-/

namespace Rsrc

/-! ### Calls of built-in routines -/

theorem Keeps.after {ε σ α : Type} {I : σ → Prop} {x : EStateM ε σ α} {Q : α → Prop} {s t : σ} {a : α}
    (h : Keeps I x Q) (kept : I s) (ran : x s = .ok a t) : I t := by
  have result := h s kept
  rw [ran] at result
  exact result.1

namespace Scopes.Plain

variable {s : Scopes}

/-- Where all routines are built in, no call is inside another. -/
theorem evaluate_eq (h : s.Plain) (depth : Nat) (scope : ScopeId) (e : Expr) :
    e.evaluate (Scopes.callWithin (depth + 1)) scope s = e.eval scope s := by
  obtain ⟨result, left, right, -⟩ := e.coincide_evaluate (fun _ _ => rfl) (fun _ => id)
    (fun _ _ values => coincide_callWithin rfl (fun _ => h.native_of_routine?) depth _ values)
    (List.Subset.refl _) (List.Subset.refl _)
  exact left.trans right.symm

theorem keeps_execute (scope : ScopeId) (statement : Statement) :
    Keeps Plain (statement.execute Scopes.call scope) := by
  refine .andThen (.of_unchanged fun s plain => plain.eval scope statement.expr) fun value => ?_
  cases statement.target with
  | none => exact .pure trivial
  | some target =>
    exact (Stays.modifyState fun _ plain =>
      tolerates_plain.define (Nat.zero_le _) target value plain).andThen fun _ => .pure trivial

theorem runFrom_eq (h : s.Plain) (depth : Nat) (scope : ScopeId) (statements : List Statement)
    (last : Value) : runFrom (Scopes.callWithin (depth + 1)) scope last statements s =
      runFrom Scopes.call scope last statements s := by
  induction statements generalizing last s with
  | nil => rfl
  | cons statement rest ih =>
    have first : statement.execute (Scopes.callWithin (depth + 1)) scope s =
        statement.execute Scopes.call scope s :=
      bind_congr_at (h.evaluate_eq depth scope statement.expr) fun _ _ _ => rfl
    refine bind_congr_at first fun value t ran => ih ?_ value
    exact (keeps_execute scope statement).after h (first.symm.trans ran)

/-- A script calls built-in routines only. -/
theorem execute_eq (h : s.Plain) (depth : Nat) (r : Routine) (scope : ScopeId)
    (values : List Value) :
    r.execute (Scopes.callWithin (depth + 1)) scope values s = r.execute Scopes.call scope values s := by
  have entered : ((s.push .subscope scope).defineAll s.next
      (Routine.bindings 1 r.parameters values)).Plain :=
    tolerates_plain.defineAll (Nat.zero_le _) _ (tolerates_plain.push _ _ h)
  rw [Routine.execute_eq, Routine.execute_eq]
  split
  · rfl
  · unfold Routine.runBody
    cases r.body with
    | native run => rfl
    | script statements => simp only [Routine.runScript, entered.runFrom_eq depth s.next]

end Scopes.Plain

/-! ### Built-in routines stay the only ones -/

namespace Session.Plain

theorem stable : Session.Stable 0 Plain := ⟨Update.Tame.keeps_plain, fun plain _ => plain⟩

end Session.Plain

namespace Parse

open Session

theorem fills_plain (d : TypeDef) (scope : ScopeId) :
    Fills Plain (fun _ => Plain) Plain d scope (fun _ => True) fun _ => True := by
  refine .of_tame Plain.stable.tame (Nat.zero_le _) fun {_ s r} _ _ plain => ?_
  obtain ⟨resources, stored⟩ := Session.store_eq r
  rw [stored]
  exact Scopes.tolerates_plain.release (Nat.zero_le _) plain

theorem upholds_plain_resourceBlock (d : TypeDef) (container : Option String) :
    Upholds Plain (resourceBlock d container) := by
  refine (Plain.stable.resourceBlock (K := fun _ => True)
    (fun kind _ _ => Plain.stable.tame (kind.tame_plan ..)) (fun plan s plain => ⟨?_, trivial⟩)
    (fun scope _ => fills_plain d scope) fun _ => id).upholds
  have tolerates := Scopes.tolerates_plain
  exact tolerates.define (Nat.zero_le _) _ _
    (tolerates.define (Nat.zero_le _) _ _ (tolerates.push _ _ plain))

/-- Whatever is read, built-in routines stay the only ones. -/
theorem lasting_plain : Lasting (fun _ _ => Plain) fun _ _ _ => Plain := by
  refine .of_same Plain.stable (fun {s t} plain scopes _ _ => ?_) (fun {s} depth plain => ?_)
    (Upholds.typeBlock Plain.stable fun _ _ plain => plain) fun d container =>
      Runs.mono (upholds_plain_resourceBlock d container) (fun _ => And.left) (fun _ _ => And.left)
        fun _ _ => id
  · rw [Plain, scopes]
    exact plain
  · have released : (s.scopes.release ⟨depth⟩).Plain :=
      Scopes.tolerates_plain.release (Nat.zero_le _) plain
    exact released

/-- Plain sessions, in front of constructs and inside of them. -/
theorem rounds_plain : Rounds (fun _ _ st => st.session.Plain) (fun _ _ st => st.session.Plain)
    fun _ _ st => st.session.Plain :=
  lasting_plain.toSteady.rounds []

theorem upholds_plain_declarationItem (d : TypeDef) (container : Option String) :
    Upholds Plain (declarationItem d container) := by
  refine (stays_isAt _).andThen fun _ => .ite (fun _ => Plain.stable.decorator) fun _ => ?_
  refine rounds_plain.guarded (m := none) (k := 0) ?_
    (Runs.post (upholds_plain_resourceBlock d container) fun _ _ => And.left)
  exact .of_local fun _ _ _ => (Step.resourceBlock d container).local

theorem upholds_plain_fileStep {importer : Importer} [importer.Natural]
    (imports : ∀ target, Upholds Plain (importer target)) : Upholds Plain (fileStep importer) :=
  (rounds_plain.fileStep (m := none) (k := 0) (fun _ _ => imports)).mono (fun _ => id)
    (fun _ _ plain => ⟨plain, trivial⟩) fun _ _ => And.left

/-! ### The loops of the grammar -/

/-- The computation repeats turns without a limit. Each turn that goes on leaves less to be read, and
built-in routines stay the only ones. -/
structure Repeats {α β : Type} (turn : α → Parse (α ⊕ β)) (start : α) (x : Parse β) : Prop where
  loops : ∀ st, Loops left turn start st (x st)
  plain : ∀ a, Upholds Plain (turn a) fun _ => True

theorem repeats_toBrace {α : Type} {step : α → Parse α}
    (each : ∀ a, Step {} {} True True (step a) fun _ => False) (plain : ∀ a, Upholds Plain (step a))
    (start : α) : Repeats (braceTurn step) start (toBrace step start) where
  loops := loops_toBrace (fun a st => (each a st).advances) start
  plain a := stays_cursor.andThen fun _ => .ite (fun _ => done _) fun _ =>
    .ite (fun _ => ((rounds_plain.along none).clear 0).fail _) fun _ => (plain a).andThen fun _ => done _

theorem repeats_items {α : Type} {item : Parse α} (each : Local {} {} False True item)
    (plain : Upholds Plain item) : Repeats (itemTurn item) [] (items item) where
  loops := loops_items each.forward
  plain _ := plain.andThen fun _ => Stays.andThen (Upholds.reading _) fun _ =>
    .ite (fun _ => done _) fun _ => done _

/-- The ways in which the cursor moves other than by reading. -/
structure Shrinks (importer : Importer) : Prop where
  /-- A condition excludes a construct. -/
  skipped : ∀ c : Cursor, 0 < c.unread → c.skipConstruct.unread < c.unread
  /-- A construct or a resource block has failed. -/
  recovered : ∀ {st t : ParseState} {failure : Failure}, 0 < left st → failure.isRecoverable →
    (construct importer (Place.module.loop importer) st = .error failure t ∨
      ∃ d container, resourceBlock d container st = .error failure t) →
    left (st.afterFailure t failure) < left st
  /-- A value takes the place of an expression. -/
  spliced : ∀ {st t : ParseState}, inlineValue st = .ok () t → left t ≤ left st

/-- The readers of expressions are loops that repeat their turns without a limit, and recursion that
goes on only where less is left. -/
structure ExprTerminating : Prop where
  path : ∀ path c, Loops Cursor.unread Reading.pathTurn path c (Reading.pathFrom path c.unread c)
  whole : Expr.read = Expr.fueledLayer 0
  layer : ∀ layer, Expr.fueledLayer layer = Expr.fueledUnary >>= Expr.fueledOperators layer
  operators : ∀ layer left c,
    Loops Cursor.unread (Expr.operatorTurn layer) left c (Expr.fueledOperators layer left c)
  unary : Descends Cursor.unread Expr.unaryBy Expr.fueledUnary
  primary : ∀ c inner arguments, (∀ d : Cursor, d.unread < c.unread →
    inner d = Expr.fueledLayer 0 d ∧ arguments d = Expr.fueledArguments d) →
      Expr.fueledPrimary c = Expr.primaryBy inner arguments c
  arguments : ∀ c, Loops Cursor.unread Expr.argumentTurn [] c (Expr.fueledArguments c)

/-- Reading a file is made of loops that repeat their turns without a limit, of modules that are inside
one another only where less is left, of expressions, and of evaluation without calls inside one
another. -/
structure Terminating (importer : Importer) : Prop where
  whole : Parse.file importer = Place.file.loop importer >>= fun _ => fileEnd
  file : Repeats (fileTurn importer) () (Place.file.loop importer)
  module : Repeats (braceTurn fun _ => fileStep importer) () (Place.module.loop importer)
  nested : Descends left (fun body => toBrace (fun _ => guarded (construct importer body)) ())
    (Place.module.loop importer)
  declaration : ∀ d container, Repeats (braceTurn fun _ => declarationItem d container) ()
    ((Place.declaration d container).loop importer)
  resource : ∀ d scope r, Repeats (braceTurn (blockItem d scope)) r (toBrace (blockItem d scope) r)
  type : ∀ d, Repeats (braceTurn typeItem) d (toBrace typeItem d)
  template : ∀ t, Repeats (braceTurn templateEntry) t (toBrace templateEntry t)
  constructor : ∀ body,
    Repeats (braceTurn constructorStatement) body (toBrace constructorStatement body)
  field : ∀ values, Repeats (braceTurn fieldItem) values (toBrace fieldItem values)
  joined : Repeats joinTurn [] joined
  operands : Repeats (itemTurn operand) [] (items operand)
  parameters : Repeats (itemTurn (ofReading Reading.identifier)) []
    (items (ofReading Reading.identifier))
  symbols : Repeats (itemTurn valueSymbol) [] (items valueSymbol)
  decorators : Repeats (itemTurn decoratorArgument) [] (items decoratorArgument)
  expressions : ExprTerminating
  shrinks : Shrinks importer
  evaluation : ∀ {s : Scopes}, s.Plain → ∀ depth scope (e : Expr),
    e.evaluate (Scopes.callWithin (depth + 1)) scope s = e.eval scope s
  scripts : ∀ {s : Scopes}, s.Plain → ∀ depth (r : Routine) scope values,
    r.execute (Scopes.callWithin (depth + 1)) scope values s = r.execute Scopes.call scope values s

theorem shrinks {importer : Importer} [importer.Natural] : Shrinks importer where
  skipped _ left := Cursor.unread_skipConstruct_lt left
  recovered {st t failure} left recoverable failed := by
    have body : Local {} {} False False (Place.module.loop importer) :=
      Local.loop (by simp [Cut]) .module
    have fewer {p : Parse Unit} (step : Step {} {} True True p fun _ => False)
        (ran : p st = .error failure t) : t.cursor.unread < st.cursor.unread := by
      have step := (step st).advances left
      rw [ran] at step
      exact step recoverable
    refine Nat.lt_of_le_of_lt (Cursor.Later.recover ..).unread ?_
    rcases failed with ran | ⟨d, container, ran⟩
    · exact fewer (Step.construct body) ran
    · exact fewer (Step.resourceBlock d container) ran
  spliced {st t} ran := unread_le_of_ok Local.inlineValue ran

theorem exprTerminating : ExprTerminating where
  path := Reading.loops_path
  whole := rfl
  layer := Expr.fueledLayer_eq
  operators := Expr.loops_operators
  unary := Expr.descends_unary
  primary _ _ _ := Expr.primary_eq
  arguments := Expr.loops_arguments

/-- Whatever the lexemes are, a file is read in finitely many steps, if its imports are. -/
theorem file_terminates {importer : Importer} (natural : importer.Natural)
    (imports : ∀ target, Upholds Plain (importer target) fun _ => True) : Terminating importer := by
  have steps := upholds_plain_fileStep imports
  have along := rounds_plain.along none
  have flat := along.clear 0
  exact {
    whole := file_eq importer
    file := ⟨loops_file, fun _ => stays_cursor.andThen fun _ =>
      .ite (fun _ => done _) fun _ => steps.andThen fun _ => done _⟩
    module := repeats_toBrace (fun _ => Step.fileStep) (fun _ => steps) ()
    nested := descends_module
    declaration := fun d container =>
      repeats_toBrace (fun _ => Step.declarationItem d container)
        (fun _ => upholds_plain_declarationItem d container) ()
    resource := fun d scope => repeats_toBrace (Step.blockItem d scope)
      fun _ => along.blockItem (k := 0) (D := fun _ st => st.session.Plain)
        (fun _ _ => fills_plain d scope) trivial
    type := repeats_toBrace (Step.typeItem) fun _ =>
      along.typeItem (k := 0) builds_trivial id trivial
    template := repeats_toBrace Step.templateEntry fun _ =>
      along.templateEntry (k := 0) builds_trivial id trivial
    constructor := repeats_toBrace Step.constructorStatement fun _ =>
      (flat.reading .statement).andThen fun _ => Stays.andThen (Upholds.reading _) fun _ => done _
    field := repeats_toBrace (Step.fieldItem) fun values => (along.fieldItem (k := 0) values).trivial
    joined := ⟨loops_joined, fun _ => Stays.andThen (Upholds.reading _) fun _ =>
      .ite (fun _ => flat.valuePart.trivial.andThen fun _ => done _) fun _ => done _⟩
    operands := repeats_items Step.operand.local flat.operand
    parameters := repeats_items Local.identifier (Upholds.reading _)
    symbols := repeats_items Local.valueSymbol flat.valueSymbol
    decorators := repeats_items Local.decoratorArgument flat.decoratorArgument
    expressions := exprTerminating
    shrinks := shrinks
    evaluation := Scopes.Plain.evaluate_eq
    scripts := Scopes.Plain.execute_eq }

/-- The importer of a project is of that kind, here for two files that import one another. -/
theorem file_terminates_mutual :
    Terminating (FileTree.importer ((FileTree.addFile {} ["a.rdl"] "@import \"b.rdl\";".toUTF8).addFile
      ["b.rdl"] "@import \"a.rdl\";".toUTF8) 3) :=
  file_terminates (FileTree.natural_importer _ _) (lasting_plain.importer _ _ none [])

end Parse

end Rsrc
