import Rsrc.Proofs.Scopes

/-!
# What evaluation reads

An expression that calls native routines reads the variables that it names and nothing else. Two
evaluations in which these have the same values come to the same result and leave the scopes as they
are (`Coincide`). None of these variables is unknown if there is a value, and no other variable is ever
found to be unknown (`Blames`), unless a native routine makes it up, which no built-in one does.
-/

namespace Rsrc

/-! ### Unknown names -/

section

variable {α β : Type} {blamed : String → Prop}

/-- If a variable is unknown according to the result, it is one of those to blame. -/
def Blames (blamed : String → Prop) (result : Except EvalError α) : Prop :=
  ∀ name, result = .error (.unknownVariable name) → blamed name

namespace Blames

@[simp] theorem ok (a : α) : Blames blamed (.ok a) := by
  intro name h
  cases h

@[simp] theorem error_iff {e : EvalError} : Blames blamed (.error e : Except EvalError α) ↔
    ∀ name, e = .unknownVariable name → blamed name := by
  simp [Blames]

@[simp] theorem bind {x : Except EvalError α} {f : α → Except EvalError β} (h : Blames blamed x)
    (later : ∀ a, Blames blamed (f a)) : Blames blamed (x >>= f) := by
  cases x with
  | ok a => exact later a
  | error e => exact error_iff.2 (error_iff.1 h)

@[simp] theorem map {x : Except EvalError α} (h : Blames blamed x) (f : α → β) :
    Blames blamed (f <$> x) :=
  h.bind fun a => ok (f a)

end Blames

namespace Value

@[simp] theorem blames_orOverflow (operator : String) (result : Option Int64) :
    Blames blamed (orOverflow operator result) := by
  cases result <;> simp [orOverflow]

theorem blames_unary (op : UnaryOp) (v : Value) : Blames blamed (v.unary op) := by
  unfold unary
  split <;> simp

theorem blames_integerArithmetic (op : BinaryOp) (a b : Value) :
    Blames blamed (integerArithmetic op a b) := by
  have computed (m n : Int64) : Blames blamed (if divides op && n == 0 then .error .divisionByZero
      else orOverflow op.symbol (integerOp? op m n)) := by
    split <;> simp
  unfold integerArithmetic
  split <;> first | exact .map (computed _ _) _ | simp [mismatch]

theorem blames_binary (op : BinaryOp) (a b : Value) : Blames blamed (a.binary op b) := by
  unfold binary arithmetic decimalArithmetic booleanArithmetic mismatch
  repeat' split
  all_goals simp [blames_integerArithmetic]

end Value

namespace Builtin

variable (f : Builtin) (v : Value)

@[simp] theorem blames_integerOf : Blames blamed (f.integerOf v) := by
  cases v <;> simp [integerOf, invalid, Value.asInteger]

@[simp] theorem blames_decimalOf : Blames blamed (f.decimalOf v) := by
  cases v <;> simp [decimalOf, invalid, Value.asDecimal]

@[simp] theorem blames_textOf : Blames blamed (f.textOf v) := by
  cases v <;> simp [textOf, invalid]

@[simp] theorem blames_componentOf : Blames blamed (f.componentOf v) := by
  refine .bind (f.blames_integerOf v) fun n => ?_
  split
  · exact .ok n
  · exact Blames.error_iff.2 (by simp [invalid])

@[simp] theorem blames_colour (red green blue : Value) (alpha : Int64) :
    Blames blamed (f.colour red green blue alpha) := by
  refine .bind (f.blames_componentOf red) fun _ => .bind (f.blames_componentOf green) fun _ => ?_
  exact .bind (f.blames_componentOf blue) fun _ => .ok _

@[simp] theorem blames_power (a b : Value) : Blames blamed (power a b) := by
  unfold power
  repeat' split
  all_goals simp [pure, Except.pure]

@[simp] theorem blames_magnitude : Blames blamed (magnitude v) := by
  cases v <;> simp [magnitude, invalid]

@[simp] theorem blames_rounded (op : Float → Float) (v : Value) : Blames blamed (f.rounded op v) := by
  cases v <;> simp [rounded]

@[simp] theorem blames_toInteger : Blames blamed (toInteger v) := by
  unfold toInteger
  repeat' split
  all_goals simp [invalid]

@[simp] theorem blames_toReference : Blames blamed (toReference v) := by
  cases v <;> simp [toReference]

theorem blames_apply (values : List Value) : Blames blamed (f.apply values) := by
  unfold apply
  split
  all_goals simp [onDecimal, pick, pure, Except.pure]

end Builtin

end

/-! ### Calls -/

mutual

/-- The names of routines that the expression calls. -/
def Expr.calls : Expr → List String
  | .literal _ => []
  | .var _ => []
  | .call name arguments => name :: Expr.callsAll arguments
  | .unary _ operand => operand.calls
  | .binary _ left right => left.calls ++ right.calls

def Expr.callsAll : List Expr → List String
  | [] => []
  | e :: es => e.calls ++ Expr.callsAll es

end

/-- The variables have values in the scope. -/
def Scopes.Binds (s : Scopes) (scope : ScopeId) (names : List String) : Prop :=
  ∀ name ∈ names, (s.lookup scope name).isSome

/-- From either scopes the same result comes, and the scopes stay as they are. Only some variables can
be unknown, and a result that is a value takes what is `needed`. -/
def Coincide {α : Type} (blamed : String → Prop) (needed : Prop) (x : Eval α) (s : Scopes)
    (y : Eval α) (t : Scopes) : Prop :=
  ∃ result, x s = Eval.ofExcept result s ∧ y t = Eval.ofExcept result t ∧ Blames blamed result ∧
    ∀ a, result = .ok a → needed

section

variable {s t : Scopes} {scope scope' : ScopeId} {blamed : String → Prop} {needed : Prop}

theorem Coincide.bind {α β : Type} {x y : Eval α} {f g : α → Eval β} {first : Prop}
    (h : Coincide blamed first x s y t) (later : ∀ a, Coincide blamed needed (f a) s (g a) t) :
    Coincide blamed (first ∧ needed) (x >>= f) s (y >>= g) t := by
  obtain ⟨result, left, right, blames, bound⟩ := h
  cases result with
  | ok a =>
    obtain ⟨result, left', right', blames, bound'⟩ := later a
    exact ⟨result, (bind_of_ok left).trans left', (bind_of_ok right).trans right', blames,
      fun b done => ⟨bound a rfl, bound' b done⟩⟩
  | error e =>
    refine ⟨.error e, bind_of_error left, bind_of_error right, ?_, nofun⟩
    exact Blames.error_iff.2 (Blames.error_iff.1 blames)

theorem Coincide.mono {α : Type} {x y : Eval α} {needed' : Prop} (h : Coincide blamed needed x s y t)
    (weaker : needed → needed') : Coincide blamed needed' x s y t := by
  obtain ⟨result, left, right, blames, bound⟩ := h
  exact ⟨result, left, right, blames, fun a done => weaker (bound a done)⟩

theorem Coincide.ofExcept {α : Type} {result : Except EvalError α} (h : Blames blamed result) :
    Coincide blamed True (Eval.ofExcept result) s (Eval.ofExcept result) t :=
  ⟨result, rfl, rfl, h, fun _ _ => trivial⟩

namespace Scopes

theorem coincide_callWithin {name : String} (same : s.routine? scope name = t.routine? scope' name)
    (native : ∀ routine, s.routine? scope name = some routine →
      ∃ run, routine.body = .native run ∧ ∀ values, Blames blamed (run values))
    (depth depth' : Nat) (values : List Value) :
    Coincide blamed True (callWithin (depth + 1) scope name values) s
      (callWithin (depth' + 1) scope' name values) t := by
  cases found : s.routine? scope name with
  | none =>
    refine ⟨.error (.unknownRoutine name), callWithin_of_none found, ?_, by simp, nofun⟩
    exact callWithin_of_none (same ▸ found)
  | some routine =>
    obtain ⟨run, body, blames⟩ := native routine found
    unfold Coincide
    rw [callWithin_of_some found, callWithin_of_some (same ▸ found)]
    simp only [Routine.execute_eq]
    split
    · exact ⟨.error _, rfl, rfl, by simp, nofun⟩
    · rw [Routine.runBody, Routine.runBody, body]
      exact Coincide.ofExcept (blames values)

/-- Built-in routines are native, whichever variables are to blame. -/
theorem Plain.native_of_routine? {name : String} {routine : Routine} (h : s.Plain)
    (found : s.routine? scope name = some routine) :
    ∃ run, routine.body = .native run ∧ ∀ values, Blames blamed (run values) := by
  obtain ⟨f, body⟩ := h.builtin_of_routine? found
  exact ⟨f.apply, body, f.blames_apply⟩

end Scopes

section

variable {call call' : Caller} {called names : List String}
  (same : ∀ name ∈ names, s.lookup scope name = t.lookup scope' name)
  (blames : ∀ name ∈ names, blamed name) (answers : ∀ name ∈ called, ∀ values,
    Coincide blamed True (call scope name values) s (call' scope' name values) t)
include same blames answers

set_option linter.unusedSectionVars false in
mutual

theorem Expr.coincide_evaluate :
    (e : Expr) → e.names ⊆ names → e.calls ⊆ called →
      Coincide blamed (s.Binds scope e.names) (e.evaluate call scope) s (e.evaluate call' scope') t
  | .literal value, _, _ => (Coincide.ofExcept (.ok value)).mono fun _ => List.forall_mem_nil _
  | .var name, read, _ => by
    have known : name ∈ names := read List.mem_cons_self
    refine ⟨s.resolve scope name, rfl, ?_, ?_, fun value done => ?_⟩
    · rw [Scopes.resolve, same name known]
      rfl
    · unfold Scopes.resolve
      split
      · simp
      · simpa using blames name known
    · refine List.forall_mem_singleton.2 ?_
      unfold Scopes.resolve at done
      split at done
      · rename_i found
        simp [found]
      · cases done
  | .call name arguments, read, calls =>
    ((coincide_evaluateAll arguments read (List.subset_of_cons_subset calls)).bind
      (answers name (calls List.mem_cons_self))).mono And.left
  | .unary op operand, read, calls =>
    ((operand.coincide_evaluate read calls).bind fun value =>
      .ofExcept (value.blames_unary op)).mono And.left
  | .binary op left right, read, calls => by
    obtain ⟨read, read'⟩ := List.append_subset.1 read
    obtain ⟨calls, calls'⟩ := List.append_subset.1 calls
    have first := left.coincide_evaluate read calls
    have second := right.coincide_evaluate read' calls'
    refine (first.bind fun a => second.bind fun b => .ofExcept (a.blames_binary op b)).mono ?_
    exact fun bound => List.forall_mem_append.2 ⟨bound.1, bound.2.1⟩

theorem coincide_evaluateAll :
    (es : List Expr) → Expr.namesAll es ⊆ names → Expr.callsAll es ⊆ called →
      Coincide blamed (s.Binds scope (Expr.namesAll es)) (evaluateAll call scope es) s
        (evaluateAll call' scope' es) t
  | [], _, _ => (Coincide.ofExcept (.ok [])).mono fun _ => List.forall_mem_nil _
  | e :: es, read, calls => by
    obtain ⟨read, read'⟩ := List.append_subset.1 read
    obtain ⟨calls, calls'⟩ := List.append_subset.1 calls
    have first := e.coincide_evaluate read calls
    have others := coincide_evaluateAll es read' calls'
    refine (first.bind fun value => others.bind fun values => .ofExcept (.ok (value :: values))).mono ?_
    exact fun bound => List.forall_mem_append.2 ⟨bound.1, bound.2.1⟩

end

end

theorem Expr.coincide_eval (e : Expr)
    (routines : ∀ name, s.routine? scope name = t.routine? scope' name)
    (native : ∀ name ∈ e.calls, ∀ routine, s.routine? scope name = some routine →
      ∃ run, routine.body = .native run ∧ ∀ values, Blames blamed (run values))
    (same : ∀ name ∈ e.names, s.lookup scope name = t.lookup scope' name)
    (blames : ∀ name ∈ e.names, blamed name) :
    Coincide blamed (s.Binds scope e.names) (e.eval scope) s (e.eval scope') t := by
  refine e.coincide_evaluate same blames (fun name member values => ?_) (List.Subset.refl _)
    (List.Subset.refl _)
  exact Scopes.coincide_callWithin (routines name) (native name member) _ _ values

/-- The routine, if it is native, does not itself report the variable as unknown. -/
def Routine.Quiet (r : Routine) (name : String) : Prop :=
  ∀ run values, r.body = .native run → run values ≠ .error (.unknownVariable name)

end

namespace Sample

end Sample

end Rsrc
