import Rsrc.Proofs.Dict
import Rsrc.Proofs.Keeps

/-!
# What evaluation does to scopes

Evaluation in a scope makes frames and drops them again, and binds names in the scope itself and in
frames above it. So it keeps whatever holds of the frames below (`Tolerates`). Where all routines are
built in, it does not even bind names: the scopes are the same afterwards (`Plain`).
-/

namespace Rsrc

/-! ### Expressions and statements -/

section Evaluation

variable {I : Scopes → Prop} {call : Caller} {scope : ScopeId}

theorem keeps_ofExcept {α : Type} (result : Except EvalError α) :
    Keeps I (Eval.ofExcept result) := by
  intro s kept
  cases result with
  | ok a => exact ⟨kept, trivial⟩
  | error e => exact kept

mutual

theorem Expr.keeps_evaluate (calls : ∀ name values, Keeps I (call scope name values)) :
    (e : Expr) → Keeps I (e.evaluate call scope)
  | .literal _ => .pure trivial
  | .var _ => Stays.get.bind fun _ _ => keeps_ofExcept _
  | .call name arguments =>
    (keeps_evaluateAll calls arguments).andThen fun values => calls name values
  | .unary _ operand => (operand.keeps_evaluate calls).andThen fun _ => keeps_ofExcept _
  | .binary _ left right =>
    (left.keeps_evaluate calls).andThen fun _ =>
      (right.keeps_evaluate calls).andThen fun _ => keeps_ofExcept _

theorem keeps_evaluateAll (calls : ∀ name values, Keeps I (call scope name values)) :
    (es : List Expr) → Keeps I (evaluateAll call scope es)
  | [] => .pure trivial
  | e :: es =>
    (e.keeps_evaluate calls).andThen fun _ =>
      (keeps_evaluateAll calls es).andThen fun _ => .pure trivial

end

theorem keeps_runFrom (calls : ∀ name values, Keeps I (call scope name values))
    (statements : List Statement)
    (define : ∀ statement ∈ statements, ∀ name ∈ statement.target, ∀ {s : Scopes} value, I s →
      I (s.define scope name value)) (last : Value) :
    Keeps I (runFrom call scope last statements) := by
  induction statements generalizing last with
  | nil => exact .pure trivial
  | cons statement rest ih =>
    have later := ih fun statement member => define statement (List.mem_cons_of_mem _ member)
    refine Stays.andThen ?_ fun value => later value
    refine (statement.expr.keeps_evaluate calls).andThen fun value => ?_
    have here := define statement List.mem_cons_self
    cases named : statement.target with
    | none => exact .pure trivial
    | some target =>
      exact (Stays.modifyState fun s kept => here target named value kept).andThen
        fun _ => .pure trivial

/-- What a routine does when there are enough arguments. -/
def Routine.runBody (call : Caller) (r : Routine) (caller : ScopeId) (arguments : List Value) :
    Eval Value :=
  match r.body with
  | .native run => Eval.ofExcept (run arguments)
  | .script statements => r.runScript call statements caller arguments

theorem Routine.execute_eq (call : Caller) (r : Routine) (caller : ScopeId) (arguments : List Value) :
    r.execute call caller arguments =
      if arguments.length < r.arity then throw (.argumentCount r.name r.arity arguments.length)
      else r.runBody call caller arguments := rfl

theorem Routine.keeps_execute {r : Routine} {arguments : List Value}
    (script : ∀ statements, Keeps I (r.runScript call statements scope arguments)) :
    Keeps I (r.execute call scope arguments) := by
  rw [execute_eq]
  refine .ite (fun _ => .throw _) fun _ => ?_
  unfold runBody
  split
  · exact keeps_ofExcept _
  · exact script _

end Evaluation

namespace Scopes

variable {n : Nat} {s : Scopes} {scope : ScopeId} {name : String}

/-! ### Frames below -/

/-- The invariant says that there are `n` frames at least, and is kept when a frame is made, and when
one of the frames from `n` on has its bindings changed or is dropped. -/
structure Tolerates (n : Nat) (I : Scopes → Prop) : Prop where
  depth : ∀ {s}, I s → n ≤ s.depth
  push : ∀ {s} kind parent, I s → I (s.push kind parent)
  rebind : ∀ {s scope} (f : Dict Value → Dict Value), n ≤ scope.index → I s →
    I (s.modify scope fun frame => { frame with bindings := f frame.bindings })
  release : ∀ {s scope}, n ≤ scope.index → I s → I (s.release scope)

namespace Tolerates

variable {n : Nat} {I : Scopes → Prop} {s : Scopes} {scope : ScopeId} (h : Tolerates n I)
  (above : n ≤ scope.index)
include h above

theorem define (name : String) (value : Value) (kept : I s) : I (s.define scope name value) :=
  h.rebind (·.insert name value) above kept

theorem defineAll (bindings : List (String × Value)) (kept : I s) :
    I (s.defineAll scope bindings) := by
  induction bindings generalizing s with
  | nil => exact kept
  | cons binding bindings ih => exact ih (h.define above _ _ kept)

theorem dropLocals (front : String) (kept : I s) : I (s.dropLocals scope front) :=
  h.rebind (fun bindings => ⟨bindings.entries.filter fun binding => !Text.startsWith front binding.1⟩)
    above kept

variable {call : Caller} (calls : ∀ scope name values, n ≤ scope.index →
  Keeps I (call scope name values))
include calls

theorem runFrom (statements : List Statement) (last : Value) :
    Keeps I (runFrom call scope last statements) :=
  keeps_runFrom (fun name values => calls scope name values above) statements
    (fun _ _ name _ _ value kept => h.define above name value kept) last

theorem runScript (r : Routine) (statements : List Statement) (arguments : List Value) :
    Keeps I (r.runScript call statements scope arguments) := by
  intro s kept
  have fresh : n ≤ s.next.index := h.depth kept
  have entered := h.defineAll fresh (Routine.bindings 1 r.parameters arguments)
    (h.push .subscope scope kept)
  have ran := h.runFrom fresh calls statements (.integer 0) _ entered
  simp only [Routine.runScript]
  cases result : Rsrc.runFrom call s.next (.integer 0) statements
      ((s.push .subscope scope).defineAll s.next (Routine.bindings 1 r.parameters arguments)) with
  | ok value t =>
    rw [result] at ran
    exact ⟨h.defineAll above _ (h.release fresh ran.1), trivial⟩
  | error e t =>
    rw [result] at ran
    exact h.release fresh ran

theorem execute (r : Routine) (arguments : List Value) : Keeps I (r.execute call scope arguments) :=
  r.keeps_execute fun statements => h.runScript above calls r statements arguments

end Tolerates

variable {bindings : List (String × Value)}

theorem mem_modify {f : Frame → Frame} {frame : Frame} (h : frame ∈ (s.modify scope f).frames) :
    frame ∈ s.frames ∨ ∃ old ∈ s.frames, frame = f old := by
  rw [modify, List.modify_eq_take_drop, List.mem_append] at h
  rcases h with before | behind
  · exact .inl (List.mem_of_mem_take before)
  · cases rest : s.frames.drop scope.index with
    | nil => simp [rest] at behind
    | cons old later =>
      have known : ∀ x ∈ old :: later, x ∈ s.frames := fun x member =>
        List.mem_of_mem_drop (rest ▸ member)
      rw [rest, List.modifyHead_cons, List.mem_cons] at behind
      rcases behind with rfl | after
      · exact .inr ⟨old, known old List.mem_cons_self, rfl⟩
      · exact .inl (known frame (List.mem_cons_of_mem _ after))

/-- The frames at the bottom of the stack stay what they are. -/
theorem tolerates_prefix (frames : List Frame) :
    Tolerates frames.length fun s => frames <+: s.frames where
  depth h := h.length_le
  push kind parent h := h.trans (List.prefix_append ..)
  rebind f above h := by
    rw [modify, List.modify_eq_take_drop]
    exact (List.prefix_take_iff.2 ⟨h, above⟩).trans (List.prefix_append ..)
  release above h := List.prefix_take_iff.2 ⟨h, above.trans (Nat.le_max_left ..)⟩

/-! ### The number of frames -/

@[simp] theorem depth_modify (f : Frame → Frame) : (s.modify scope f).depth = s.depth := by
  simp [depth, modify]

@[simp] theorem depth_define (s : Scopes) (scope : ScopeId) (value : Value) :
    (s.define scope name value).depth = s.depth := depth_modify ..

@[simp] theorem depth_defineAll (s : Scopes) (scope : ScopeId) :
    (s.defineAll scope bindings).depth = s.depth := by
  induction bindings generalizing s with
  | nil => rfl
  | cons binding bindings ih => exact (ih _).trans (depth_define ..)

@[simp] theorem depth_push (s : Scopes) (kind : ScopeKind) (parent : ScopeId) :
    (s.push kind parent).depth = s.depth + 1 := by
  simp [depth, push]

theorem depth_truncate (some : 1 ≤ n) (enough : n ≤ s.depth) : (s.truncate n).depth = n := by
  rw [truncate, depth, List.length_take, Nat.max_eq_left some]
  exact Nat.min_eq_left enough

/-- A script is run in a frame of its own, which is gone afterwards. -/
theorem keeps_depth_runScript {call : Caller}
    (calls : ∀ n scope name values, 1 ≤ n →
      Keeps (fun s : Scopes => s.depth = n) (call scope name values)) (some : 1 ≤ n) (r : Routine)
    (statements : List Statement) (scope : ScopeId) (arguments : List Value) :
    Keeps (fun s : Scopes => s.depth = n) (r.runScript call statements scope arguments) := by
  rintro s rfl
  have ran := keeps_runFrom (I := fun t : Scopes => t.depth = s.depth + 1)
    (fun name values => calls _ s.next name values (Nat.le_add_left ..)) statements
    (fun _ _ name _ _ value kept => (depth_define ..).trans kept) (.integer 0)
    ((s.push .subscope scope).defineAll s.next (Routine.bindings 1 r.parameters arguments))
    (by simp)
  have released {t : Scopes} (deeper : t.depth = s.depth + 1) : (t.release s.next).depth = s.depth :=
    depth_truncate some (Nat.le_of_succ_le deeper.ge)
  simp only [Routine.runScript]
  cases result : runFrom call s.next (.integer 0) statements
      ((s.push .subscope scope).defineAll s.next (Routine.bindings 1 r.parameters arguments)) with
  | ok value t =>
    rw [result] at ran
    exact ⟨(depth_defineAll ..).trans (released ran.1), trivial⟩
  | error e t =>
    rw [result] at ran
    exact released ran

theorem keeps_depth_callWithin (limit : Nat) (scope : ScopeId) (name : String) (values : List Value)
    (some : 1 ≤ n) :
    Keeps (fun s : Scopes => s.depth = n) (callWithin limit scope name values) := by
  induction limit generalizing n scope name values with
  | zero => exact .throw _
  | succ limit ih =>
    unfold Scopes.callWithin
    refine Stays.get.bind fun s _ => ?_
    split
    · exact .throw _
    · exact Routine.keeps_execute fun _ =>
        keeps_depth_runScript (fun n scope name values => ih scope name values) some _ _ _ _

theorem keeps_depth_eval (some : 1 ≤ n) (e : Expr) :
    Keeps (fun s : Scopes => s.depth = n) (e.eval scope) :=
  e.keeps_evaluate fun name values => keeps_depth_callWithin _ scope name values some

theorem keeps_depth_execute (some : 1 ≤ n) (r : Routine) (arguments : List Value) :
    Keeps (fun s : Scopes => s.depth = n) (r.execute call scope arguments) :=
  r.keeps_execute fun _ => keeps_depth_runScript (fun _ => keeps_depth_callWithin _) some _ _ _ _

/-! ### Calls by name -/

section Calls

variable {s : Scopes} {scope : ScopeId} {name : String} {values : List Value} {depth : Nat}

theorem callWithin_of_none (h : s.routine? scope name = none) :
    callWithin (depth + 1) scope name values s = .error (.unknownRoutine name) s := by
  have look : (get : Eval Scopes) s = .ok s s := rfl
  rw [callWithin, bind_of_ok look, h]
  rfl

theorem callWithin_of_some {routine : Routine} (h : s.routine? scope name = some routine) :
    callWithin (depth + 1) scope name values s =
      routine.execute (callWithin depth) scope values s := by
  have look : (get : Eval Scopes) s = .ok s s := rfl
  rw [callWithin, bind_of_ok look, h]

end Calls

/-! ### Built-in routines -/

/-- There is a root, and all routines are built in. -/
structure Plain (s : Scopes) : Prop where
  rooted : s.frames ≠ []
  builtin : ∀ frame ∈ s.frames, ∀ binding ∈ frame.routines.entries, ∃ f : Builtin,
    binding.2.body = .native f.apply

theorem tolerates_plain : Tolerates 0 Plain where
  depth _ := Nat.zero_le _
  push kind parent h := by
    refine ⟨by simp [push], fun frame member => ?_⟩
    rcases List.mem_append.1 member with old | new
    · exact h.builtin frame old
    · rw [List.mem_singleton.1 new]
      simp
  rebind f _ h := by
    refine ⟨?_, fun frame member => ?_⟩
    · intro none
      exact h.rooted (by simpa [modify, List.modify_eq_nil_iff] using none)
    · rcases mem_modify member with old | ⟨old, known, rfl⟩
      · exact h.builtin frame old
      · exact h.builtin old known
  release {s scope} _ h := by
    refine ⟨?_, fun frame member => h.builtin frame (List.mem_of_mem_take member)⟩
    intro none
    rcases List.take_eq_nil_iff.1 none with zero | none
    · omega
    · exact h.rooted none

theorem Plain.initial : Plain .initial := by
  refine ⟨by simp [Scopes.initial], fun frame member binding known => ?_⟩
  rw [List.mem_singleton.1 member] at known
  rcases Dict.mem_foldl_insert known with listed | none
  · obtain ⟨f, -, rfl⟩ := List.mem_map.1 listed
    exact ⟨f, rfl⟩
  · cases none

theorem exists_of_findUp {α : Type} {answer : Frame → Option α} {length : Nat} {a : α}
    (h : s.findUp answer length scope = some a) : ∃ frame ∈ s.frames, answer frame = some a := by
  induction length generalizing scope with
  | zero => cases h
  | succ length ih =>
    unfold findUp at h
    cases found : s.frame? scope with
    | none => simp [found] at h
    | some frame =>
      rw [found] at h
      have known : frame ∈ s.frames := List.mem_of_getElem? found
      cases answered : answer frame with
      | some b =>
        simp only [answered] at h
        exact ⟨frame, known, answered.trans h⟩
      | none =>
        simp only [answered] at h
        cases up : frame.parent with
        | none => simp [up] at h
        | some parent =>
          rw [up] at h
          exact ih h

theorem Plain.builtin_of_routine? {routine : Routine} (h : s.Plain)
    (found : s.routine? scope name = some routine) :
    ∃ f : Builtin, routine.body = .native f.apply := by
  obtain ⟨frame, known, bound⟩ := exists_of_findUp found
  exact h.builtin frame known (name, routine) (Dict.mem_of_find? bound)

/-- Calls of built-in routines leave the scopes as they are. -/
theorem Plain.callWithin (h : s.Plain) (depth : Nat) (scope : ScopeId) (name : String)
    (values : List Value) : Keeps (· = s) (callWithin depth scope name values) := by
  cases depth with
  | zero => exact .throw _
  | succ depth =>
    unfold Scopes.callWithin
    refine Stays.get.bind fun t same => ?_
    subst same
    split
    · exact .throw _
    · rename_i routine found
      obtain ⟨f, body⟩ := h.builtin_of_routine? found
      rw [Routine.execute_eq]
      refine .ite (fun _ => .throw _) fun _ => ?_
      rw [Routine.runBody, body]
      exact keeps_ofExcept _

theorem Plain.call (h : s.Plain) (scope : ScopeId) (name : String) (values : List Value) :
    Keeps (· = s) (call scope name values) :=
  h.callWithin callLimit scope name values

theorem Plain.eval (h : s.Plain) (scope : ScopeId) (e : Expr) : Keeps (· = s) (e.eval scope) :=
  e.keeps_evaluate fun name values => h.call scope name values

/-! ### Names that routines bind -/

/-- The names bound in a scope. -/
def names (s : Scopes) (scope : ScopeId) : List String := (s.locals scope).keys

theorem names_push (kind : ScopeKind) (parent : ScopeId) : (s.push kind parent).names s.next = [] := by
  have there : (s.push kind parent).frame? s.next = some { parent := some parent, kind } :=
    List.getElem?_concat_length
  simp [names, locals, there, Dict.keys]

theorem mem_names_define {name other : String} {value : Value}
    (h : other ∈ (s.define scope name value).names scope) :
    other = name ∨ other ∈ s.names scope := by
  have changed : (s.define scope name value).frame? scope =
      (s.frame? scope).map fun f => { f with bindings := f.bindings.insert name value } := by
    simp [define, modify, frame?]
  simp only [names, locals, Dict.keys, changed] at h ⊢
  cases found : s.frame? scope with
  | none =>
    rw [found] at h
    exact .inr h
  | some frame =>
    rw [found] at h
    obtain ⟨binding, member, rfl⟩ := List.mem_map.1 h
    rcases Dict.mem_put member with rfl | old
    · exact .inl rfl
    · exact .inr (List.mem_map_of_mem old)

theorem mem_names_defineAll (h : name ∈ (s.defineAll scope bindings).names scope) :
    name ∈ bindings.map (·.1) ∨ name ∈ s.names scope := by
  induction bindings generalizing s with
  | nil => exact .inr h
  | cons binding bindings ih =>
    rcases ih h with later | before
    · exact .inl (List.mem_cons_of_mem _ later)
    · rcases mem_names_define before with rfl | old
      · exact .inl List.mem_cons_self
      · exact .inr old

theorem mem_localsBehind {front : String} {binding : String × Value}
    (h : binding ∈ s.localsBehind scope front) :
    ∃ name ∈ s.names scope, Text.stripFront? front name = some binding.1 := by
  obtain ⟨⟨name, value⟩, member, stripped⟩ := List.mem_filterMap.1 h
  obtain ⟨rest, found, rfl⟩ := Option.map_eq_some_iff.1 stripped
  exact ⟨name, List.mem_map_of_mem member, found⟩

/-- What was made meanwhile is dropped. -/
theorem release_of_prefix {t : Scopes} (rooted : s.frames ≠ []) (h : s.frames <+: t.frames) :
    t.release s.next = s := by
  have some : 1 ≤ s.depth := List.length_pos_iff.2 rooted
  rw [release, truncate]
  change (⟨t.frames.take (max s.depth 1)⟩ : Scopes) = s
  rw [Nat.max_eq_left some]
  exact congrArg Scopes.mk (List.prefix_iff_eq_take.1 h).symm

end Scopes

namespace Routine

/-- The names that a call of the routine can bind, the numbers of arguments apart. -/
def boundNames (r : Routine) : List String :=
  r.parameters ++ match r.body with
    | .native _ => []
    | .script statements => statements.filterMap (·.target)

theorem mem_bindings {position : Nat} {parameters : List String} {arguments : List Value}
    {name : String} (h : name ∈ (bindings position parameters arguments).map (·.1)) :
    name ∈ parameters ∨ ∃ i : Nat, name = toString i := by
  induction arguments generalizing position parameters with
  | nil => cases parameters <;> cases h
  | cons value values ih =>
    cases parameters with
    | nil =>
      rcases List.mem_cons.1 h with rfl | later
      · exact .inr ⟨position, rfl⟩
      · exact ih later
    | cons parameter parameters =>
      rcases List.mem_cons.1 h with rfl | later
      · exact .inl List.mem_cons_self
      · rcases List.mem_cons.1 later with rfl | later
        · exact .inr ⟨position, rfl⟩
        · exact (ih later).imp_left (List.mem_cons_of_mem _)

end Routine

end Rsrc
