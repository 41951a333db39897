import Rsrc.Proofs.Scopes

/-!
# Calls leave no trace but the watched names

A script runs in a frame of its own, on top of all others. Whatever it does, calls of other routines
included, is a series of bindings in that frame (`Scopes.Extends`): a call that is made inside binds
names in the frame of its caller when it succeeds, and leaves the scopes as they were when it fails.
So the frame can be dropped, and what remains of a call are the watched names in the caller's frame
(`Scopes.call_isolated`).
-/

namespace Rsrc

namespace Scopes

variable {s t : Scopes} {scope : ScopeId} {kind : ScopeKind}

/-! ### Many bindings in one frame -/

theorem defineAll_append (first second : List (String × Value)) :
    s.defineAll scope (first ++ second) = (s.defineAll scope first).defineAll scope second := by
  simp [defineAll]

theorem defineAll_eq_modify (bindings : List (String × Value)) :
    s.defineAll scope bindings = s.modify scope fun f =>
      { f with bindings := bindings.foldl (fun d (name, value) => d.insert name value) f.bindings } := by
  induction bindings generalizing s with
  | nil =>
    show s = ⟨s.frames.modify scope.index id⟩
    rw [List.modify_id]
  | cons binding bindings ih =>
    have step : s.defineAll scope (binding :: bindings) =
        (s.define scope binding.1 binding.2).defineAll scope bindings := rfl
    rw [step, ih]
    simp only [define, modify, List.modify_modify_eq]
    rfl

theorem frame?_defineAll_self (bindings : List (String × Value)) :
    (s.defineAll scope bindings).frame? scope = (s.frame? scope).map fun f =>
      { f with bindings := bindings.foldl (fun d (name, value) => d.insert name value) f.bindings } := by
  simp [defineAll_eq_modify, modify, frame?]

theorem frame?_defineAll_of_ne {other : ScopeId} (h : other ≠ scope) (bindings : List (String × Value)) :
    (s.defineAll scope bindings).frame? other = s.frame? other := by
  have differ : scope.index ≠ other.index := by
    intro same
    exact h (by cases other; cases scope; simp_all)
  simp [defineAll_eq_modify, modify, frame?, List.getElem?_modify_ne _ _ differ]

/-- Bindings change nothing of a frame that does not have to do with names. -/
theorem map_frame?_defineAll {α : Type} {p : Frame → α}
    (h : ∀ (f : Frame) (d : Dict Value), p { f with bindings := d } = p f) (s : Scopes)
    (scope other : ScopeId) (bindings : List (String × Value)) :
    ((s.defineAll scope bindings).frame? other).map p = (s.frame? other).map p := by
  by_cases same : other = scope
  · subst same
    simp [frame?_defineAll_self, Function.comp_def, h]
  · rw [frame?_defineAll_of_ne same]

variable {bindings : List (String × Value)}

theorem parent?_eq_join : s.parent? scope = ((s.frame? scope).map (·.parent)).join := by
  unfold parent?
  cases s.frame? scope <;> rfl

theorem parent?_defineAll (s : Scopes) (scope other : ScopeId) :
    (s.defineAll scope bindings).parent? other = s.parent? other := by
  rw [parent?_eq_join, parent?_eq_join, map_frame?_defineAll fun _ _ => rfl]

variable {parent : ScopeId}

theorem get?_locals_defineAll (live : scope.index < s.depth) (name : String) :
    ((s.defineAll scope bindings).locals scope).get? name =
      (Dict.find? name bindings.reverse).or ((s.locals scope).get? name) := by
  have there : s.frame? scope = some s.frames[scope.index] := List.getElem?_eq_getElem live
  simp [locals, frame?_defineAll_self, there, Dict.get?_foldl_insert]

/-! ### The frame of a call -/

/-- The scopes differ by bindings in the frame of the scope. -/
def Extends (s : Scopes) (scope : ScopeId) (t : Scopes) : Prop :=
  ∃ bindings, t = s.defineAll scope bindings

theorem Extends.defineAll (h : s.Extends scope t) (bindings : List (String × Value)) :
    s.Extends scope (t.defineAll scope bindings) := by
  obtain ⟨earlier, rfl⟩ := h
  exact ⟨earlier ++ bindings, (defineAll_append ..).symm⟩

theorem Extends.define (h : s.Extends scope t) (name : String) (value : Value) :
    s.Extends scope (t.define scope name value) :=
  h.defineAll [(name, value)]

theorem Extends.depth (h : s.Extends scope t) : t.depth = s.depth := by
  obtain ⟨bindings, rfl⟩ := h
  exact depth_defineAll ..

/-- From every scope that is there, the computation binds names in that scope if it succeeds, and
leaves everything as it is if it fails. -/
def Atomic (scope : ScopeId) (x : Eval Value) : Prop :=
  ∀ s : Scopes, scope.index < s.depth →
    match x s with
    | .ok _ t => s.Extends scope t
    | .error _ t => t = s

theorem Atomic.keeps {x : Eval Value} (h : Atomic scope x) (live : scope.index < s.depth) :
    Keeps (s.Extends scope) x := by
  intro t extended
  have result := h t (extended.depth ▸ live)
  cases run : x t with
  | ok value u =>
    rw [run] at result
    obtain ⟨bindings, rfl⟩ := result
    exact ⟨extended.defineAll bindings, trivial⟩
  | error e u =>
    rw [run] at result
    exact result ▸ extended

theorem frame?_push : (s.push kind parent).frame? s.next = some { parent := some parent, kind } :=
  List.getElem?_concat_length

/-- The bindings of a new frame are those that have been made there. -/
theorem Extends.sorted_locals (h : (s.push kind parent).Extends s.next t) :
    (t.locals s.next).Sorted := by
  obtain ⟨bindings, rfl⟩ := h
  simp only [locals, frame?_defineAll_self, frame?_push, Option.map_some, Option.getD_some]
  exact Dict.Sorted.empty.foldl_insert bindings

/-- Nothing but the new frame has changed, so it can be dropped. -/
theorem Extends.release (rooted : s.frames ≠ []) (h : (s.push kind parent).Extends s.next t) :
    t.release s.next = s := by
  obtain ⟨bindings, rfl⟩ := h
  apply release_of_prefix rooted
  have kept := tolerates_prefix s.frames
  exact kept.defineAll (Nat.le_refl _) bindings (List.prefix_append ..)

end Scopes

namespace Routine

variable {call : Caller} {s : Scopes} {caller : ScopeId}

/-- The scopes in which the script of a routine starts. -/
def entered (r : Routine) (caller : ScopeId) (arguments : List Value) (s : Scopes) : Scopes :=
  (s.push .subscope caller).defineAll s.next (bindings 1 r.parameters arguments)

/-- The names that a call has bound in its own frame when its script has run. Native routines have
no frame. -/
def ownBindings (call : Caller) (r : Routine) (caller : ScopeId) (arguments : List Value)
    (s : Scopes) : Dict Value :=
  match r.body with
  | .native _ => {}
  | .script statements =>
    match runFrom call s.next (.integer 0) statements (r.entered caller arguments s) with
    | .ok _ t => t.locals s.next
    | .error _ _ => {}

section

variable (calls : ∀ scope name values, Scopes.Atomic scope (call scope name values))
include calls

/-- A script changes its own frame only. -/
theorem keeps_runFrom_entered (statements : List Statement) :
    Keeps ((s.push .subscope caller).Extends s.next)
      (runFrom call s.next (.integer 0) statements) := by
  have live : s.next.index < (s.push .subscope caller).depth := by
    simp [Scopes.next]
  apply keeps_runFrom
  · intro name values
    exact (calls s.next name values).keeps live
  · intro _ _ name _ t value extended
    exact extended.define name value

/-- What remains of a call are the watched names of its frame. -/
theorem runScript_eq (r : Routine) (statements : List Statement) (arguments : List Value)
    (live : caller.index < s.depth) :
    r.runScript call statements caller arguments s =
      match runFrom call s.next (.integer 0) statements (r.entered caller arguments s) with
      | .ok value t =>
        .ok value (s.defineAll caller ((t.locals s.next).entries.filter (r.isWatched ·.1)))
      | .error e _ => .error e s := by
  have rooted : s.frames ≠ [] := by
    intro none
    simp [Scopes.depth, none] at live
  have started : (s.push .subscope caller).Extends s.next (r.entered caller arguments s) := ⟨_, rfl⟩
  have ran := keeps_runFrom_entered calls statements _ started
  simp only [runScript]
  change (match runFrom call s.next (.integer 0) statements (r.entered caller arguments s) with
    | .ok value t => _
    | .error e t => _) = _
  cases run : runFrom call s.next (.integer 0) statements (r.entered caller arguments s) with
  | ok value t =>
    rw [run] at ran
    simp only [ran.1.release rooted]
  | error e t =>
    rw [run] at ran
    simp only [Scopes.Extends.release rooted ran]

theorem sorted_ownBindings (r : Routine) (caller : ScopeId) (arguments : List Value) (s : Scopes) :
    (r.ownBindings call caller arguments s).Sorted := by
  unfold ownBindings
  cases r.body with
  | native run => exact Dict.Sorted.empty
  | script statements =>
    have started : (s.push .subscope caller).Extends s.next (r.entered caller arguments s) := ⟨_, rfl⟩
    have ran := keeps_runFrom_entered calls statements _ started
    dsimp only
    cases run : runFrom call s.next (.integer 0) statements (r.entered caller arguments s) with
    | ok value t =>
      rw [run] at ran
      exact ran.1.sorted_locals
    | error e t => exact Dict.Sorted.empty

/-- What a call leaves, whether the routine is native or a script. -/
theorem execute_leaves (r : Routine) (arguments : List Value) (live : caller.index < s.depth) :
    match r.execute call caller arguments s with
    | .ok _ t => t = s.defineAll caller
        ((r.ownBindings call caller arguments s).entries.filter (r.isWatched ·.1))
    | .error _ t => t = s := by
  rw [execute_eq]
  by_cases few : arguments.length < r.arity
  · simp only [if_pos few]
    rfl
  · simp only [if_neg few, runBody, ownBindings]
    cases r.body with
    | native run =>
      dsimp only
      cases run arguments with
      | ok value => rfl
      | error e => rfl
    | script statements =>
      dsimp only
      rw [runScript_eq calls r statements arguments live]
      cases runFrom call s.next (.integer 0) statements (r.entered caller arguments s) with
      | ok value t => rfl
      | error e t => rfl

theorem atomic_execute (r : Routine) (caller : ScopeId) (arguments : List Value) :
    Scopes.Atomic caller (r.execute call caller arguments) := by
  intro s live
  have left := r.execute_leaves calls arguments live
  cases run : r.execute call caller arguments s with
  | ok value t =>
    rw [run] at left
    exact ⟨_, left⟩
  | error e t =>
    rw [run] at left
    exact left

end

end Routine

namespace Scopes

theorem atomic_callWithin (limit : Nat) (scope : ScopeId) (name : String) (values : List Value) :
    Atomic scope (callWithin limit scope name values) := by
  induction limit generalizing scope name values with
  | zero => intro s _; rfl
  | succ limit ih =>
    intro s live
    cases found : s.routine? scope name with
    | none => rw [callWithin_of_none found]
    | some r =>
      rw [callWithin_of_some found]
      exact r.atomic_execute ih scope values s live

end Scopes

/-! ### Names that a call binds -/

namespace Routine

variable {s : Scopes} {caller : ScopeId} {arguments : List Value}

/-- Where all other routines are built in, the script of a routine binds the names of the routine. -/
theorem mem_ownBindings (r : Routine) (plain : s.Plain) {binding : String × Value}
    (h : binding ∈ (r.ownBindings Scopes.call caller arguments s).entries) :
    binding.1 ∈ r.boundNames ∨ ∃ i : Nat, binding.1 = toString i := by
  unfold ownBindings at h
  cases made : r.body with
  | native run =>
    rw [made] at h
    cases h
  | script statements =>
    rw [made] at h
    let inside (u : Scopes) : Prop := u.Plain ∧ ∀ name ∈ u.names s.next,
      name ∈ r.boundNames ∨ ∃ i : Nat, name = toString i
    have entered : inside (r.entered caller arguments s) := by
      refine ⟨Scopes.tolerates_plain.defineAll (Nat.zero_le _) _
        (Scopes.tolerates_plain.push _ _ plain), fun name member => ?_⟩
      rcases Scopes.mem_names_defineAll member with passed | none
      · exact (mem_bindings passed).imp_left (List.mem_append_left _)
      · rw [Scopes.names_push] at none
        cases none
    have runs : Keeps inside (runFrom Scopes.call s.next (.integer 0) statements) := by
      refine keeps_runFrom
        (fun name values => .of_unchanged fun u kept => kept.1.call s.next name values) statements
        (fun statement known name named u value kept => ?_) _
      refine ⟨Scopes.tolerates_plain.define (Nat.zero_le _) name value kept.1, fun other member => ?_⟩
      rcases Scopes.mem_names_define member with rfl | old
      · rw [boundNames, made]
        exact .inl (List.mem_append_right _ (List.mem_filterMap.2 ⟨statement, known, named⟩))
      · exact kept.2 other old
    dsimp only at h
    cases result : runFrom Scopes.call s.next (.integer 0) statements
        (r.entered caller arguments s) with
    | error e u =>
      rw [result] at h
      cases h
    | ok value u =>
      rw [result] at h
      exact (runs.of_ok entered result).1.2 _ (List.mem_map_of_mem h)

/-- Where all other routines are built in, a call binds its own names for its caller, and no others. -/
theorem names_execute (r : Routine) (plain : s.Plain) (live : caller.index < s.depth) {value : Value}
    {t : Scopes} (ran : r.execute Scopes.call caller arguments s = .ok value t) {name : String}
    (h : name ∈ t.names caller) :
    name ∈ s.names caller ∨ name ∈ r.boundNames ∨ ∃ i : Nat, name = toString i := by
  have left := r.execute_leaves (Scopes.atomic_callWithin Scopes.callLimit) arguments live
  rw [Scopes.call] at ran
  rw [ran] at left
  obtain rfl := left
  rcases Scopes.mem_names_defineAll h with watched | old
  · obtain ⟨binding, kept, rfl⟩ := List.mem_map.1 watched
    exact .inr (r.mem_ownBindings plain (List.mem_filter.1 kept).1)
  · exact .inl old

end Routine

namespace Scopes

/-! ### What a call leaves -/

/-- `t` is `s` but for names that are watched and that the call's own frame binds: these have their
values from there in the frame of the caller. -/
structure Commits (s : Scopes) (caller : ScopeId) (r : Routine) (own : Dict Value) (t : Scopes) :
    Prop where
  depth : t.depth = s.depth
  others : ∀ scope, scope ≠ caller → t.frame? scope = s.frame? scope
  routines : ∀ scope, (t.frame? scope).map (·.routines) = (s.frame? scope).map (·.routines)
  links : ∀ scope, t.parent? scope = s.parent? scope ∧ t.kind? scope = s.kind? scope
  watched : ∀ name value, r.isWatched name → own.get? name = some value →
    (t.locals caller).get? name = some value
  unwatched : ∀ name, r.isWatched name = false ∨ own.get? name = none →
    (t.locals caller).get? name = (s.locals caller).get? name

theorem Commits.of_defineAll {s : Scopes} {caller : ScopeId} (live : caller.index < s.depth)
    (r : Routine) {own : Dict Value} (sorted : own.Sorted) :
    s.Commits caller r own (s.defineAll caller (own.entries.filter (r.isWatched ·.1))) := by
  have bound (name : String) :
      ((s.defineAll caller (own.entries.filter (r.isWatched ·.1))).locals caller).get? name =
        (if r.isWatched name then own.get? name else none).or ((s.locals caller).get? name) := by
    have distinct := sorted.nodup_keys.sublist
      ((List.filter_sublist (p := (r.isWatched ·.1)) (l := own.entries)).map (·.1))
    rw [get?_locals_defineAll live, Dict.find?_reverse distinct, Dict.find?_filter]
    rfl
  exact {
    depth := depth_defineAll ..
    others := fun scope differ => frame?_defineAll_of_ne differ _
    routines := fun scope => map_frame?_defineAll (fun _ _ => rfl) ..
    links := fun scope =>
      ⟨parent?_defineAll .., map_frame?_defineAll (p := (·.kind)) (fun _ _ => rfl) ..⟩
    watched := fun name value chosen known => by simp [bound, chosen, known]
    unwatched := fun name free => by
      rcases free with free | free
      · simp [bound, free]
      · simp [bound, free] }

end Scopes

theorem Routine.commits_execute {call : Caller} {s : Scopes} {caller : ScopeId}
    (calls : ∀ scope name values, Scopes.Atomic scope (call scope name values)) (r : Routine)
    (arguments : List Value) (live : caller.index < s.depth) :
    match r.execute call caller arguments s with
    | .ok _ t => s.Commits caller r (r.ownBindings call caller arguments s) t
    | .error _ t => t = s := by
  have left := r.execute_leaves calls arguments live
  cases run : r.execute call caller arguments s with
  | ok value t =>
    simp only [run] at left
    rw [left]
    exact Scopes.Commits.of_defineAll live r (r.sorted_ownBindings calls caller arguments s)
  | error e t =>
    rw [run] at left
    exact left

namespace Scopes

/-- Whatever a routine does, and however deeply it calls others, a call of it from a scope that is
there leaves the scopes as they were if it fails; if it succeeds, it has bound the watched names in the
frame of its caller to the values that they had in its own frame, and nothing else has changed. The
same holds of a call by name. -/
theorem call_isolated (limit : Nat) {s : Scopes} {caller : ScopeId} (live : caller.index < s.depth)
    (arguments : List Value) :
    (∀ r : Routine,
      match r.execute (callWithin limit) caller arguments s with
      | .ok _ t => s.Commits caller r (r.ownBindings (callWithin limit) caller arguments s) t
      | .error _ t => t = s) ∧
    ∀ name : String,
      match callWithin limit caller name arguments s with
      | .ok _ t => ∃ inner r, limit = inner + 1 ∧ s.routine? caller name = some r ∧
          s.Commits caller r (r.ownBindings (callWithin inner) caller arguments s) t
      | .error _ t => t = s := by
  constructor
  · intro r
    exact r.commits_execute (atomic_callWithin limit) arguments live
  · intro name
    cases limit with
    | zero => rfl
    | succ inner =>
      cases found : s.routine? caller name with
      | none => rw [callWithin_of_none found]
      | some r =>
        have left := r.commits_execute (atomic_callWithin inner) arguments live
        rw [callWithin_of_some found]
        cases run : r.execute (callWithin inner) caller arguments s with
        | ok value t =>
          rw [run] at left
          exact ⟨inner, r, rfl, rfl, left⟩
        | error e t =>
          rw [run] at left
          exact left

end Scopes

namespace Sample

def line (target : Option String) (expr : Expr) : Statement where
  target
  expr
  origin := { kind := .identifier, text := "", start := 0, stop := 0, source := default }

/-- Notes what it is given, for its caller. -/
def noting : Routine where
  name := "note"
  parameters := ["n"]
  watches := [.exact "seen"]
  body := .script [line "seen" (.var "n")]

/-- Uses what a call inside has noted. -/
def doubling : Routine where
  name := "double"
  parameters := ["n"]
  watches := [.front "this."]
  body := .script [line "this.total" (.binary .add (.call "note" [.var "n"]) (.var "seen"))]

/-- Fails behind a call that has succeeded. -/
def failing : Routine where
  name := "fail"
  parameters := ["n"]
  watches := [.front "this."]
  body := .script [line "this.total" (.call "double" [.var "n"]), line none (.var "missing")]

/-- A caller's frame above a root with these routines. -/
def calling : Scopes :=
  Scopes.push ⟨[{ parent := none, kind := .root
                  routines := .ofList [("note", noting), ("double", doubling), ("fail", failing)] }]⟩
    .shadow Scopes.rootId

end Sample

theorem Scopes.call_isolated_nested :
    (∃ value t, callWithin 2 ⟨1⟩ "double" [.integer 5] Sample.calling = .ok value t ∧ t.depth = 2 ∧
      t.frame? rootId = Sample.calling.frame? rootId ∧
      (t.locals ⟨1⟩).get? "this.total" = some (.integer 10) ∧ (t.locals ⟨1⟩).get? "seen" = none) ∧
    ∃ e, callWithin 3 ⟨1⟩ "fail" [.integer 5] Sample.calling = .error e Sample.calling := by
  have live : (⟨1⟩ : ScopeId).index < Sample.calling.depth := by decide
  constructor
  · have found : Sample.calling.routine? ⟨1⟩ "double" = some Sample.doubling := rfl
    have left := (call_isolated 2 live [.integer 5]).2 "double"
    obtain ⟨value, t, run⟩ : ∃ value t,
        callWithin 2 ⟨1⟩ "double" [.integer 5] Sample.calling = .ok value t := ⟨_, _, rfl⟩
    rw [run] at left
    obtain ⟨inner, r, limit, called, commits⟩ := left
    obtain rfl : inner = 1 := by omega
    obtain rfl : Sample.doubling = r := Option.some.inj (found.symm.trans called)
    exact ⟨value, t, run, commits.depth, commits.others rootId (by decide),
      commits.watched "this.total" _ (by decide) rfl, commits.unwatched "seen" (.inl (by decide))⟩
  · have left := (call_isolated 3 live [.integer 5]).2 "fail"
    obtain ⟨e, t, run⟩ : ∃ e t,
        callWithin 3 ⟨1⟩ "fail" [.integer 5] Sample.calling = .error e t := ⟨_, _, rfl⟩
    rw [run] at left
    exact ⟨e, left ▸ run⟩

end Rsrc
