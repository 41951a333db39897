import Mathlib.Data.List.Induction
import Mathlib.Logic.Relation
import Rsrc.Proofs.Scopes.Calls

/-!
# Chains of parents

A frame is made under a scope, of which only the position is known: by then, the frame at that position
may have been dropped. As long as every frame is made under one that is there, parents lie below their
children (`Scopes.Grounded`), and a search along them comes to the root. This is what the operations on
scopes keep, and a frame that is made under a missing one is what breaks it
(`Scopes.grounded_along_iff`): such a frame may be its own parent, and a search from there has no end.
-/

namespace Rsrc.Scopes

variable {s t : Scopes} {scope parent : ScopeId} {frame : Frame} {α : Type}

/-- The root has no parent, and every other frame has one that lies below it. -/
structure Grounded (s : Scopes) : Prop where
  rooted : 0 < s.depth
  root : s.parent? rootId = none
  below : ∀ scope, 0 < scope.index → scope.index < s.depth →
    ∃ parent, s.parent? scope = some parent ∧ parent.index < scope.index

/-! ### Searches -/

/-- A search up the chain of parents, for as long as it takes, ends with the result. -/
inductive SearchEnds {α : Type} (s : Scopes) (answer : Frame → Option α) :
    ScopeId → Option α → Prop where
  | missing {scope : ScopeId} (gone : s.frame? scope = none) : SearchEnds s answer scope none
  | found {scope : ScopeId} {frame : Frame} {a : α} (here : s.frame? scope = some frame)
      (known : answer frame = some a) : SearchEnds s answer scope (some a)
  | top {scope : ScopeId} {frame : Frame} (here : s.frame? scope = some frame)
      (unknown : answer frame = none) (root : frame.parent = none) : SearchEnds s answer scope none
  | up {scope parent : ScopeId} {frame : Frame} {result : Option α}
      (here : s.frame? scope = some frame) (unknown : answer frame = none)
      (next : frame.parent = some parent) (rest : SearchEnds s answer parent result) :
      SearchEnds s answer scope result

theorem parent?_of_frame? (h : s.frame? scope = some frame) : s.parent? scope = frame.parent := by
  simp [parent?, h]

theorem frame?_eq_none (h : s.depth ≤ scope.index) : s.frame? scope = none :=
  List.getElem?_eq_none h

theorem lt_depth_of_frame? (h : s.frame? scope = some frame) : scope.index < s.depth :=
  (List.getElem?_eq_some_iff.1 h).1

theorem Grounded.parent_lt (h : s.Grounded) (up : s.parent? scope = some parent) :
    parent.index < scope.index := by
  obtain ⟨frame, here, -⟩ := Option.bind_eq_some_iff.1 up
  by_cases zero : scope.index = 0
  · have same : scope = rootId := by cases scope; simp_all [rootId]
    rw [same, h.root] at up
    cases up
  · obtain ⟨parent', up', lower⟩ := h.below scope (by omega) (lt_depth_of_frame? here)
    rw [up] at up'
    cases up'
    exact lower

/-- A search never takes more steps than there are frames below. -/
theorem Grounded.searchEnds_findUp (h : s.Grounded) (answer : Frame → Option α) {length : Nat}
    (enough : scope.index < length) : s.SearchEnds answer scope (s.findUp answer length scope) := by
  induction length generalizing scope with
  | zero => omega
  | succ length ih =>
    cases here : s.frame? scope with
    | none =>
      simp only [findUp, here]
      exact .missing here
    | some frame =>
      cases known : answer frame with
      | some a =>
        simp only [findUp, here, known]
        exact .found here known
      | none =>
        cases next : frame.parent with
        | none =>
          simp only [findUp, here, known, next]
          exact .top here known next
        | some parent =>
          have lower := h.parent_lt ((parent?_of_frame? here).trans next)
          simp only [findUp, here, known, next]
          exact .up here known next (ih (by omega))

theorem Grounded.searchEnds (h : s.Grounded) (answer : Frame → Option α) (scope : ScopeId) :
    s.SearchEnds answer scope (s.findUp answer s.depth scope) := by
  by_cases live : scope.index < s.depth
  · exact h.searchEnds_findUp answer live
  · have gone : s.frame? scope = none := frame?_eq_none (by omega)
    have nothing : s.findUp answer s.depth scope = none := by
      cases s.depth <;> simp [findUp, gone]
    rw [nothing]
    exact .missing gone

/-- The next frame up the chain. -/
def Up (s : Scopes) (a b : ScopeId) : Prop := s.parent? a = some b

theorem Grounded.reaches_root (h : s.Grounded) (live : scope.index < s.depth) :
    Relation.ReflTransGen s.Up scope rootId := by
  obtain ⟨index⟩ := scope
  induction index using Nat.strong_induction_on with
  | _ index ih =>
    by_cases zero : index = 0
    · subst zero
      exact .refl
    · obtain ⟨parent, up, lower⟩ := h.below ⟨index⟩ (Nat.pos_of_ne_zero zero) live
      exact .head up (ih parent.index lower (Nat.lt_trans lower live))

/-- All searches end with what is looked up, and all chains lead to the root. -/
structure Searchable (s : Scopes) : Prop where
  root : ∀ scope, scope.index < s.depth → Relation.ReflTransGen s.Up scope rootId
  lookup : ∀ scope name, s.SearchEnds (·.bindings.get? name) scope (s.lookup scope name)
  routine : ∀ scope name, s.SearchEnds (·.routines.get? name) scope (s.routine? scope name)

theorem Grounded.searchable (h : s.Grounded) : s.Searchable where
  root _ live := h.reaches_root live
  lookup scope _ := h.searchEnds _ scope
  routine scope _ := h.searchEnds _ scope

/-- From a frame that is its own parent, a search for something else goes on forever. -/
theorem not_searchEnds_of_own_parent {answer : Frame → Option α}
    (here : s.frame? scope = some frame) (own : frame.parent = some scope)
    (unknown : answer frame = none) (result : Option α) : ¬ s.SearchEnds answer scope result := by
  intro ends
  generalize start : scope = first at ends
  induction ends with
  | missing gone => simp_all
  | found there known => simp_all
  | top there _ root => simp_all
  | up there _ next _ ih =>
    subst start
    rw [here] at there
    cases there
    rw [own] at next
    cases next
    exact ih rfl

/-! ### Operations -/

/-- The operations on scopes. A call may have as many calls inside one another as its limit says. -/
inductive Operation where
  | shadow (parent : ScopeId)
  | subscope (parent : ScopeId)
  | release (scope : ScopeId)
  | truncate (depth : Nat)
  | define (scope : ScopeId) (name : String) (value : Value)
  | defineIfAbsent (scope : ScopeId) (name : String) (value : Value)
  | takeLocals (scope : ScopeId) (front : String)
  | addRoutine (scope : ScopeId) (r : Routine)
  | call (limit : Nat) (scope : ScopeId) (name : String) (arguments : List Value)

namespace Operation

/-- The scopes after an operation, also after a call that fails. -/
def apply (s : Scopes) : Operation → Scopes
  | shadow parent => s.push .shadow parent
  | subscope parent => s.push .subscope parent
  | release scope => s.release scope
  | truncate depth => s.truncate depth
  | define scope name value => s.define scope name value
  | defineIfAbsent scope name value => s.defineIfAbsent scope name value
  | takeLocals scope front => s.dropLocals scope front
  | addRoutine scope r => s.addRoutine scope r
  | call limit scope name arguments =>
    match callWithin limit scope name arguments s with
    | .ok _ t => t
    | .error _ t => t

/-- If the operation makes a frame, it does so under one that is there. -/
def Attached (s : Scopes) : Operation → Prop
  | shadow parent | subscope parent => parent.index < s.depth
  | _ => True

end Operation

/-- The scopes after operations that start with the root alone. -/
def run (operations : List Operation) : Scopes := operations.foldl Operation.apply initial

theorem run_concat (operations : List Operation) (operation : Operation) :
    run (operations ++ [operation]) = operation.apply (run operations) := by
  simp [run]

/-! ### What an operation does to the parents -/

/-- Only the parents matter. -/
theorem Grounded.of_parents (h : s.Grounded) (depth : t.depth = s.depth)
    (parents : ∀ scope, t.parent? scope = s.parent? scope) : t.Grounded where
  rooted := depth ▸ h.rooted
  root := (parents rootId).trans h.root
  below scope positive live := by
    rw [parents]
    exact h.below scope positive (depth ▸ live)

theorem parent?_modify {f : Frame → Frame} (h : ∀ frame, (f frame).parent = frame.parent)
    (scope other : ScopeId) : (s.modify scope f).parent? other = s.parent? other := by
  simp only [parent?, frame?, modify, List.getElem?_modify]
  cases s.frames[other.index]? with
  | none => rfl
  | some frame =>
    by_cases same : scope.index = other.index
    · simp [same, h]
    · simp [same]

theorem Grounded.modify (h : s.Grounded) (scope : ScopeId) {f : Frame → Frame}
    (same : ∀ frame, (f frame).parent = frame.parent) : (s.modify scope f).Grounded :=
  h.of_parents (depth_modify ..) fun other => parent?_modify same scope other

theorem Grounded.extends (h : s.Grounded) (extended : s.Extends scope t) : t.Grounded := by
  obtain ⟨bindings, rfl⟩ := extended
  exact h.of_parents (depth_defineAll ..) fun other => parent?_defineAll ..

theorem Grounded.truncate (h : s.Grounded) (depth : Nat) : (s.truncate depth).Grounded := by
  have short : (s.truncate depth).depth ≤ s.depth ∧ (s.truncate depth).depth ≤ max depth 1 ∧
      0 < (s.truncate depth).depth := by
    have := h.rooted
    simp only [Scopes.truncate, Scopes.depth, List.length_take] at *
    omega
  have same : ∀ scope, scope.index < max depth 1 →
      (s.truncate depth).parent? scope = s.parent? scope := by
    intro scope inside
    simp [parent?, frame?, Scopes.truncate, inside]
  constructor
  · exact short.2.2
  · rw [same rootId (by simp [rootId]), h.root]
  · intro scope positive live
    rw [same scope (by omega)]
    exact h.below scope positive (by omega)

theorem parent?_push_next (kind : ScopeKind) : (s.push kind parent).parent? s.next = some parent :=
  parent?_of_frame? (frame?_push)

theorem parent?_push_of_lt (kind : ScopeKind) (h : scope.index < s.depth) :
    (s.push kind parent).parent? scope = s.parent? scope := by
  have there : (s.push kind parent).frame? scope = s.frame? scope := List.getElem?_append_left h
  rw [parent?, there, parent?]

/-- A new frame is grounded exactly if it is made under one that is there. -/
theorem Grounded.push_iff (h : s.Grounded) (kind : ScopeKind) (parent : ScopeId) :
    (s.push kind parent).Grounded ↔ parent.index < s.depth := by
  constructor
  · intro pushed
    exact pushed.parent_lt (parent?_push_next kind)
  · intro live
    constructor
    · simp
    · exact (parent?_push_of_lt kind h.rooted).trans h.root
    · intro scope positive within
      by_cases old : scope.index < s.depth
      · rw [parent?_push_of_lt kind old]
        exact h.below scope positive old
      · have new : scope = s.next := by
          rw [depth_push] at within
          cases scope
          simp only [next, ScopeId.mk.injEq] at *
          omega
        exact ⟨parent, new ▸ parent?_push_next kind, by rw [new]; exact live⟩

/-- A call from a scope that is gone finds no routine. -/
theorem callWithin_of_gone (h : s.depth ≤ scope.index) (limit : Nat) (name : String)
    (arguments : List Value) : ∃ e, callWithin limit scope name arguments s = .error e s := by
  cases limit with
  | zero => exact ⟨_, rfl⟩
  | succ limit =>
    have none : s.routine? scope name = none := by
      unfold routine?
      cases s.depth <;> simp [findUp, frame?_eq_none h]
    exact ⟨_, callWithin_of_none none⟩

theorem Grounded.call (h : s.Grounded) (limit : Nat) (scope : ScopeId) (name : String)
    (arguments : List Value) : ((Operation.call limit scope name arguments).apply s).Grounded := by
  simp only [Operation.apply]
  by_cases live : scope.index < s.depth
  · have left := atomic_callWithin limit scope name arguments s live
    cases run : callWithin limit scope name arguments s with
    | ok value t =>
      rw [run] at left
      exact h.extends left
    | error e t =>
      rw [run] at left
      exact left ▸ h
  · obtain ⟨e, run⟩ := callWithin_of_gone (Nat.le_of_not_lt live) limit name arguments
    rw [run]
    exact h

/-- One operation keeps the scopes grounded exactly if it makes no frame under a missing one. -/
theorem Grounded.apply_iff (h : s.Grounded) (operation : Operation) :
    (operation.apply s).Grounded ↔ operation.Attached s := by
  cases operation with
  | shadow parent => exact h.push_iff .shadow parent
  | subscope parent => exact h.push_iff .subscope parent
  | release scope => exact iff_of_true (h.truncate _) trivial
  | truncate depth => exact iff_of_true (h.truncate depth) trivial
  | define scope name value => exact iff_of_true (h.modify scope fun _ => rfl) trivial
  | defineIfAbsent scope name value =>
    refine iff_of_true ?_ trivial
    simp only [Operation.apply, defineIfAbsent]
    split
    · exact h.modify scope fun _ => rfl
    · exact h
  | takeLocals scope front => exact iff_of_true (h.modify scope fun _ => rfl) trivial
  | addRoutine scope r => exact iff_of_true (h.modify scope fun _ => rfl) trivial
  | call limit scope name arguments => exact iff_of_true (h.call limit scope name arguments) trivial

/-! ### Whole runs -/

theorem Grounded.initial : Grounded initial where
  rooted := Nat.one_pos
  root := rfl
  below scope positive live := by
    simp [depth, Scopes.initial] at live
    omega

/-- Along a run, the scopes are grounded, all searches end and all chains lead to the root, exactly if
no frame is made under one that is missing. -/
theorem grounded_along_iff (operations : List Operation) :
    (∀ earlier, earlier <+: operations → (run earlier).Grounded ∧ (run earlier).Searchable) ↔
      ∀ earlier operation, earlier ++ [operation] <+: operations →
        operation.Attached (run earlier) := by
  constructor
  · intro all earlier operation inside
    have before := (all earlier ((List.prefix_append ..).trans inside)).1
    have after := (all (earlier ++ [operation]) inside).1
    rw [run_concat] at after
    exact (before.apply_iff operation).1 after
  · intro attached earlier inside
    have grounded : (run earlier).Grounded := by
      induction earlier using List.reverseRecOn with
      | nil => exact .initial
      | append_singleton earlier operation ih =>
        rw [run_concat]
        have before := ih ((List.prefix_append ..).trans inside)
        exact (before.apply_iff operation).2 (attached earlier operation inside)
    exact ⟨grounded, grounded.searchable⟩

/-- The scope that the first operation has made is dropped by the second one; what the third one makes
under it is its own parent. -/
theorem released_parent_loops :
    initial.next = ⟨1⟩ ∧
    (run [.shadow rootId, .release ⟨1⟩, .shadow ⟨1⟩]).parent? ⟨1⟩ = some ⟨1⟩ ∧
    ¬ (run [.shadow rootId, .release ⟨1⟩, .shadow ⟨1⟩]).Grounded ∧
    ∀ result, ¬ (run [.shadow rootId, .release ⟨1⟩, .shadow ⟨1⟩]).SearchEnds
      (·.bindings.get? "x") ⟨1⟩ result := by
  have own : (run [.shadow rootId, .release ⟨1⟩, .shadow ⟨1⟩]).parent? ⟨1⟩ = some ⟨1⟩ := rfl
  refine ⟨rfl, own, ?_, ?_⟩
  · intro grounded
    exact Nat.lt_irrefl 1 (grounded.parent_lt own)
  · exact not_searchEnds_of_own_parent rfl rfl rfl

end Rsrc.Scopes
