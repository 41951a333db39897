import Rsrc.Proofs.Expr.Reads
import Rsrc.Proofs.Progress.Loops
import Rsrc.Proofs.Scopes.Calls

/-!
# Names that evaluation does not read

Scopes can be the same but for what they bind to some names (`Scopes.AlikeBut`). Where all routines are
built in, an expression that reads none of these names has the same value in both
(`Scopes.AlikeBut.eval`).
-/

namespace Rsrc

/-- The frames are the same but for what they bind to some names. -/
structure Frame.AlikeBut (names : List String) (f g : Frame) : Prop where
  parent : f.parent = g.parent
  routines : f.routines = g.routines
  bindings : ∀ name, name ∉ names → f.bindings.get? name = g.bindings.get? name

namespace Scopes

/-- The scopes are the same but for what their frames bind to some names. -/
structure AlikeBut (names : List String) (s t : Scopes) : Prop where
  depth : s.depth = t.depth
  frame : ∀ scope, Option.Rel (Frame.AlikeBut names) (s.frame? scope) (t.frame? scope)

variable {s t : Scopes} {scope : ScopeId} {names : List String} {name : String}

theorem frame?_modify (scope other : ScopeId) (f : Frame → Frame) :
    (s.modify scope f).frame? other =
      (s.frame? other).map fun frame => if scope.index = other.index then f frame else frame :=
  List.getElem?_modify ..

theorem lookup_of_local {value : Value} (h : (s.locals scope).get? name = some value) :
    s.lookup scope name = some value := by
  cases here : s.frame? scope with
  | none => simp [locals, here, Dict.get?, Dict.find?] at h
  | some frame =>
    have bound : frame.bindings.get? name = some value := by simpa [locals, here] using h
    obtain ⟨length, depth⟩ : ∃ length, s.depth = length + 1 :=
      Nat.exists_eq_succ_of_ne_zero (Nat.ne_zero_of_lt (List.getElem?_eq_some_iff.1 here).1)
    rw [lookup, depth, findUp, here]
    simp [bound]

namespace AlikeBut

theorem refl (names : List String) (s : Scopes) : s.AlikeBut names s := by
  refine ⟨rfl, fun scope => ?_⟩
  cases s.frame? scope with
  | none => exact .none
  | some frame => exact .some ⟨rfl, rfl, fun _ _ => rfl⟩

section

variable (h : s.AlikeBut names t)
include h

theorem modify {f g : Frame → Frame}
    (step : ∀ a b, a.AlikeBut names b → (f a).AlikeBut names (g b)) :
    (s.modify scope f).AlikeBut names (t.modify scope g) := by
  refine ⟨by rw [depth_modify, depth_modify, h.depth], fun other => ?_⟩
  rw [frame?_modify, frame?_modify]
  have alike := h.frame other
  generalize s.frame? other = left, t.frame? other = right at alike
  cases alike with
  | none => exact .none
  | some alike =>
    refine .some ?_
    split
    · exact step _ _ alike
    · exact alike

theorem define (scope : ScopeId) (name : String) (value : Value) :
    (s.define scope name value).AlikeBut names (t.define scope name value) := by
  refine h.modify fun a b alike => ⟨alike.parent, alike.routines, fun other free => ?_⟩
  by_cases same : other = name
  · subst same
    simp
  · rw [Dict.get?_insert_of_ne _ same, Dict.get?_insert_of_ne _ same, alike.bindings other free]

/-- One of the names may be bound to anything. -/
theorem define_right (known : name ∈ names) (scope : ScopeId) (value : Value) :
    s.AlikeBut names (t.define scope name value) := by
  have same : s.modify scope id = s := congrArg Scopes.mk (List.modify_id ..)
  rw [← same]
  refine h.modify fun a b alike => ⟨alike.parent, alike.routines, fun other free => ?_⟩
  have differ : other ≠ name := fun same => free (same ▸ known)
  exact (alike.bindings other free).trans (Dict.get?_insert_of_ne _ differ _).symm

theorem defineAll_right {bindings : List (String × Value)}
    (known : ∀ binding ∈ bindings, binding.1 ∈ names) (scope : ScopeId) :
    s.AlikeBut names (t.defineAll scope bindings) := by
  induction bindings generalizing t with
  | nil => exact h
  | cons binding bindings ih =>
    exact ih (h.define_right (known binding List.mem_cons_self) scope binding.2)
      fun other member => known other (List.mem_cons_of_mem _ member)

/-! ### Lookup -/

theorem findUp {α : Type} {answer : Frame → Option α}
    (same : ∀ a b, a.AlikeBut names b → answer a = answer b) (length : Nat) (scope : ScopeId) :
    s.findUp answer length scope = t.findUp answer length scope := by
  induction length generalizing scope with
  | zero => rfl
  | succ length ih =>
    have alike := h.frame scope
    unfold Scopes.findUp
    generalize s.frame? scope = left, t.frame? scope = right at alike
    cases alike with
    | none => rfl
    | some alike => simp only [same _ _ alike, alike.parent, ih]

theorem lookup (free : name ∉ names) (scope : ScopeId) :
    s.lookup scope name = t.lookup scope name := by
  rw [Scopes.lookup, Scopes.lookup, h.depth]
  exact h.findUp (fun _ _ alike => alike.bindings name free) _ scope

theorem routine? (scope : ScopeId) (name : String) :
    s.routine? scope name = t.routine? scope name := by
  rw [Scopes.routine?, Scopes.routine?, h.depth]
  exact h.findUp (fun _ _ alike => by rw [alike.routines]) _ scope

end

end AlikeBut

/-! ### Evaluation -/

theorem Plain.eq_of_eval {e : Expr} {value : Value} (plain : s.Plain)
    (ran : e.eval scope s = .ok value t) : s = t := by
  have kept := plain.eval scope e s rfl
  rw [ran] at kept
  exact kept.1.symm

theorem AlikeBut.eval (h : s.AlikeBut names t) (plain : s.Plain) {value : Value} {s' : Scopes} (e : Expr)
    (free : ∀ name ∈ e.names, name ∉ names) (ran : e.eval scope s = .ok value s') :
    e.eval scope t = .ok value t := by
  obtain ⟨result, left, right, -⟩ := e.coincide_eval (h.routine? scope)
    (fun _ _ _ => plain.native_of_routine?) (fun name read => h.lookup (free name read) scope)
    fun _ => id
  rw [left] at ran
  cases result with
  | ok value' =>
    cases ran
    exact right
  | error e => cases ran

end Scopes

end Rsrc
