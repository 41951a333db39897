import Rsrc.Proofs.Local.Expr

/-!
# Reading between edges

Braces and semicolons are the edges of constructs. Expressions, paths and statements have none of them
inside: whatever goes on to hold when a lexeme is passed that is no edge holds behind an expression,
if it holds in front of it (`Steady.expr`).
-/

namespace Rsrc

namespace Reading

variable {α β : Type} {B : Cursor → Prop}

/-- What holds of a cursor goes on to hold behind a lexeme that is no edge. -/
class Passes (B : Cursor → Prop) : Prop where
  pass : ∀ {c : Cursor} {l : Lexeme}, c.peek = some l → ¬ l.isEdge → B c → B c.advance

/-- What holds of the cursor in front of what is read holds behind it. -/
def Steady (B : Cursor → Prop) (r : Reading α) : Prop := Runs B r (fun _ => B) fun _ _ => True

namespace Steady

variable {x : Reading α} {e : Expectation}

theorem pure (a : α) : Steady B (Pure.pure a) := fun _ held => held

theorem fail (expected : String) : Steady B (Reading.fail expected : Reading α) := fun _ _ => trivial

theorem bind {f : α → Reading β} (first : Steady B x) (second : ∀ a, Steady B (f a)) :
    Steady B (x >>= f) := Runs.bind first second

theorem ite {c : Prop} [Decidable c] {y : Reading α} (yes : Steady B x) (no : Steady B y) :
    Steady B (if c then x else y) := by
  split
  · exact yes
  · exact no

/-- A look at the cursor comes first. -/
theorem get {P : Cursor → Prop} {f : Cursor → Reading α}
    (h : ∀ c, P c → Runs (· = c) (f c) (fun _ => B) fun _ _ => True) :
    Runs P (MonadState.get >>= f) (fun _ => B) fun _ _ => True := fun c held => h c held c rfl

/-- A lexeme has been seen and is passed. -/
theorem after {c : Cursor} {l : Lexeme} [Passes B] (held : B c) (next : c.peek = some l)
    (inner : ¬ l.isEdge) (rest : Steady B x) :
    Runs (· = c) (modify Cursor.advance >>= fun _ => x) (fun _ => B) fun _ _ => True := by
  intro c' same
  subst same
  exact rest c'.advance (Passes.pass next inner held)

theorem here {c : Cursor} (held : B c) (h : Steady B x) :
    Runs (· = c) x (fun _ => B) fun _ _ => True :=
  Runs.mono h (fun _ same => same ▸ held) (fun _ _ => id) fun _ _ => id

variable [Passes B]

theorem matching (inner : e.Inner) (wanted : String) : Steady B (Reading.matching e wanted) := by
  intro c held
  unfold Reading.matching
  cases next : c.peek with
  | none => trivial
  | some l =>
    by_cases fits : e.matched l
    · simp only [fits, if_true]
      exact Passes.pass next (inner l fits) held
    · simp [fits]

theorem one (inner : e.Inner) : Steady B (Reading.one e) :=
  matching inner _

theorem skip (inner : e.Inner) : Steady B (Reading.skip e) := by
  unfold Reading.skip
  rw [Parse.discard_eq]
  exact (one inner).bind fun _ => pure _

theorem accept (inner : e.Inner) : Steady B (Reading.accept e) := by
  intro c held
  unfold Reading.accept
  cases next : c.peek with
  | none => simpa [Cursor.isAt, next] using held
  | some l =>
    by_cases fits : e.matched l
    · simp only [Cursor.isAt, next, Option.any_some, fits, if_true]
      exact Passes.pass next (inner l fits) held
    · simpa [Cursor.isAt, next, fits] using held

theorem ensure {expectations : List Expectation} (inner : ∀ e ∈ expectations, e.Inner) :
    Steady B (Reading.ensure expectations) := by
  have all : ∀ wanted, Steady B (expectations.forM fun e => discard (Reading.matching e wanted)) := by
    intro wanted
    induction expectations with
    | nil => exact pure _
    | cons e expectations ih =>
      change Steady B (discard (Reading.matching e wanted) >>= fun _ => expectations.forM _)
      rw [Parse.discard_eq, bind_assoc]
      refine (matching (inner e List.mem_cons_self) wanted).bind fun _ => ?_
      exact ih fun e' member => inner e' (List.mem_cons_of_mem _ member)
  exact all _

theorem identifier : Steady B Reading.identifier :=
  one (by decide)

/-! ### Paths and expressions -/

theorem pathFrom (path : String) (fuel : Nat) : Steady B (Reading.pathFrom path fuel) := by
  induction fuel generalizing path with
  | zero => exact pure _
  | succ fuel ih =>
    rw [Reading.pathFrom]
    refine get fun c held => here held (ite ?_ (pure _))
    refine (skip (by decide)).bind fun _ => ?_
    exact identifier.bind fun segment => ih _

theorem path : Steady B Reading.path :=
  identifier.bind fun _ => get fun _ held => here held (pathFrom _ _)

set_option linter.unusedSectionVars false in
mutual

theorem readLayer : (fuel layer : Nat) → Steady B (Expr.readLayer fuel layer)
  | 0, _ => fail _
  | fuel + 1, layer => by
    rw [Expr.readLayer]
    exact (readUnary fuel).bind fun left => readOperators fuel layer left

theorem readOperators : (fuel layer : Nat) → (left : Expr) →
    Steady B (Expr.readOperators fuel layer left)
  | 0, _, _ => fail _
  | fuel + 1, layer, left => by
    rw [Expr.readOperators]
    refine get fun c held => ?_
    cases found : c.operator? layer with
    | none => exact here held (pure _)
    | some op =>
      obtain ⟨l, next, inner⟩ := Parse.exists_of_operator? found
      refine after held next inner ?_
      exact (readLayer fuel _).bind fun right => readOperators fuel layer _

theorem readUnary : (fuel : Nat) → Steady B (Expr.readUnary fuel)
  | 0 => fail _
  | fuel + 1 => by
    rw [Expr.readUnary]
    refine get fun c held => ?_
    cases found : c.peekKind.bind UnaryOp.ofKind? with
    | none => exact here held (readPrimary fuel)
    | some op =>
      obtain ⟨l, next, inner⟩ := Parse.exists_of_unary found
      exact after held next inner ((readUnary fuel).bind fun operand => pure _)

theorem readPrimary : (fuel : Nat) → Steady B (Expr.readPrimary fuel)
  | 0 => fail _
  | fuel + 1 => by
    rw [Expr.readPrimary]
    refine get fun c held => ?_
    cases next : c.peek with
    | none => exact here held (fail _)
    | some l =>
      dsimp only
      split
      · rename_i value known
        exact after held next (Parse.inner_of_value known) (pure _)
      · split
        · rename_i kind
          exact after held next (by simp [Lexeme.isEdge, kind]) (pure _)
        · refine here held (path.bind fun name => ?_)
          refine (accept (by decide)).bind fun call => ite ?_ (pure _)
          refine (accept (by decide)).bind fun ended => ite (pure _) ?_
          exact (readArguments fuel).bind fun arguments => pure _
        · rename_i kind
          refine after held next (by simp [Lexeme.isEdge, kind]) ?_
          refine (readLayer fuel 0).bind fun e => ?_
          exact (skip (by decide)).bind fun _ => pure _
        · exact here held (fail _)

theorem readArguments : (fuel : Nat) → Steady B (Expr.readArguments fuel)
  | 0 => fail _
  | fuel + 1 => by
    rw [Expr.readArguments]
    refine (readLayer fuel 0).bind fun first => ?_
    refine (accept (by decide)).bind fun more => ite ?_ ?_
    · exact (readArguments fuel).bind fun rest => pure _
    · exact (skip (by decide)).bind fun _ => pure _

end

theorem expr : Steady B Expr.read :=
  get fun _ held => here held (readLayer _ 0)

/-- The name that is bound is a variable or a path. -/
theorem target {c : Cursor} {origin : Lexeme} (held : B c) (next : c.peek = some origin) :
    Runs (· = c) (Statement.readTarget origin) (fun _ => B) fun _ _ => True := by
  unfold Statement.readTarget
  split
  · rename_i kind
    exact after held next (by simp [Lexeme.isEdge, kind]) (pure _)
  · exact here held path

theorem statement : Steady B Statement.read := by
  unfold Statement.read
  refine get fun c held => ?_
  cases next : c.peek with
  | none => exact here held (fail _)
  | some origin =>
    refine get fun c' same => ?_
    obtain rfl : c' = c := same
    split
    · refine Runs.bind (target held next) fun name => ?_
      refine (skip (by decide)).bind fun _ => ?_
      exact expr.bind fun e => pure _
    · exact here held (expr.bind fun e => pure _)

end Steady

end Reading

end Rsrc
