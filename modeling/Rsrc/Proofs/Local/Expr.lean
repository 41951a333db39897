import Rsrc.Proofs.Local.Reading

/-!
# Reading expressions in a setting

Expressions and statements are read in the same way in two settings. Their readers are given fuel,
which depends on all that is left of the file; more than the needed fuel makes no difference.
-/

namespace Rsrc

/-! ### Looking ahead -/

namespace Cursor

variable {k k' : Setting} {c : Cursor} {α : Type}

theorem rest_within : (c.within k).rest = c.rest ++ k.next := by
  simp [rest, within]

/-- A look ahead that goes no further than the first brace or semicolon stays in the part. -/
theorem Ready.look {f : List Lexeme → α} (ready : c.Ready k k') (opened : c.Open k k')
    (stops : ∀ ls next, ls ≠ [] → (∀ l, ls.getLast? = some l → l.isEdge) → f (ls ++ next) = f ls) :
    f (c.within k).rest = f c.rest ∧ f (c.within k').rest = f c.rest := by
  rw [rest_within, rest_within]
  by_cases cut : Cut k k'
  · have left : c.ahead ≠ [] := opened cut
    have edge : ∀ l, c.rest.getLast? = some l → l.isEdge := by
      intro l last
      refine ready.edge cut l ?_
      rwa [rest, List.getLast?_append, List.getLast?_eq_some_getLast left, Option.some_or,
        ← List.getLast?_eq_some_getLast left] at last
    have more : c.rest ≠ [] := by simp [rest, left]
    exact ⟨stops _ _ more edge, stops _ _ more edge⟩
  · obtain ⟨first, second⟩ : k.next = [] ∧ k'.next = [] := by simpa [Cut] using cut
    simp [first, second]

theorem matchesAll_append {first second : Expectation} (inner : first.Inner) (ls next : List Lexeme)
    (more : ls ≠ []) (edge : ∀ l, ls.getLast? = some l → l.isEdge) :
    matchesAll [first, second] (ls ++ next) = matchesAll [first, second] ls := by
  match ls with
  | [] => exact absurd rfl more
  | [l] =>
    have other : first.matched l = false := by
      by_cases fits : first.matched l
      · exact absurd (edge l rfl) (inner l fits)
      · simpa using fits
    simp [matchesAll, other]
  | l :: l' :: ls => rfl

/-- Looking for two lexemes, the first of which is not the end of the part. -/
theorem Ready.expects {first : Expectation} (second : Expectation) (ready : c.Ready k k')
    (opened : c.Open k k')
    (inner : first.Inner) :
    (c.within k).expects [first, second] = c.expects [first, second] ∧
      (c.within k').expects [first, second] = c.expects [first, second] :=
  ready.look opened (matchesAll_append inner)

end Cursor

namespace Parse

variable {k k' : Setting} {weak p : Prop}

/-! ### Paths -/

theorem Local.pathFrom (path : String) (fuel : Nat) :
    Local k k' weak True (ofReading (Reading.pathFrom path fuel)) := by
  induction fuel generalizing path with
  | zero =>
    intro st
    exact .pure id
  | succ fuel ih =>
    intro st
    rw [Reading.pathFrom, ofReading_get]
    refine .cursor ?_ fun ready opened => ?_
    · split
      · rw [ofReading_bind]
        refine (Local.skip (by decide) st).bind fun _ st => ?_
        rw [ofReading_bind]
        exact (Local.identifier st).bind fun segment => ih _
      · exact .pure id
    · have inner : Expectation.Inner LexemeKind.dot := by decide
      obtain ⟨first, second⟩ := ready.expects LexemeKind.identifier (opened trivial) inner
      exact ⟨by rw [first], by rw [second]⟩

theorem unread_le_of_local {α : Type} {r : Reading α} {q : α → Prop}
    (h : Local {} {} False True (ofReading r) q) {c c' : Cursor} {a : α} (ran : r c = .ok a c') :
    c'.unread ≤ c.unread := by
  have later := (h { session := {}, cursor := c }).later
  simp only [ofReading, ran] at later
  exact later.unread

end Parse

namespace Reading

variable {c : Cursor}

theorem pathFrom_of_finished (path : String) (n : Nat) (h : c.unread = 0) :
    pathFrom path n c = .ok path c := by
  cases n with
  | zero => rfl
  | succ n =>
    have none : c.rest = [] := by
      apply List.eq_nil_of_length_eq_zero
      simpa [Cursor.rest, Cursor.unread] using h
    rw [pathFrom]
    change (if c.expects _ then _ else _ : Reading String) c = _
    rw [Cursor.expects, none]
    rfl

theorem pathFrom_fuel (path : String) {n n' : Nat} {c : Cursor} (h : c.unread ≤ n)
    (h' : c.unread ≤ n') : pathFrom path n c = pathFrom path n' c := by
  induction n generalizing n' c path with
  | zero =>
    have ended : c.unread = 0 := by omega
    rw [pathFrom_of_finished _ _ ended, pathFrom_of_finished _ _ ended]
  | succ n ih =>
    cases n' with
    | zero =>
      have ended : c.unread = 0 := by omega
      rw [pathFrom_of_finished _ _ ended, pathFrom_of_finished _ _ ended]
    | succ n' =>
      rw [pathFrom, pathFrom]
      refine get_congr ?_
      split
      · refine bind_congr_at rfl fun _ c₁ passed => bind_congr_at rfl fun segment c₂ read => ?_
        have first := unread_of_skip passed
        have second := unread_of_identifier read
        exact ih _ (by omega) (by omega)
      · rfl

end Reading

namespace Parse

variable {k k' : Setting} {weak p : Prop} {c : Cursor}

theorem Step.path : Step k k' weak True (ofReading Reading.path) := by
  intro st
  rw [Reading.path, ofReading_bind]
  refine (Step.one (by decide) st).bind fun first st => ?_
  rw [ofReading_get]
  refine .fueled (f := fun n => ofReading (Reading.pathFrom first.text n)) (fun st n n' h h' => ?_)
    fun n => Local.pathFrom first.text n st
  simp only [ofReading, Reading.pathFrom_fuel first.text h h']

/-! ### Expressions -/

/-- What edges do not stand for is found at a lexeme that is none. -/
theorem exists_of_peekKind {f : LexemeKind → Option α} {a : α}
    (edges : f .semicolon = none ∧ f .leftBrace = none ∧ f .rightBrace = none)
    (h : c.peekKind.bind f = some a) : ∃ l, c.peek = some l ∧ ¬ l.isEdge := by
  cases next : c.peek with
  | none => simp [Cursor.peekKind, next] at h
  | some l =>
    refine ⟨l, rfl, fun edge => ?_⟩
    simp only [Cursor.peekKind, next, Option.map_some, Option.bind_some] at h
    simp only [Lexeme.isEdge, Bool.or_eq_true, beq_iff_eq] at edge
    rcases edge with (kind | kind) | kind <;> simp [kind, edges] at h

theorem exists_of_unary {op : UnaryOp} (h : c.peekKind.bind UnaryOp.ofKind? = some op) :
    ∃ l, c.peek = some l ∧ ¬ l.isEdge :=
  exists_of_peekKind ⟨rfl, rfl, rfl⟩ h

theorem exists_of_operator? {layer : Nat} {op : BinaryOp} (h : c.operator? layer = some op) :
    ∃ l, c.peek = some l ∧ ¬ l.isEdge :=
  exists_of_peekKind ⟨rfl, rfl, rfl⟩ (Option.filter_eq_some_iff.1 h).1

theorem inner_of_value {l : Lexeme} {value : Value} (h : Value.ofLexeme? l = some value) :
    ¬ l.isEdge := by
  intro edge
  simp only [Lexeme.isEdge, Bool.or_eq_true, beq_iff_eq] at edge
  rcases edge with (kind | kind) | kind <;> simp [kind, Value.ofLexeme?] at h

mutual

theorem Step.readLayer : (fuel layer : Nat) →
    Step k k' False True (ofReading (Expr.readLayer fuel layer))
  | 0, _ => Step.fail _
  | fuel + 1, layer => by
    intro st
    rw [Expr.readLayer, ofReading_bind]
    exact (Step.readUnary fuel st).bind fun left => Local.readOperators fuel layer left

theorem Local.readOperators : (fuel layer : Nat) → (left : Expr) →
    Local k k' False True (ofReading (Expr.readOperators fuel layer left))
  | 0, _, _ => Local.fail _
  | fuel + 1, layer, left => by
    intro st
    rw [Expr.readOperators, ofReading_get]
    refine .cursor ?_ fun _ opened => ?_
    · cases found : st.cursor.operator? layer with
      | none => exact .pure id
      | some op =>
        obtain ⟨l, next, inner⟩ := exists_of_operator? found
        simp only [ofReading_bind]
        refine (StepAt.pass next inner).toLocalAt.bind fun _ st => ?_
        refine (Step.readLayer fuel _ st).toLocalAt.bind fun right => ?_
        exact Local.readOperators fuel layer _
    · have opened := opened trivial
      simp only [Cursor.operator?, Cursor.peekKind, Cursor.peek_within opened.first,
        Cursor.peek_within opened.second, and_self]

theorem Step.readUnary : (fuel : Nat) →
    Step k k' False True (ofReading (Expr.readUnary fuel))
  | 0 => Step.fail _
  | fuel + 1 => by
    intro st
    rw [Expr.readUnary, ofReading_get]
    refine .cursor ?_ fun _ opened => ?_
    · cases found : st.cursor.peekKind.bind UnaryOp.ofKind? with
      | none => exact Step.readPrimary fuel st
      | some op =>
        obtain ⟨l, next, inner⟩ := exists_of_unary found
        simp only [ofReading_bind]
        refine (StepAt.pass next inner).bind fun _ st => ?_
        exact (Step.readUnary fuel st).toLocalAt.bind fun operand st => .pure id
    · have opened := opened trivial
      simp only [Cursor.peekKind, Cursor.peek_within opened.first, Cursor.peek_within opened.second,
        and_self]

theorem Step.readPrimary : (fuel : Nat) →
    Step k k' False True (ofReading (Expr.readPrimary fuel))
  | 0 => Step.fail _
  | fuel + 1 => by
    intro st
    rw [Expr.readPrimary, ofReading_get]
    refine .cursor ?_ fun _ opened => ?_
    · cases next : st.cursor.peek with
      | none => exact Step.fail _ st
      | some l =>
        dsimp only
        split
        · rename_i value known
          rw [ofReading_bind]
          exact (StepAt.pass next (inner_of_value known)).bind fun _ st => .pure id
        · split
          · rename_i kind
            have inner : ¬ l.isEdge := by simp [Lexeme.isEdge, kind]
            rw [ofReading_bind]
            exact (StepAt.pass next inner).bind fun _ st => .pure id
          · rw [ofReading_bind]
            refine (Step.path st).bind fun name st => ?_
            rw [ofReading_bind]
            refine (Local.acceptInner (by decide) st).bind fun call st => ?_
            cases call with
            | false => exact .pure id
            | true =>
              simp only [if_true, ofReading_bind]
              refine (Local.acceptInner (by decide) st).bind fun ended st => ?_
              cases ended with
              | true => exact .pure id
              | false =>
                simp only [Bool.false_eq_true, if_false, ofReading_bind]
                exact (Local.readArguments fuel st).bind fun arguments st => .pure id
          · rename_i kind
            have inner : ¬ l.isEdge := by simp [Lexeme.isEdge, kind]
            simp only [ofReading_bind]
            refine (StepAt.pass next inner).bind fun _ st => ?_
            refine (Step.readLayer fuel 0 st).toLocalAt.bind fun e st => ?_
            exact (Local.skip (by decide) st).bind fun _ st => .pure id
          · exact Step.fail _ st
    · have opened := opened trivial
      simp only [Cursor.peek_within opened.first, Cursor.peek_within opened.second, and_self]

theorem Local.readArguments : (fuel : Nat) →
    Local k k' False True (ofReading (Expr.readArguments fuel))
  | 0 => Local.fail _
  | fuel + 1 => by
    intro st
    rw [Expr.readArguments, ofReading_bind]
    refine (Step.readLayer fuel 0 st).toLocalAt.bind fun first st => ?_
    rw [ofReading_bind]
    refine (Local.acceptInner (by decide) st).bind fun more st => ?_
    cases more with
    | true =>
      simp only [if_true, ofReading_bind]
      exact (Local.readArguments fuel st).bind fun rest st => .pure id
    | false =>
      simp only [Bool.false_eq_true, if_false, ofReading_bind]
      exact (Local.skip (by decide) st).bind fun _ st => .pure id

end

end Parse

theorem Reading.unread_of_path {c c' : Cursor} {path : String} (h : Reading.path c = .ok path c') :
    c'.unread + 1 ≤ c.unread := by
  unfold Reading.path at h
  cases first : identifier c with
  | error e d =>
    rw [bind_of_error first] at h
    cases h
  | ok l d =>
    rw [bind_of_ok first] at h
    have rest : d.unread + 1 = c.unread := unread_of_identifier first
    have later := Parse.unread_le_of_local (Parse.Local.pathFrom l.text d.unread) h
    omega

/-! ### Fuel -/

namespace Expr

open Parse

theorem unread_of_layer {fuel layer : Nat} {c c' : Cursor} {e : Expr}
    (h : readLayer fuel layer c = .ok e c') : c'.unread ≤ c.unread :=
  unread_le_of_local (Step.readLayer fuel layer).local h

theorem unread_of_unary {fuel : Nat} {c c' : Cursor} {e : Expr}
    (h : readUnary fuel c = .ok e c') : c'.unread ≤ c.unread :=
  unread_le_of_local (Step.readUnary fuel).local h

/-- Reads a primary expression, where `inner` reads what is in parentheses and `arguments` what a call
is given. -/
def primaryBy (inner : Reading Expr) (arguments : Reading (List Expr)) : Reading Expr := do
  let some l := (← get).peek | Reading.fail "an expression"
  if let some value := Value.ofLexeme? l then
    modify Cursor.advance
    return .literal value
  match l.kind with
  | .var =>
    modify Cursor.advance
    return .var l.text
  | .identifier =>
    let name ← Reading.path
    if ← Reading.accept LexemeKind.leftParen then
      if ← Reading.accept LexemeKind.rightParen then return .call name []
      return .call name (← arguments)
    else return .var name
  | .leftParen =>
    modify Cursor.advance
    let e ← inner
    Reading.skip LexemeKind.rightParen
    return e
  | _ => Reading.fail "an expression"

theorem primaryBy_congr {c : Cursor} {inner inner' : Reading Expr}
    {arguments arguments' : Reading (List Expr)}
    (same : ∀ d : Cursor, d.unread < c.unread → inner d = inner' d)
    (alike : ∀ d : Cursor, d.unread + 1 < c.unread → arguments d = arguments' d) :
    primaryBy inner arguments c = primaryBy inner' arguments' c := by
  refine Reading.get_congr ?_
  cases next : c.peek with
  | none => rfl
  | some l =>
    have passed := Cursor.unread_advance next
    dsimp only
    cases Value.ofLexeme? l with
    | some value => rfl
    | none =>
      dsimp only
      generalize l.kind = kind
      cases kind with
      | identifier =>
        refine bind_congr_at rfl fun name c₁ named => ?_
        have path := Reading.unread_of_path named
        refine bind_congr_at rfl fun call c₂ accepted => ?_
        cases call with
        | false => rfl
        | true =>
          have paren := Reading.unread_of_accept accepted
          refine bind_congr_at rfl fun ended c₃ accepted' => ?_
          cases ended with
          | true => rfl
          | false =>
            obtain rfl := Reading.cursor_of_accept accepted'
            exact bind_congr_at (alike c₃ (by omega)) fun _ _ _ => rfl
      | leftParen =>
        refine Reading.advance_congr ?_
        exact bind_congr_at (same _ (by omega)) fun _ _ _ => rfl
      | _ => rfl

mutual

theorem readLayer_fuel : (n n' : Nat) → (layer : Nat) → (c : Cursor) → 3 * c.unread + 3 ≤ n →
    3 * c.unread + 3 ≤ n' → readLayer n layer c = readLayer n' layer c
  | 0, _, _, _, h, _ => absurd h (by omega)
  | _, 0, _, _, _, h' => absurd h' (by omega)
  | n + 1, n' + 1, layer, c, h, h' => by
    rw [readLayer, readLayer]
    refine bind_congr_at (readUnary_fuel n n' c (by omega) (by omega)) fun left c' read => ?_
    have left_le := unread_of_unary read
    exact readOperators_fuel n n' layer left c' (by omega) (by omega)

theorem readOperators_fuel : (n n' : Nat) → (layer : Nat) → (left : Expr) → (c : Cursor) →
    3 * c.unread + 1 ≤ n → 3 * c.unread + 1 ≤ n' →
    readOperators n layer left c = readOperators n' layer left c
  | 0, _, _, _, _, h, _ => absurd h (by omega)
  | _, 0, _, _, _, _, h' => absurd h' (by omega)
  | n + 1, n' + 1, layer, left, c, h, h' => by
    rw [readOperators, readOperators]
    refine Reading.get_congr ?_
    cases found : c.operator? layer with
    | none => rfl
    | some op =>
      obtain ⟨l, next, -⟩ := exists_of_operator? found
      have passed := Cursor.unread_advance next
      refine Reading.advance_congr ?_
      refine bind_congr_at (readLayer_fuel n n' _ _ (by omega) (by omega)) fun right c' read => ?_
      have right_le := unread_of_layer read
      exact readOperators_fuel n n' layer _ c' (by omega) (by omega)

theorem readUnary_fuel : (n n' : Nat) → (c : Cursor) → 3 * c.unread + 2 ≤ n →
    3 * c.unread + 2 ≤ n' → readUnary n c = readUnary n' c
  | 0, _, _, h, _ => absurd h (by omega)
  | _, 0, _, _, h' => absurd h' (by omega)
  | n + 1, n' + 1, c, h, h' => by
    rw [readUnary, readUnary]
    refine Reading.get_congr ?_
    cases found : c.peekKind.bind UnaryOp.ofKind? with
    | none => exact readPrimary_fuel n n' c (by omega) (by omega)
    | some op =>
      obtain ⟨l, next, -⟩ := exists_of_unary found
      have passed := Cursor.unread_advance next
      refine Reading.advance_congr ?_
      exact bind_congr_at (readUnary_fuel n n' c.advance (by omega) (by omega)) fun _ _ _ => rfl

theorem readPrimary_fuel : (n n' : Nat) → (c : Cursor) → 3 * c.unread + 1 ≤ n →
    3 * c.unread + 1 ≤ n' → readPrimary n c = readPrimary n' c
  | 0, _, _, h, _ => absurd h (by omega)
  | _, 0, _, _, h' => absurd h' (by omega)
  | n + 1, n' + 1, c, h, h' => by
    change primaryBy (readLayer n 0) (readArguments n) c = primaryBy _ _ c
    exact primaryBy_congr (fun d fewer => readLayer_fuel n n' 0 d (by omega) (by omega)) fun d fewer =>
      readArguments_fuel n n' d (by omega) (by omega)

theorem readArguments_fuel : (n n' : Nat) → (c : Cursor) → 3 * c.unread + 4 ≤ n →
    3 * c.unread + 4 ≤ n' → readArguments n c = readArguments n' c
  | 0, _, _, h, _ => absurd h (by omega)
  | _, 0, _, _, h' => absurd h' (by omega)
  | n + 1, n' + 1, c, h, h' => by
    rw [readArguments, readArguments]
    refine bind_congr_at (readLayer_fuel n n' 0 c (by omega) (by omega)) fun first c₁ read => ?_
    have first_le := unread_of_layer read
    refine bind_congr_at rfl fun more c₂ accepted => ?_
    cases more with
    | false => rfl
    | true =>
      have comma := Reading.unread_of_accept accepted
      exact bind_congr_at (readArguments_fuel n n' c₂ (by omega) (by omega)) fun _ _ _ => rfl

end

end Expr

namespace Parse

variable {k k' : Setting} {weak p : Prop}

theorem Step.expr : Step k k' weak True (ofReading Expr.read) := by
  intro st
  have same : ofReading Expr.read =
      Parse.cursor >>= fun c => ofReading (Expr.readLayer (3 * c.unread + 3) 0) := rfl
  rw [same]
  refine .fueled (f := fun n => ofReading (Expr.readLayer n 0)) (fun st n n' h h' => ?_)
    fun n => (Step.readLayer n 0 st).mono False.elim id fun _ => id
  simp only [ofReading, Expr.readLayer_fuel n n' 0 _ h h']

/-! ### Statements -/

theorem equalsAfterPath_append : (ls next : List Lexeme) → ls ≠ [] →
    (∀ l, ls.getLast? = some l → l.isEdge) →
    Statement.equalsAfterPath (ls ++ next) = Statement.equalsAfterPath ls
  | [], _, more, _ => absurd rfl more
  | [l], next, _, edge => by
    have inner : l.kind ≠ .dot ∧ l.kind ≠ .equals := by
      have here := edge l rfl
      simp only [Lexeme.isEdge, Bool.or_eq_true, beq_iff_eq] at here
      rcases here with (kind | kind) | kind <;> simp [kind]
    cases next with
    | nil => rfl
    | cons l' next => simp [Statement.equalsAfterPath, inner]
  | l :: l' :: ls, next, _, edge => by
    rw [List.cons_append, List.cons_append, Statement.equalsAfterPath, Statement.equalsAfterPath]
    split
    · rename_i names
      have more : ls ≠ [] := by
        rintro rfl
        have kind : l'.kind = .identifier := by simp_all
        simpa [Lexeme.isEdge, kind] using edge l' rfl
      refine equalsAfterPath_append ls next more fun last h => edge last ?_
      simp [List.getLast?_cons, h]
    · rfl

theorem isAssignment_append (ls next : List Lexeme) (more : ls ≠ [])
    (edge : ∀ l, ls.getLast? = some l → l.isEdge) :
    Statement.isAssignment (ls ++ next) = Statement.isAssignment ls := by
  cases ls with
  | nil => exact absurd rfl more
  | cons l ls =>
    by_cases ended : ls = []
    · subst ended
      have here := edge l rfl
      simp only [Lexeme.isEdge, Bool.or_eq_true, beq_iff_eq] at here
      rcases here with (kind | kind) | kind <;> simp [Statement.isAssignment, kind]
    · have later : ∀ last, ls.getLast? = some last → last.isEdge := fun last h =>
        edge last (by simp [List.getLast?_cons, h])
      have same : (ls ++ next).head? = ls.head? := by
        cases ls with
        | nil => exact absurd rfl ended
        | cons l' ls => rfl
      simp only [List.cons_append, Statement.isAssignment, same,
        equalsAfterPath_append ls next ended later]

theorem StepAt.target {st : ParseState} {origin : Lexeme} (next : st.cursor.peek = some origin) :
    StepAt k k' weak True (ofReading (Statement.readTarget origin)) (fun _ => True) st := by
  rw [Statement.readTarget]
  split
  · rename_i kind
    have inner : ¬ origin.isEdge := by simp [Lexeme.isEdge, kind]
    rw [ofReading_bind]
    exact (StepAt.pass next inner).bind fun _ st => .pure id
  · exact Step.path st

theorem Step.statement : Step k k' weak True (ofReading Statement.read) := by
  intro st
  rw [Statement.read, ofReading_get]
  refine .cursor ?_ fun _ opened => ?_
  · cases next : st.cursor.peek with
    | none => exact Step.fail _ st
    | some origin =>
      dsimp only
      rw [ofReading_get]
      refine .cursor ?_ fun ready opened => ?_
      · split
        · simp only [ofReading_bind]
          refine (StepAt.target next).bind fun target st => ?_
          refine (Local.skip (by decide) st).bind fun _ st => ?_
          exact (Step.expr st).toLocalAt.bind fun e st => .pure id
        · rw [ofReading_bind]
          exact (Step.expr st).bind fun e st => .pure id
      · have look := ready.look (opened trivial) isAssignment_append
        rw [look.1, look.2]
        exact ⟨rfl, rfl⟩
  · have opened := opened trivial
    simp only [Cursor.peek_within opened.first, Cursor.peek_within opened.second, and_self]

end Parse

end Rsrc
