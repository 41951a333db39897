import Rsrc.Proofs.Expr.Folding
import Rsrc.Proofs.Expr.Grammar
import Rsrc.Proofs.Local.Expr

/-!
# Climbing reads the layered grammar

The reader of expressions has one loop for all layers, which is told the lowest layer that it may
take. The grammar has a chain of operators for each layer. Behind an operand the two meet: the loop
does what the chains do one after the other, from the tightest layer to the lowest (`Climbs`), since
a chain that finds none of its operators changes nothing.
-/

namespace Rsrc

theorem Cursor.head?_rest (c : Cursor) : c.rest.head? = c.peek := by
  obtain ⟨source, consumed, injected, ahead⟩ := c
  cases injected with
  | nil => cases ahead <;> rfl
  | cons l injected => rfl

namespace Grammar

variable {c c' : Cursor} {r : Outcome} {operators : Operators} {tighter : List Operators} {left : Expr}
  {op : BinaryOp} {layer : Nat}

/-! ### One behind the other -/

/-- The outcome of one part and, behind its tree, another; an error of the first is that of both. -/
inductive Then (P : Outcome → Prop) (Q : Expr → Cursor → Outcome → Prop) : Outcome → Prop
  | fails {error : GrammarError} {c : Cursor} (h : P (.error error c)) : Then P Q (.error error c)
  | follows {e : Expr} {c : Cursor} {r : Outcome} (first : P (.ok e c)) (h : Q e c r) : Then P Q r

section Then

variable {P P' : Outcome → Prop} {Q Q' R : Expr → Cursor → Outcome → Prop} {s : Symbol}

theorem Then.mono (h : Then P Q r) (first : ∀ r, P r → P' r)
    (second : ∀ e c r, Q e c r → Q' e c r) : Then P' Q' r := by
  cases h with
  | fails h => exact .fails (first _ h)
  | follows h h' => exact .follows (first _ h) (second _ _ _ h')

theorem Then.congr (first : ∀ r, P r ↔ P' r) (second : ∀ e c r, Q e c r ↔ Q' e c r) :
    Then P Q r ↔ Then P' Q' r :=
  ⟨fun h => h.mono (fun r => (first r).1) fun e c r => (second e c r).1,
    fun h => h.mono (fun r => (first r).2) fun e c r => (second e c r).2⟩

theorem Then.assoc : Then (Then P Q) R r ↔ Then P (fun e c => Then (Q e c) R) r := by
  constructor
  · intro h
    cases h with
    | fails h =>
      cases h with
      | fails h => exact .fails h
      | follows h h' => exact .follows h (.fails h')
    | follows h h' =>
      cases h with
      | follows h h'' => exact .follows h (.follows h'' h')
  · intro h
    cases h with
    | fails h => exact .fails (.fails h)
    | follows h h' =>
      cases h' with
      | fails h' => exact .fails (.follows h h')
      | follows h' h'' => exact .follows (.follows h h') h''

theorem phrase_eq : Phrase s c = Derives (rule s c.rest) c := rfl

theorem derives_phrase {rest : Expr → Production} :
    Derives (.phrase s rest) c r ↔ Then (Phrase s c) (fun e => Derives (rest e)) r := by
  constructor
  · intro h
    cases h with
    | fails h => exact .fails h
    | follows h h' => exact .follows h h'
  · intro h
    cases h with
    | fails h => exact .fails h
    | follows h h' => exact .follows h h'

/-- A phrase with nothing behind it. -/
theorem derives_last : Derives (.phrase s .tree) c r ↔ Phrase s c r := by
  rw [derives_phrase]
  constructor
  · intro h
    cases h with
    | fails h => exact h
    | follows h h' =>
      cases h'
      exact h
  · intro h
    cases r with
    | ok e c' => exact .follows h .tree
    | error error c' => exact .fails h

end Then

/-! ### Chains from the tightest layer on -/

/-- The chains of all layers behind an operand, the tightest first. -/
def Climbs : List Operators → Expr → Cursor → Outcome → Prop
  | [], left, c, r => r = .ok left c
  | operators :: tighter, left, c, r =>
    Then (Climbs tighter left c) (fun left => Phrase (.chain operators tighter left)) r

/-- An operand, and the chains behind it. -/
theorem phrase_layer (ls : List Operators) :
    Phrase (.layer ls) c r ↔ Then (Phrase .unary c) (Climbs ls) r := by
  induction ls generalizing r with
  | nil =>
    rw [Phrase, rule, derives_phrase]
    refine Then.congr (fun _ => .rfl) fun e c r => ?_
    constructor
    · intro h
      cases h
      rfl
    · rintro rfl
      exact .tree
  | cons operators tighter ih =>
    rw [Phrase, rule, derives_phrase]
    calc Then (Phrase (.layer tighter) c) _ r
        ↔ Then (Then (Phrase .unary c) (Climbs tighter))
            (fun left => Phrase (.chain operators tighter left)) r :=
          Then.congr (fun _ => ih) fun _ _ _ => derives_last
      _ ↔ Then (Phrase .unary c) (Climbs (operators :: tighter)) r := Then.assoc

/-- None of the operators is next. -/
def Clear (ls : List Operators) (c : Cursor) : Prop :=
  ∀ operators ∈ ls, lookAhead operators c.rest = none

theorem phrase_chain_of_none (h : lookAhead operators c.rest = none) :
    Phrase (.chain operators tighter left) c r ↔ r = .ok left c := by
  rw [Phrase, rule, h]
  constructor
  · intro h
    cases h
    rfl
  · intro h
    exact h ▸ .tree

theorem climbs_of_clear {ls : List Operators} (clear : Clear ls c) :
    Climbs ls left c r ↔ r = .ok left c := by
  induction ls generalizing r with
  | nil => rfl
  | cons operators tighter ih =>
    have none := clear operators List.mem_cons_self
    have others := fun {r} => ih (r := r) fun o member => clear o (List.mem_cons_of_mem _ member)
    constructor
    · intro h
      cases h with
      | fails h => cases others.1 h
      | follows h h' =>
        cases others.1 h
        exact (phrase_chain_of_none none).1 h'
    · rintro rfl
      exact .follows (others.2 rfl) ((phrase_chain_of_none none).2 rfl)

/-- An operator of one layer, with nothing of the tighter ones before it or behind its right
operand, continues the chains of all layers. -/
theorem Climbs.step {looser : List Operators} {right : Expr}
    (next : lookAhead operators c.rest = some op) (before : Clear tighter c)
    (read : Phrase (.layer tighter) c.advance (.ok right c')) (behind : Clear tighter c')
    (h : Climbs (looser ++ operators :: tighter) (.binary op left right) c' r) :
    Climbs (looser ++ operators :: tighter) left c r := by
  induction looser generalizing r with
  | nil =>
    refine .follows ((climbs_of_clear before).2 rfl) ?_
    rw [Phrase, rule, next]
    refine .pass (.follows read ?_)
    rw [derives_last]
    cases h with
    | fails h => cases (climbs_of_clear behind).1 h
    | follows h h' =>
      cases (climbs_of_clear behind).1 h
      exact h'
  | cons _ looser ih => exact h.mono (fun _ => ih) fun _ _ _ => id

theorem Climbs.fails {looser : List Operators} {error : GrammarError}
    (next : lookAhead operators c.rest = some op) (before : Clear tighter c)
    (read : Phrase (.layer tighter) c.advance (.error error c')) :
    Climbs (looser ++ operators :: tighter) left c (.error error c') := by
  induction looser with
  | nil =>
    refine .follows ((climbs_of_clear before).2 rfl) ?_
    rw [Phrase, rule, next]
    exact .pass (.fails read)
  | cons _ looser ih => exact Then.fails ih

/-! ### Operators by layer and by table -/

theorem lookup_layer {i : Nat} (h : layers[i]? = some operators) (kind : LexemeKind) :
    operators.lookup kind = (BinaryOp.ofKind? kind).filter (·.layer = i + 1) := by
  match i with
  | 0 | 1 | 2 | 3 | 4 | 5 =>
    cases h
    cases kind <;> rfl
  | _ + 6 => simp [layers] at h

theorem lookAhead_layer {i : Nat} (h : layers[i]? = some operators) :
    lookAhead operators c.rest =
      (c.peekKind.bind BinaryOp.ofKind?).filter (·.layer = i + 1) := by
  rw [lookAhead, Cursor.head?_rest, Cursor.peekKind]
  cases c.peek with
  | none => rfl
  | some l => exact lookup_layer h l.kind

theorem clear_drop {k : Nat}
    (h : ∀ op, c.peekKind.bind BinaryOp.ofKind? = some op → op.layer ≤ k) :
    Clear (layers.drop k) c := by
  intro operators member
  obtain ⟨i, found⟩ := List.mem_iff_getElem?.1 member
  rw [List.getElem?_drop] at found
  rw [lookAhead_layer found, Option.filter_eq_none_iff]
  intro op next
  have bound := h op next
  simp only [decide_eq_true_eq]
  omega

theorem clear_of_operator? (h : c.operator? layer = none) : Clear (layers.drop (layer - 1)) c := by
  refine clear_drop fun op next => ?_
  rw [Cursor.operator?, next, Option.filter_some, ite_eq_right_iff] at h
  simp only [decide_eq_true_eq, reduceCtorEq, imp_false] at h
  omega

theorem operator?_eq_some (h : c.operator? layer = some op) :
    c.peekKind.bind BinaryOp.ofKind? = some op ∧ layer ≤ op.layer := by
  rw [Cursor.operator?, Option.filter_eq_some_iff] at h
  exact h.imp id of_decide_eq_true

theorem layer_bounds (op : BinaryOp) : 1 ≤ op.layer ∧ op.layer ≤ layers.length := by
  cases op <;> decide

/-- The layers from one on, up to that of an operator and behind it. -/
theorem exists_drop_eq (h : layer ≤ op.layer) :
    ∃ looser operators, layers[op.layer - 1]? = some operators ∧
      layers.drop (layer - 1) = looser ++ operators :: layers.drop op.layer := by
  obtain ⟨lower, upper⟩ := layer_bounds op
  have inside : op.layer - 1 < layers.length := by omega
  have start : layer - 1 + (op.layer - 1 - (layer - 1)) = op.layer - 1 := by omega
  have stop : op.layer - 1 + 1 = op.layer := by omega
  refine ⟨(layers.drop (layer - 1)).take (op.layer - 1 - (layer - 1)), layers[op.layer - 1],
    List.getElem?_eq_getElem inside, ?_⟩
  calc layers.drop (layer - 1)
      = (layers.drop (layer - 1)).take (op.layer - 1 - (layer - 1)) ++
          layers.drop (op.layer - 1) := by
        rw [← start, ← List.drop_drop, start, List.take_append_drop]
    _ = _ := by rw [List.drop_eq_getElem_cons inside, stop]

end Grammar

/-! ### What readers make of the lexemes -/

namespace Reading

variable {c : Cursor} {kind : LexemeKind}

theorem isAt_kind : c.isAt kind = (c.peekKind == some kind) := by
  rw [Cursor.isAt, Cursor.peekKind]
  cases c.peek with
  | none => rfl
  | some l => simp [Expectation.matched]

theorem accept_of_eq (h : c.peekKind = some kind) : accept kind c = .ok true c.advance := by
  rw [accept, isAt_kind, if_pos (beq_iff_eq.2 h)]

theorem accept_of_ne (h : c.peekKind ≠ some kind) : accept kind c = .ok false c := by
  rw [accept, isAt_kind, if_neg fun same => h (beq_iff_eq.1 same)]

theorem skip_kind :
    skip kind c = if c.peekKind = some kind then .ok () c.advance
      else .error (c.unexpected kind.describe) c := by
  have described : (kind : Expectation).describe = kind.describe := by
    simp [Expectation.describe]
  rw [skip, Parse.discard_eq]
  change EStateM.bind (matching kind (kind : Expectation).describe) _ c = _
  rw [EStateM.bind, matching, described, Cursor.peekKind, Cursor.unexpected]
  cases c.peek with
  | none => rfl
  | some l =>
    by_cases same : l.kind = kind
    · simp [Expectation.matched, same]
      rfl
    · simp [Expectation.matched, same]

theorem identifier_eq {l : Lexeme} (next : c.peek = some l) (kind : l.kind = .identifier) :
    identifier c = .ok l c.advance := by
  rw [identifier, one, matching, next]
  simp [Expectation.matched, kind]

theorem advance_bind {α : Type} (x : Reading α) :
    (do modify Cursor.advance; x : Reading α) c = x c.advance := rfl

end Reading

namespace Grammar

variable {c c' : Cursor} {r : Outcome} {n : Nat}

theorem rest_advance (c : Cursor) : c.advance.rest = c.rest.tail := by
  obtain ⟨source, consumed, injected, ahead⟩ := c
  cases injected with
  | nil => cases ahead <;> rfl
  | cons l injected => rfl

theorem peekKind_eq : c.peekKind = c.rest.head?.map (·.kind) := by
  rw [Cursor.peekKind, Cursor.head?_rest]

/-! ### Paths -/

variable (name : String)

theorem rule_path_more (h : c.expects [LexemeKind.dot, LexemeKind.identifier]) :
    ∃ l, c.advance.peek = some l ∧ l.kind = .identifier ∧ c.peekKind = some .dot ∧
      rule (.path name) c.rest =
        .pass (.pass (.phrase (.path (name ++ "." ++ l.text)) .tree)) := by
  rw [← Cursor.head?_rest, peekKind_eq, rest_advance]
  rw [Cursor.expects] at h
  generalize c.rest = rest at h ⊢
  rcases rest with _ | ⟨⟨first, _, _, _, _, _⟩, _ | ⟨⟨second, text, _, _, _, _⟩, _⟩⟩
  · cases h
  · simp [Cursor.matchesAll] at h
  · obtain ⟨rfl, rfl⟩ : first = .dot ∧ second = .identifier := by
      simpa [Cursor.matchesAll, Expectation.matched] using h
    exact ⟨_, rfl, rfl, rfl, rfl⟩

theorem rule_path_end (h : ¬ c.expects [LexemeKind.dot, LexemeKind.identifier]) :
    rule (.path name) c.rest =
      if c.peekKind = some .leftParen then
        if c.advance.peekKind = some .rightParen then .pass (.pass (.tree (.call name [])))
        else .pass (.phrase (.layer layers) fun first => .phrase (.arguments name [first]) .tree)
      else .tree (.var name) := by
  rw [peekKind_eq, peekKind_eq, rest_advance]
  rw [Cursor.expects] at h
  generalize c.rest = rest at h ⊢
  rcases rest with _ | ⟨⟨first, _, _, _, _, _⟩, _ | ⟨⟨second, _, _, _, _, _⟩, _⟩⟩
  · rfl
  · cases first <;> rfl
  · by_cases dot : first = .dot
    · subst dot
      have other : second ≠ .identifier := by
        rintro rfl
        exact h rfl
      cases second <;> first | rfl | exact absurd rfl other
    · by_cases paren : first = .leftParen
      · subst paren
        cases second <;> rfl
      · cases first <;> first | rfl | contradiction

/-- The reader stops where the path ends, and what follows from there on follows the path. -/
theorem pathFrom_eq (enough : c.unread ≤ n) :
    ∃ path c', Reading.pathFrom name n c = .ok path c' ∧ c'.unread ≤ c.unread ∧
      ¬ c'.expects [LexemeKind.dot, LexemeKind.identifier] ∧
      ∀ r, Phrase (.path path) c' r → Phrase (.path name) c r := by
  induction n generalizing name c with
  | zero =>
    have ended : c.rest = [] := by
      apply List.eq_nil_of_length_eq_zero
      rw [Cursor.rest, List.length_append]
      exact Nat.le_zero.1 enough
    refine ⟨name, c, rfl, Nat.le_refl _, ?_, fun _ => id⟩
    rw [Cursor.expects, ended]
    exact Bool.false_ne_true
  | succ n ih =>
    rw [Reading.pathFrom]
    by_cases more : c.expects [LexemeKind.dot, LexemeKind.identifier]
    · obtain ⟨l, second, identifier, first, production⟩ := rule_path_more name more
      have dotted : Reading.skip LexemeKind.dot c = .ok () c.advance := by
        rw [Reading.skip_kind, if_pos first]
      have next : ∃ l, c.peek = some l := by
        rw [Cursor.peekKind, Option.map_eq_some_iff] at first
        exact first.imp fun _ => And.left
      obtain ⟨_, next⟩ := next
      have passed := Cursor.unread_advance next
      have passed' := Cursor.unread_advance second
      obtain ⟨path, c', read, less, ended, follows⟩ :=
        ih (c := c.advance.advance) (name ++ "." ++ l.text) (by omega)
      refine ⟨path, c', ?_, by omega, ended, fun r behind => ?_⟩
      · show (if c.expects _ then _ else _ : Reading String) c = _
        rw [if_pos more, bind_of_ok dotted, bind_of_ok (Reading.identifier_eq second identifier)]
        exact read
      · rw [Phrase, production]
        exact .pass (.pass (derives_last.2 (follows r behind)))
    · refine ⟨name, c, ?_, Nat.le_refl _, more, fun _ => id⟩
      show (if c.expects _ then _ else _ : Reading String) c = _
      rw [if_neg more]
      rfl

theorem path_eq {l : Lexeme} (next : c.peek = some l) (kind : l.kind = .identifier) :
    ∃ path c', Reading.path c = .ok path c' ∧ c'.unread ≤ c.advance.unread ∧
      ¬ c'.expects [LexemeKind.dot, LexemeKind.identifier] ∧
      ∀ r, Phrase (.path path) c' r → Phrase (.path l.text) c.advance r := by
  obtain ⟨path, c', read, others⟩ := pathFrom_eq (c := c.advance) l.text (Nat.le_refl _)
  refine ⟨path, c', ?_, others⟩
  rw [Reading.path, bind_of_ok (Reading.identifier_eq next kind), get_bind]
  exact read

/-! ### Readers and the grammar -/

def Outcome.folded : Outcome → Outcome
  | .ok e c => .ok e.folded c
  | .error error c => .error error c

/-- The reader's outcome is the folded one of the grammar. -/
def Agrees (x : Outcome) (P : Outcome → Prop) : Prop := ∃ r, P r ∧ x = Outcome.folded r

namespace Agrees

variable {P : Outcome → Prop} {Q : Expr → Cursor → Outcome → Prop}

theorem bind {x : Reading Expr} {f : Expr → Reading Expr} (first : Agrees (x c) P)
    (second : ∀ e c', x c = .ok e.folded c' → P (.ok e c') → Agrees (f e.folded c') (Q e c')) :
    Agrees ((x >>= f) c) (Then P Q) := by
  obtain ⟨r, holds, ran⟩ := first
  cases r with
  | ok e c' =>
    obtain ⟨r, holds', ran'⟩ := second e c' ran holds
    refine ⟨r, .follows holds holds', ?_⟩
    rw [bind_of_ok ran, ran']
  | error error c' =>
    refine ⟨_, .fails holds, ?_⟩
    rw [bind_of_error ran]
    rfl

theorem mono {x : Outcome} {P' : Outcome → Prop} (h : Agrees x P) (imp : ∀ r, P r → P' r) :
    Agrees x P' := by
  obtain ⟨r, holds, ran⟩ := h
  exact ⟨r, imp r holds, ran⟩

end Agrees

/-- A reader stops in front of no operator that it may take. -/
theorem operator?_of_readOperators {layer : Nat} {left e : Expr}
    (h : Expr.readOperators n layer left c = .ok e c') : c'.operator? layer = none := by
  induction n generalizing left c with
  | zero => cases h
  | succ n ih =>
    rw [Expr.readOperators, get_bind] at h
    cases next : c.operator? layer with
    | none =>
      rw [next] at h
      cases h
      exact next
    | some op =>
      rw [next] at h
      dsimp only at h
      rw [Reading.advance_bind] at h
      cases ran : Expr.readLayer n (op.layer + 1) c.advance with
      | ok right c'' =>
        rw [bind_of_ok ran] at h
        exact ih h
      | error error c'' =>
        rw [bind_of_error ran] at h
        cases h

theorem operator?_of_readLayer {layer : Nat} {e : Expr} (h : Expr.readLayer n layer c = .ok e c') :
    c'.operator? layer = none := by
  cases n with
  | zero => cases h
  | succ n =>
    rw [Expr.readLayer] at h
    cases ran : Expr.readUnary n c with
    | ok left c'' =>
      rw [bind_of_ok ran] at h
      exact operator?_of_readOperators h
    | error error c'' =>
      rw [bind_of_error ran] at h
      cases h

theorem lookAhead_prefixes : lookAhead prefixes c.rest = c.peekKind.bind UnaryOp.ofKind? := by
  rw [lookAhead, Cursor.head?_rest, Cursor.peekKind]
  cases c.peek with
  | none => rfl
  | some l =>
    show prefixes.lookup l.kind = UnaryOp.ofKind? l.kind
    cases l.kind <;> rfl

theorem skip_closing (paren : c.peekKind = some .rightParen) :
    Reading.skip LexemeKind.rightParen c = .ok () c.advance := by
  rw [Reading.skip_kind, if_pos paren]

theorem skip_unclosed (paren : c.peekKind ≠ some .rightParen) :
    Reading.skip LexemeKind.rightParen c = .error (c.unexpected "')'") c := by
  rw [Reading.skip_kind, if_neg paren]
  rfl

theorem rule_closing (inner : Expr) : rule (.closing inner) c.rest =
    if c.peekKind = some .rightParen then .pass (.tree inner) else .missing "')'" := by
  rw [peekKind_eq]
  match c.rest with
  | [] => rfl
  | ⟨kind, _, _, _, _, _⟩ :: _ => cases kind <;> rfl

theorem rule_arguments (before : List Expr) : rule (.arguments name before) c.rest =
      if c.peekKind = some .comma then
        .pass (.phrase (.layer layers) fun next =>
          .phrase (.arguments name (before ++ [next])) .tree)
      else if c.peekKind = some .rightParen then .pass (.tree (.call name before))
      else .missing "')'" := by
  rw [peekKind_eq]
  match c.rest with
  | [] => rfl
  | ⟨kind, _, _, _, _, _⟩ :: _ => cases kind <;> rfl

theorem closing_agrees (e : Expr) :
    Agrees ((do Reading.skip LexemeKind.rightParen; return e.folded : Reading Expr) c)
      (Phrase (.closing e) c) := by
  rw [phrase_eq, rule_closing]
  by_cases paren : c.peekKind = some .rightParen
  · rw [bind_of_ok (skip_closing paren), if_pos paren]
    exact ⟨_, .pass .tree, rfl⟩
  · rw [bind_of_error (skip_unclosed paren), if_neg paren]
    exact ⟨_, .missing, rfl⟩

/-- Behind a path, given that the arguments of a call are read as the grammar has them. -/
theorem named_agrees {name : String} {arguments : Reading (List Expr)}
    (ended : ¬ c.expects [LexemeKind.dot, LexemeKind.identifier])
    (h : c.peekKind = some .leftParen →
      Agrees ((do return .call name (← arguments) : Reading Expr) c.advance)
        (Then (Phrase (.layer layers) c.advance) fun e => Phrase (.arguments name [e]))) :
    Agrees ((do
      if ← Reading.accept LexemeKind.leftParen then
        if ← Reading.accept LexemeKind.rightParen then return .call name []
        return .call name (← arguments)
      else return .var name : Reading Expr) c) (Phrase (.path name) c) := by
  rw [phrase_eq, rule_path_end name ended]
  by_cases paren : c.peekKind = some .leftParen
  · rw [bind_of_ok (Reading.accept_of_eq paren), if_pos rfl, if_pos paren]
    by_cases empty : c.advance.peekKind = some .rightParen
    · rw [bind_of_ok (Reading.accept_of_eq empty), if_pos rfl, if_pos empty]
      exact ⟨_, .pass (.pass .tree), rfl⟩
    · rw [bind_of_ok (Reading.accept_of_ne empty), if_neg Bool.false_ne_true, if_neg empty]
      refine (h paren).mono fun r behind => .pass (derives_phrase.2 ?_)
      exact behind.mono (fun _ => id) fun _ _ _ => derives_last.2
  · rw [bind_of_ok (Reading.accept_of_ne paren), if_neg Bool.false_ne_true, if_neg paren]
    exact ⟨_, .tree, rfl⟩

mutual

theorem readLayer_agrees : (n layer : Nat) → (c : Cursor) → 3 * c.unread + 3 ≤ n →
    Agrees (Expr.readLayer n layer c) (Phrase (.layer (layers.drop (layer - 1))) c)
  | 0, _, _, h => absurd h (by omega)
  | n + 1, layer, c, h => by
    rw [Expr.readLayer]
    refine Agrees.mono ?_ fun r => (phrase_layer _).2
    refine (readUnary_agrees n c (by omega)).bind fun left c' ran _ => ?_
    have less := Expr.unread_of_unary ran
    exact readOperators_agrees n layer left c' (by omega)

theorem readOperators_agrees : (n layer : Nat) → (left : Expr) → (c : Cursor) →
    3 * c.unread + 1 ≤ n →
    Agrees (Expr.readOperators n layer left.folded c) (Climbs (layers.drop (layer - 1)) left c)
  | 0, _, _, _, h => absurd h (by omega)
  | n + 1, layer, left, c, h => by
    rw [Expr.readOperators, get_bind]
    cases next : c.operator? layer with
    | none => exact ⟨_, (climbs_of_clear (clear_of_operator? next)).2 rfl, rfl⟩
    | some op =>
      obtain ⟨l, here, -⟩ := Parse.exists_of_operator? next
      have passed := Cursor.unread_advance here
      obtain ⟨known, bound⟩ := operator?_eq_some next
      obtain ⟨looser, operators, found, split⟩ := exists_drop_eq bound
      have ahead : lookAhead operators c.rest = some op := by
        have positive := (layer_bounds op).1
        rw [lookAhead_layer found, known, Option.filter_some, if_pos]
        simp only [decide_eq_true_eq]
        omega
      have before : Clear (layers.drop op.layer) c := by
        refine clear_drop fun op' same => ?_
        cases known.symm.trans same
        exact Nat.le_refl _
      dsimp only
      rw [split, Reading.advance_bind]
      -- The right operand takes all that binds tighter, so what is next behind it does not.
      obtain ⟨r, read, ran⟩ := readLayer_agrees n (op.layer + 1) c.advance (by omega)
      cases r with
      | error error c' =>
        refine ⟨_, Climbs.fails ahead before read, ?_⟩
        rw [bind_of_error ran]
        rfl
      | ok right c' =>
        have behind := clear_of_operator? (operator?_of_readLayer ran)
        have less := Expr.unread_of_layer ran
        rw [bind_of_ok ran]
        have others := readOperators_agrees n layer (.binary op left right) c' (by omega)
        rw [split] at others
        exact others.mono fun r => Climbs.step ahead before read behind

theorem readUnary_agrees : (n : Nat) → (c : Cursor) → 3 * c.unread + 2 ≤ n →
    Agrees (Expr.readUnary n c) (Phrase .unary c)
  | 0, _, h => absurd h (by omega)
  | n + 1, c, h => by
    rw [Expr.readUnary, get_bind]
    cases next : c.peekKind.bind UnaryOp.ofKind? with
    | none =>
      refine (readPrimary_agrees n c (by omega)).mono fun r primary => ?_
      rw [Phrase, rule, lookAhead_prefixes, next]
      exact derives_last.2 primary
    | some op =>
      obtain ⟨l, here, -⟩ := Parse.exists_of_unary next
      have passed := Cursor.unread_advance here
      have operand := readUnary_agrees n c.advance (by omega)
      have whole : Agrees ((Expr.readUnary n >>= fun e => pure (Expr.applyUnary op e)) c.advance)
          (Then (Phrase .unary c.advance) fun e => Derives (.tree (.unary op e))) := by
        refine operand.bind fun e c' _ _ => ⟨_, .tree, ?_⟩
        rw [Expr.applyUnary_folded]
        rfl
      refine whole.mono fun r behind => ?_
      rw [Phrase, rule, lookAhead_prefixes, next]
      exact .pass (derives_phrase.2 behind)

theorem readPrimary_agrees : (n : Nat) → (c : Cursor) → 3 * c.unread + 1 ≤ n →
    Agrees (Expr.readPrimary n c) (Phrase .primary c)
  | 0, _, h => absurd h (by omega)
  | n + 1, c, h => by
    rw [Expr.readPrimary, get_bind]
    cases next : c.peek with
    | none =>
      have ended : c.rest = [] := List.head?_eq_none_iff.1 ((Cursor.head?_rest c).trans next)
      rw [phrase_eq, ended]
      exact ⟨_, .missing, rfl⟩
    | some l =>
      obtain ⟨more, rest⟩ := List.head?_eq_some_iff.1 ((Cursor.head?_rest c).trans next)
      have passed := Cursor.unread_advance next
      rw [phrase_eq, rest, rule]
      dsimp only
      cases Value.ofLexeme? l with
      | some value => exact ⟨_, .pass .tree, rfl⟩
      | none =>
        dsimp only
        cases kind : l.kind
        case var => exact ⟨_, .pass .tree, rfl⟩
        case identifier =>
          obtain ⟨path, c', read, less, ended, follows⟩ := path_eq next kind
          dsimp only
          rw [bind_of_ok read]
          refine (named_agrees ended fun opened => ?_).mono fun r behind =>
            .pass (derives_last.2 (follows r behind))
          have passed := Reading.unread_of_accept (Reading.accept_of_eq opened)
          exact readArguments_agrees n path [] c'.advance (by omega)
        case leftParen =>
          have inner := readLayer_agrees n 0 c.advance (by omega)
          have whole : Agrees ((do
              let e ← Expr.readLayer n 0
              Reading.skip LexemeKind.rightParen
              return e : Reading Expr) c.advance)
              (Then (Phrase (.layer layers) c.advance) fun e => Phrase (.closing e)) :=
            inner.bind fun e c' _ _ => closing_agrees e
          refine whole.mono fun r behind => .pass (derives_phrase.2 ?_)
          exact behind.mono (fun _ => id) fun _ _ _ => derives_last.2
        all_goals exact ⟨_, .missing, rfl⟩

theorem readArguments_agrees : (n : Nat) → (name : String) → (before : List Expr) → (c : Cursor) →
    3 * c.unread + 4 ≤ n →
    Agrees
      ((do return .call name (Expr.foldedAll before ++ (← Expr.readArguments n)) : Reading Expr) c)
      (Then (Phrase (.layer layers) c) fun e => Phrase (.arguments name (before ++ [e])))
  | 0, _, _, _, h => absurd h (by omega)
  | n + 1, name, before, c, h => by
    rw [Expr.readArguments, bind_assoc]
    refine (readLayer_agrees n 0 c (by omega)).bind fun first c' ran _ => ?_
    have less := Expr.unread_of_layer ran
    rw [bind_assoc]
    by_cases comma : c'.peekKind = some .comma
    · have accepted := Reading.accept_of_eq comma
      have passed := Reading.unread_of_accept accepted
      have others := readArguments_agrees n name (before ++ [first]) c'.advance (by omega)
      rw [bind_of_ok accepted, if_pos rfl, bind_assoc]
      have joined : ∀ es, Expr.foldedAll (before ++ [first]) ++ es =
          Expr.foldedAll before ++ first.folded :: es := by
        intro es
        rw [Expr.foldedAll_append, List.append_assoc]
        rfl
      simp only [joined] at others
      refine others.mono fun r behind => ?_
      rw [Phrase, rule_arguments, if_pos comma]
      refine .pass (derives_phrase.2 (behind.mono (fun _ => id) fun _ _ _ => ?_))
      exact derives_last.2
    · rw [bind_of_ok (Reading.accept_of_ne comma), if_neg Bool.false_ne_true, bind_assoc,
        phrase_eq, rule_arguments, if_neg comma]
      by_cases paren : c'.peekKind = some .rightParen
      · rw [bind_of_ok (skip_closing paren), if_pos paren]
        refine ⟨_, .pass .tree, ?_⟩
        rw [Outcome.folded, Expr.folded, Expr.foldedAll_append]
        rfl
      · rw [bind_of_error (skip_unclosed paren), if_neg paren]
        exact ⟨_, .missing, rfl⟩

end

end Grammar

/-- Expressions are read by the grammar of six layers that associate to the left: in front of every
cursor the grammar has one outcome, and the reader has the same, be it a tree and the cursor behind
the phrase or an error and the cursor where it was found. Only negated integer literals that fit are
literals in the reader's tree, and both trees have the same value, or the same failure, in every
scope. -/
theorem Expr.read_layered (c : Cursor) :
    ∃ r, (∀ r', Grammar.Expression c r' ↔ r' = r) ∧ Expr.read c = Grammar.Outcome.folded r ∧
      ∀ (e : Expr) (scope : ScopeId), e.folded.eval scope = e.eval scope := by
  obtain ⟨r, expression, ran⟩ := Grammar.readLayer_agrees (3 * c.unread + 3) 0 c (Nat.le_refl _)
  refine ⟨r, fun r' => ⟨fun h => expression.unique h, ?_⟩, ran, fun e scope => ?_⟩
  · rintro rfl
    exact expression
  · exact Expr.evaluate_folded Scopes.call scope e

end Rsrc
