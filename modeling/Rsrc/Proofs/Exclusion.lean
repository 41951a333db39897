import Rsrc.Proofs.Insertion

/-!
# Excluded constructs

Decorators stand in front of a construct. If one of them is a condition that does not hold, the
construct is skipped by its braces and semicolons alone, and the decorators are gone with it. So the
file comes to the same as without the decorators and the construct (`file_of_excluded_construct`).
Decorators are described by a grammar, whose instances are read as the decorators that they stand for.
-/

namespace Rsrc

/-! ### Decorators as lexemes -/

/-- The lexemes, which have no braces and semicolons in them, are read as an expression where a comma
or a parenthesis follows. -/
structure Expr.WrittenAs (e : Expr) (ls : List Lexeme) : Prop where
  flat : Lexeme.Flat ls
  read : ∀ (c : Cursor) (rest : List Lexeme), c.injected = [] → c.ahead = ls ++ rest →
    (∃ l, rest.head? = some l ∧ (l.kind = .comma ∨ l.kind = .rightParen)) →
    Expr.read c = .ok e { c with consumed := ls.reverse ++ c.consumed, ahead := rest }

/-- What can be an argument of a decorator. -/
def LexemeKind.isArgument : LexemeKind → Bool
  | identifier | string | integer | decimal => true
  | _ => false

/-- The lexemes are a value, and this is its text: a literal, or a variable or a call that is evaluated
to one. -/
inductive Lexeme.Valued (scopes : Scopes) : List Lexeme → String → Prop
  | literal {l : Lexeme} (kind : l.kind.isArgument) : Valued scopes [l] l.text
  | var {l : Lexeme} {ls : List Lexeme} {e : Expr} {value : Value} (kind : l.kind = .var)
    (written : e.WrittenAs (l :: ls)) (evaluated : e.eval Scopes.rootId scopes = .ok value scopes)
    (literal : (value.toLexeme l).kind.isArgument) :
    Valued scopes (l :: ls) (value.toLexeme l).text
  | call {l opening : Lexeme} {ls : List Lexeme} {e : Expr} {value : Value}
    (kind : l.kind = .identifier) (opens : opening.kind = .leftParen)
    (written : e.WrittenAs (l :: opening :: ls))
    (evaluated : e.eval Scopes.rootId scopes = .ok value scopes)
    (literal : (value.toLexeme l).kind.isArgument) :
    Valued scopes (l :: opening :: ls) (value.toLexeme l).text

/-- The lexemes are an argument of a decorator. -/
inductive Lexeme.Argued (scopes : Scopes) : List Lexeme → String → Prop
  | plain {ls : List Lexeme} {text : String} (h : Valued scopes ls text) : Argued scopes ls text
  | negated {mark : Lexeme} {ls : List Lexeme} {text : String} (kind : mark.kind = .exclaim)
    (h : Valued scopes ls text) : Argued scopes (mark :: ls) ("!" ++ text)

/-- The lexemes are arguments with commas between them. -/
inductive Lexeme.Listed (scopes : Scopes) : List Lexeme → List String → Prop
  | last {ls : List Lexeme} {text : String} (h : Argued scopes ls text) : Listed scopes ls [text]
  | more {ls rest : List Lexeme} {comma : Lexeme} {text : String} {texts : List String}
    (h : Argued scopes ls text) (kind : comma.kind = .comma) (others : Listed scopes rest texts) :
    Listed scopes (ls ++ comma :: rest) (text :: texts)

/-- The lexemes are a decorator. -/
inductive Lexeme.Decorating (scopes : Scopes) : List Lexeme → Decorator → Prop
  | bare {l : Lexeme} (kind : l.kind = .decorator) :
    Decorating scopes [l] { name := l.text, origin := l }
  | empty {l opening closing : Lexeme} (kind : l.kind = .decorator) (opens : opening.kind = .leftParen)
    (closes : closing.kind = .rightParen) :
    Decorating scopes [l, opening, closing] { name := l.text, origin := l }
  | list {l opening closing : Lexeme} {ls : List Lexeme} {arguments : List String}
    (kind : l.kind = .decorator) (opens : opening.kind = .leftParen) (h : Listed scopes ls arguments)
    (closes : closing.kind = .rightParen) :
    Decorating scopes (l :: opening :: (ls ++ [closing])) { name := l.text, arguments, origin := l }

/-- The lexemes are decorators, one after another. -/
inductive Lexeme.Decorated (scopes : Scopes) : List Lexeme → List Decorator → Prop
  | nil : Decorated scopes [] []
  | cons {ls rest : List Lexeme} {d : Decorator} {ds : List Decorator} (h : Decorating scopes ls d)
    (others : Decorated scopes rest ds) : Decorated scopes (ls ++ rest) (d :: ds)

/-! ### Decorators have no braces in them -/

namespace Lexeme

variable {scopes : Scopes} {ls ms : List Lexeme} {l : Lexeme}

theorem Flat.nil : Flat [] := fun _ member => nomatch member

theorem Flat.cons (h : ¬ l.isEdge) (rest : Flat ls) : Flat (l :: ls) := by
  intro l' member
  rcases List.mem_cons.1 member with rfl | member
  · exact h
  · exact rest l' member

theorem Flat.append (h : Flat ls) (rest : Flat ms) : Flat (ls ++ ms) := by
  intro l member
  rcases List.mem_append.1 member with member | member
  · exact h l member
  · exact rest l member

theorem Valued.flat {text : String} (h : Valued scopes ls text) : Flat ls := by
  cases h with
  | literal kind =>
    rename_i l
    refine .cons ?_ .nil
    revert kind
    cases same : l.kind <;> simp [LexemeKind.isArgument, isEdge, same]
  | var kind written => exact written.flat
  | call kind opens written => exact written.flat

theorem Argued.flat {text : String} (h : Argued scopes ls text) : Flat ls := by
  cases h with
  | plain valued => exact valued.flat
  | negated kind valued => exact .cons (by simp [isEdge, kind]) valued.flat

theorem Listed.flat {texts : List String} (h : Listed scopes ls texts) : Flat ls := by
  induction h with
  | last argued => exact argued.flat
  | more argued kind others ih => exact argued.flat.append (.cons (by simp [isEdge, kind]) ih)

theorem Decorating.flat {d : Decorator} (h : Decorating scopes ls d) : Flat ls := by
  cases h with
  | bare kind => exact .cons (by simp [isEdge, kind]) .nil
  | empty kind opens closes =>
    exact .cons (by simp [isEdge, kind]) (.cons (by simp [isEdge, opens])
      (.cons (by simp [isEdge, closes]) .nil))
  | list kind opens listed closes =>
    exact .cons (by simp [isEdge, kind]) (.cons (by simp [isEdge, opens])
      (listed.flat.append (.cons (by simp [isEdge, closes]) .nil)))

theorem Decorated.flat {ds : List Decorator} (h : Decorated scopes ls ds) : Flat ls := by
  induction h with
  | nil => exact .nil
  | cons decorating others ih => exact decorating.flat.append ih

end Lexeme

namespace Parse

open Lexeme

variable {source : SourceFile} {s : Session} {read rest : List Lexeme} {l : Lexeme}
  {e : Expectation} {ahead ls C : List Lexeme} {text : String} {scopes : Scopes}
  {texts : List String} {d : Decorator} {ds : List Decorator}

/-! ### Reading one lexeme -/

theorem advance_between :
    (s.between source read (l :: rest)).cursor.advance = (s.between source (read ++ [l]) rest).cursor := by
  simp [Session.between, Cursor.advance]

theorem ofReading_between {α : Type} {r : Reading α} {a : α} {read' ahead' : List Lexeme}
    (run : r (s.between source read ahead).cursor = .ok a (s.between source read' ahead').cursor) :
    ofReading r (s.between source read ahead) = .ok a (s.between source read' ahead') := by
  unfold ofReading
  rw [run]
  rfl

theorem one_between (fits : e.matched l) :
    ofReading (Reading.one e) (s.between source read (l :: rest)) =
      .ok l (s.between source (read ++ [l]) rest) := by
  refine ofReading_between ?_
  rw [← advance_between]
  exact if_pos fits

theorem skip_between (fits : e.matched l) :
    ofReading (Reading.skip e) (s.between source read (l :: rest)) =
      .ok () (s.between source (read ++ [l]) rest) := by
  refine ofReading_between ?_
  have one : Reading.one e (s.between source read (l :: rest)).cursor = .ok l _ := if_pos fits
  rw [Reading.skip, discard_eq, bind_of_ok one, advance_between]
  rfl

theorem accept_between (fits : e.matched l) :
    ofReading (Reading.accept e) (s.between source read (l :: rest)) =
      .ok true (s.between source (read ++ [l]) rest) := by
  refine ofReading_between ?_
  rw [← advance_between]
  exact if_pos fits

theorem accept_between_other (other : ¬ e.matched l) :
    ofReading (Reading.accept e) (s.between source read (l :: rest)) =
      .ok false (s.between source read (l :: rest)) :=
  ofReading_between (if_neg other)

/-! ### Reading arguments -/

section

variable (follows : ∃ l, rest.head? = some l ∧ (l.kind = .comma ∨ l.kind = .rightParen))
include follows

/-- A literal is read for a variable or a call. -/
theorem inlineValue_between {v : Expr} {value : Value}
    (computed : (s.between source read (l :: ls ++ rest)).cursor.isAt LexemeKind.var ||
      (s.between source read (l :: ls ++ rest)).cursor.expects
        [LexemeKind.identifier, LexemeKind.leftParen]) (written : v.WrittenAs (l :: ls))
    (evaluated : v.eval Scopes.rootId s.scopes = .ok value s.scopes) :
    (inlineValue >>= fun _ => ofReading Reading.any) (s.between source read (l :: ls ++ rest)) =
      .ok (value.toLexeme l) (s.between source (read ++ l :: ls) rest) := by
  have expr : ofReading Expr.read (s.between source read (l :: ls ++ rest)) =
      .ok v (s.between source (read ++ l :: ls) rest) := by
    refine ofReading_between ((written.read _ rest rfl rfl follows).trans ?_)
    simp [Session.between]
  have operand : Parse.operand (s.between source read (l :: ls ++ rest)) =
      .ok (v, l) (s.between source (read ++ l :: ls) rest) := bind_of_ok expr
  have evaluate : ofUpdate (Update.evaluate l (v.eval Scopes.rootId))
      (s.between source (read ++ l :: ls) rest) =
        .ok value (s.between source (read ++ l :: ls) rest) := by
    have run : Update.evaluate l (v.eval Scopes.rootId) s = .ok value s := by
      unfold Update.evaluate
      rw [evaluated]
    unfold ofUpdate
    rw [show (s.between source (read ++ l :: ls) rest).session = s from rfl, run]
    rfl
  let found := s.between source (read ++ l :: ls) rest
  have inline : inlineValue (s.between source read (l :: ls ++ rest)) =
      .ok () { found with cursor := found.cursor.push (value.toLexeme l) } := by
    change (if _ then _ else _ : Parse Unit) (s.between source read (l :: ls ++ rest)) = _
    rw [if_pos computed, bind_of_ok operand]
    exact bind_of_ok evaluate
  exact bind_of_ok inline

/-- The lexemes of a value are read as a lexeme for its text. -/
theorem exists_of_valued (h : Valued s.scopes ls text) :
    ∃ l : Lexeme, (inlineValue >>= fun _ => ofReading Reading.any) (s.between source read (ls ++ rest)) =
      .ok l (s.between source (read ++ ls) rest) ∧ l.kind.isArgument ∧ l.text = text := by
  cases h with
  | literal kind =>
    rename_i l
    obtain ⟨next, after, kind'⟩ := follows
    obtain ⟨more, rfl⟩ : ∃ more, rest = next :: more := List.head?_eq_some_iff.1 after
    have plain : ¬ ((s.between source read (l :: next :: more)).cursor.isAt LexemeKind.var ||
        (s.between source read (l :: next :: more)).cursor.expects
          [LexemeKind.identifier, LexemeKind.leftParen]) := by
      have var : l.kind ≠ .var := by
        intro var
        rw [var] at kind
        cases kind
      have other : next.kind ≠ .leftParen := by
        rcases kind' with same | same <;> simp [same]
      simp [Cursor.isAt, Cursor.peek, Session.between, Cursor.expects, Cursor.rest, Cursor.matchesAll,
        Expectation.matched, var, other]
    have inline : inlineValue (s.between source read (l :: next :: more)) =
        .ok () (s.between source read (l :: next :: more)) := by
      change (if _ then _ else _ : Parse Unit) (s.between source read (l :: next :: more)) = _
      rw [if_neg plain]
      rfl
    refine ⟨l, (bind_of_ok inline).trans (ofReading_between ?_), kind, rfl⟩
    rw [← advance_between]
    rfl
  | var kind written evaluated literal =>
    refine ⟨_, inlineValue_between follows ?_ written evaluated, literal, rfl⟩
    simp [Cursor.isAt, Session.between, Cursor.peek, Expectation.matched, kind]
  | call kind opens written evaluated literal =>
    refine ⟨_, inlineValue_between follows ?_ written evaluated, literal, rfl⟩
    simp [Session.between, Cursor.expects, Cursor.rest, Cursor.matchesAll, Expectation.matched, kind, opens]

omit follows in
theorem exists_head_of_valued (h : Valued scopes ls text) :
    ∃ l more, ls = l :: more ∧ l.kind ≠ .exclaim ∧ l.kind ≠ .rightParen := by
  cases h with
  | literal kind =>
    refine ⟨_, [], rfl, ?_, ?_⟩
    · intro same
      simp [same, LexemeKind.isArgument] at kind
    · intro same
      simp [same, LexemeKind.isArgument] at kind
  | var kind => exact ⟨_, _, rfl, by simp [kind], by simp [kind]⟩
  | call kind => exact ⟨_, _, rfl, by simp [kind], by simp [kind]⟩

theorem decoratorArgument_between (h : Argued s.scopes ls text) :
    decoratorArgument (s.between source read (ls ++ rest)) =
      .ok text (s.between source (read ++ ls) rest) := by
  have ending : ∀ (negated : Bool) {read ls : List Lexeme} {text : String}, Valued s.scopes ls text →
      (inlineValue >>= fun _ => ofReading Reading.any >>= fun l => match l.kind with
        | .identifier | .string | .integer | .decimal =>
          pure (if negated then "!" ++ l.text else l.text)
        | _ => unexpected l "a decorator argument" : Parse String) (s.between source read (ls ++ rest)) =
        .ok (if negated then "!" ++ text else text) (s.between source (read ++ ls) rest) := by
    intro negated read ls text valued
    obtain ⟨l, run, kind, rfl⟩ := @exists_of_valued source s read rest ls text follows valued
    rw [← bind_assoc, bind_of_ok run]
    revert kind
    cases l.kind <;> simp [LexemeKind.isArgument] <;> rfl
  cases h with
  | plain valued =>
    obtain ⟨l, more, rfl, other, -⟩ := exists_head_of_valued valued
    have unmarked : ofReading (Reading.accept LexemeKind.exclaim)
        (s.between source read (l :: more ++ rest)) = .ok false _ :=
      accept_between_other (by simpa [Expectation.matched] using other)
    exact (bind_of_ok unmarked).trans (ending false valued)
  | negated kind valued =>
    rename_i mark ls text
    have marked : ofReading (Reading.accept LexemeKind.exclaim)
        (s.between source read (mark :: ls ++ rest)) = .ok true _ :=
      accept_between (by simpa [Expectation.matched] using kind)
    refine (bind_of_ok marked).trans ((ending true valued).trans ?_)
    simp

end

theorem itemsWithin_between {closing : Lexeme} (h : Listed s.scopes ls texts)
    (closes : closing.kind = .rightParen) {limit : Nat} (enough : texts.length ≤ limit) :
    itemsWithin decoratorArgument limit (s.between source read (ls ++ closing :: rest)) =
      .ok texts (s.between source (read ++ ls) (closing :: rest)) := by
  induction h generalizing read limit with
  | last argued =>
    obtain ⟨limit, rfl⟩ : ∃ n, limit = n + 1 := ⟨limit - 1, by simp at enough; omega⟩
    refine (bind_of_ok (decoratorArgument_between ⟨closing, rfl, .inr closes⟩ argued)).trans ?_
    refine (bind_of_ok (accept_between_other ?_)).trans rfl
    simp [Expectation.matched, closes]
  | more argued kind others ih =>
    rename_i ls ms comma text texts
    obtain ⟨limit, rfl⟩ : ∃ n, limit = n + 1 := ⟨limit - 1, by simp at enough; omega⟩
    have split : ls ++ comma :: ms ++ closing :: rest = ls ++ comma :: (ms ++ closing :: rest) := by
      simp
    rw [split]
    refine (bind_of_ok (decoratorArgument_between ⟨comma, rfl, .inl kind⟩ argued)).trans ?_
    refine (bind_of_ok (accept_between (by simp [Expectation.matched, kind]))).trans ?_
    refine (bind_of_ok (ih (by simpa using enough))).trans ?_
    simp [Pure.pure, EStateM.pure]

theorem length_le_of_listed (h : Listed scopes ls texts) : texts.length ≤ ls.length := by
  induction h with
  | last argued =>
    cases argued with
    | plain valued =>
      obtain ⟨l, more, rfl, -⟩ := exists_head_of_valued valued
      simp
    | negated kind valued => simp
  | more argued kind others ih =>
    simp only [List.length_append, List.length_cons]
    omega

theorem exists_head_of_listed (h : Listed scopes ls texts) :
    ∃ l more, ls = l :: more ∧ l.kind ≠ .rightParen := by
  have first : ∀ {ls : List Lexeme} {text : String}, Argued scopes ls text →
      ∃ l more, ls = l :: more ∧ l.kind ≠ .rightParen := by
    intro ls text argued
    cases argued with
    | plain valued =>
      obtain ⟨l, more, rfl, -, other⟩ := exists_head_of_valued valued
      exact ⟨l, more, rfl, other⟩
    | negated kind valued => exact ⟨_, _, rfl, by simp [kind]⟩
  cases h with
  | last argued => exact first argued
  | more argued kind others =>
    obtain ⟨l, more, rfl, other⟩ := first argued
    exact ⟨l, _, rfl, other⟩

theorem bracketed_between {opening closing : Lexeme} (opens : opening.kind = .leftParen)
    (closes : closing.kind = .rightParen) (h : Listed s.scopes ls texts) :
    bracketed .leftParen .rightParen decoratorArgument
        (s.between source read (opening :: (ls ++ closing :: rest))) =
      .ok texts (s.between source (read ++ opening :: (ls ++ [closing])) rest) := by
  obtain ⟨l, more, eq, other⟩ := exists_head_of_listed h
  refine (bind_of_ok (skip_between (by simp [Expectation.matched, opens]))).trans ?_
  let inner := s.between source (read ++ [opening]) (ls ++ closing :: rest)
  have filled : ofReading (Reading.accept LexemeKind.rightParen) inner = .ok false inner := by
    simp only [inner, eq]
    exact accept_between_other (by simpa [Expectation.matched] using other)
  refine (bind_of_ok filled).trans ?_
  have all : items decoratorArgument inner =
      .ok texts (s.between source (read ++ [opening] ++ ls) (closing :: rest)) := by
    refine itemsWithin_between h closes ?_
    have short := length_le_of_listed h
    simp only [Session.between, inner, Cursor.unread, List.length_append]
    omega
  refine (bind_of_ok all).trans ?_
  refine (bind_of_ok (skip_between (by simp [Expectation.matched, closes]))).trans ?_
  simp [Pure.pure, EStateM.pure]

/-- What is done when the arguments of a decorator are known. -/
def await (origin : Lexeme) (arguments : List String) : Parse Unit :=
  modifySession fun s =>
    { s with pending := s.pending ++ [{ name := origin.text, arguments, origin }] }

theorem decorator_between_bare (kind : l.kind = .decorator)
    (other : ∀ next, ahead.head? = some next → next.kind ≠ .leftParen) :
    decorator (s.between source read (l :: ahead)) =
      await l [] (s.between source (read ++ [l]) ahead) := by
  have bare : (s.between source (read ++ [l]) ahead).cursor.isAt LexemeKind.leftParen = false := by
    cases ahead with
    | nil => rfl
    | cons next ahead =>
      simpa [Cursor.isAt, Cursor.peek, Session.between, Expectation.matched] using other next rfl
  refine (bind_of_ok (one_between (by simp [Expectation.matched, kind]))).trans ?_
  change (if (s.between source (read ++ [l]) ahead).cursor.isAt LexemeKind.leftParen then _ else _ :
    Parse Unit) _ = _
  rw [bare]
  rfl

theorem decorator_between_list {opening : Lexeme} {arguments : List String} {t : ParseState}
    (kind : l.kind = .decorator) (opens : opening.kind = .leftParen)
    (run : bracketed .leftParen .rightParen decoratorArgument
      (s.between source (read ++ [l]) (opening :: ahead)) = .ok arguments t) :
    decorator (s.between source read (l :: opening :: ahead)) = await l arguments t := by
  have opened : (s.between source (read ++ [l]) (opening :: ahead)).cursor.isAt
      LexemeKind.leftParen := by
    simp [Cursor.isAt, Cursor.peek, Session.between, Expectation.matched, opens]
  refine (bind_of_ok (one_between (by simp [Expectation.matched, kind]))).trans ?_
  change (if (s.between source (read ++ [l]) (opening :: ahead)).cursor.isAt LexemeKind.leftParen then _
    else _ : Parse Unit) _ = _
  rw [if_pos opened]
  exact bind_of_ok run

/-- A decorator is read and waits. -/
theorem decorator_between (h : Decorating s.scopes ls d)
    (other : ∀ l, rest.head? = some l → l.kind ≠ .leftParen) :
    decorator (s.between source read (ls ++ rest)) =
      .ok () ({ s with pending := s.pending ++ [d] }.between source (read ++ ls) rest) := by
  cases h with
  | bare kind => exact decorator_between_bare kind other
  | empty kind opens closes =>
    rename_i l opening closing
    have run : bracketed .leftParen .rightParen decoratorArgument
        (s.between source (read ++ [l]) (opening :: closing :: rest)) =
          .ok [] (s.between source (read ++ [l, opening, closing]) rest) := by
      refine (bind_of_ok (skip_between (by simp [Expectation.matched, opens]))).trans ?_
      refine (bind_of_ok (accept_between (by simp [Expectation.matched, closes]))).trans ?_
      simp [Pure.pure, EStateM.pure]
    exact decorator_between_list kind opens run
  | list kind opens listed closes =>
    rename_i l opening closing ls arguments
    have run : bracketed .leftParen .rightParen decoratorArgument
        (s.between source (read ++ [l]) (opening :: (ls ++ closing :: rest))) =
          .ok arguments (s.between source (read ++ l :: opening :: (ls ++ [closing])) rest) := by
      rw [bracketed_between opens closes listed]
      simp
    have split : l :: opening :: (ls ++ [closing]) ++ rest = l :: opening :: (ls ++ closing :: rest) := by
      simp
    rw [split]
    exact decorator_between_list kind opens run

/-! ### Turns -/

variable {importer : Importer} {place : Place}

theorem turn_of_decorator (constructs : place.holdsConstructs) (h : Decorating s.scopes ls d)
    (other : ∀ l, rest.head? = some l → l.kind ≠ .leftParen) :
    Turn importer place (s.between source read (ls ++ rest))
      ({ s with pending := s.pending ++ [d] }.between source (read ++ ls) rest) := by
  have first : ∃ l more, ls = l :: more ∧ l.kind = .decorator := by
    cases h with
    | bare kind => exact ⟨_, _, rfl, kind⟩
    | empty kind => exact ⟨_, _, rfl, kind⟩
    | list kind => exact ⟨_, _, rfl, kind⟩
  obtain ⟨l, more, eq, kind⟩ := first
  have peek : (s.between source read (ls ++ rest)).cursor.peek = some l := by rw [eq]; rfl
  refine ⟨?_, ?_, ?_⟩
  · simp [Session.between, Cursor.finished, eq]
  · simp [Cursor.isAt, peek, Expectation.matched, kind]
  · rw [item_of_holdsConstructs constructs]
    refine guarded_of_ok ((construct_decorator ?_).trans (decorator_between h other))
    simp [Cursor.isAt, peek, Expectation.matched, kind]

theorem head_of_decorated (h : Decorated scopes ls ds) (found : ls.head? = some l) :
    l.kind = .decorator := by
  cases h with
  | nil => cases found
  | cons decorating others =>
    cases decorating with
    | bare kind =>
      cases found
      exact kind
    | empty kind =>
      cases found
      exact kind
    | list kind =>
      cases found
      exact kind

theorem turns_of_decorated (constructs : place.holdsConstructs) (h : Decorated scopes ls ds)
    (same : s.scopes = scopes) (other : ∀ l, rest.head? = some l → l.kind ≠ .leftParen) :
    Relation.ReflTransGen (Turn importer place) (s.between source read (ls ++ rest))
      ({ s with pending := s.pending ++ ds }.between source (read ++ ls) rest) := by
  induction h generalizing s read with
  | nil =>
    simp only [List.append_nil, List.nil_append]
    exact .refl
  | cons decorating others ih =>
    rename_i ls ms d ds
    have inner : ∀ l, (ms ++ rest).head? = some l → l.kind ≠ .leftParen := by
      intro l found
      rw [List.head?_append, Option.or_eq_some_iff] at found
      rcases found with first | ⟨-, first⟩
      · simp [head_of_decorated others first]
      · exact other l first
    have turn : Turn importer place (s.between source read (ls ++ (ms ++ rest))) _ :=
      turn_of_decorator constructs (same ▸ decorating) inner
    have turns := @ih { s with pending := s.pending ++ [d] } (read ++ ls) same
    simp only [List.append_assoc, List.cons_append, List.nil_append] at turns turn ⊢
    exact .head turn turns

theorem skipConstruct_between {B : List Lexeme} (shape : Line C ∨ Block C)
    (next : ∀ l, B.head? = some l → l.kind ≠ .semicolon) :
    (s.between source read (C ++ B)).cursor.skipConstruct =
      (s.between source (read ++ C) B).cursor := by
  have passed := Cursor.passConstruct_construct shape (.inr next) read.reverse
  rw [Cursor.skipConstruct_eq]
  simp only [Cursor.pass, Session.between, passed, List.reverse_append]

/-- With such a lexeme, a construct starts. -/
def startsConstruct (l : Lexeme) : Bool :=
  l.kind == .directive ||
    l.kind == .identifier && (l.text == "module" || l.text == "type" || l.text == "declare")

/-- A construct that decorators exclude is skipped. -/
theorem construct_of_excluded {body : Parse Unit} {st : ParseState}
    (next : st.cursor.peek = some l) (starts : startsConstruct l)
    (excluded : ¬ (⟨st.session.pending⟩ : Decorators).permits st.session.definitions.keys) :
    construct importer body st = .ok () { st.settled with cursor := st.cursor.skipConstruct } := by
  have skipped := claim_of_excludes excluded
  have keyword : ∀ word, l.kind = .identifier → l.text = word → st.cursor.isAt (.keyword word) := by
    intro word kind text
    simp [Cursor.isAt, next, Expectation.matched, Expectation.keyword, kind, text]
  simp only [startsConstruct, Bool.or_eq_true, Bool.and_eq_true, beq_iff_eq] at starts
  rcases starts with kind | ⟨kind, (text | text) | text⟩
  · have at_ : st.cursor.isAt LexemeKind.directive := by
      simp [Cursor.isAt, next, Expectation.matched, kind]
    rw [construct_directive at_]
    exact bind_of_ok skipped
  · rw [construct_keyword (keyword _ kind text), if_pos rfl]
    exact bind_of_ok skipped
  · rw [construct_keyword (keyword _ kind text), if_neg (by decide), if_pos rfl]
    exact bind_of_ok skipped
  · rw [construct_keyword (keyword _ kind text), if_neg (by decide), if_neg (by decide), if_pos rfl]
    exact bind_of_ok skipped

theorem not_permits {definitions : List String} (member : d ∈ ds) (condition : d.name = "condition")
    (fails : ¬ d.holds definitions) : ¬ (⟨ds⟩ : Decorators).permits definitions := by
  intro permits
  have all := List.all_eq_true.1 permits d (by simp [member, condition])
  exact fails all

theorem ne_nil_of_shape (shape : Line C ∨ Block C) : C ≠ [] := by
  rcases shape with ⟨flat, kind⟩ | block
  · simp
  · exact block.ne_nil

theorem turn_of_excluded {B : List Lexeme} (constructs : place.holdsConstructs)
    (starts : ∀ l, C.head? = some l → startsConstruct l) (shape : Line C ∨ Block C)
    (next : ∀ l, B.head? = some l → l.kind ≠ .semicolon)
    (excluded : ¬ (⟨ds⟩ : Decorators).permits s.definitions.keys) :
    Turn importer place ({ s with pending := ds }.between source read (C ++ B))
      ({ s with pending := [] }.between source (read ++ C) B) := by
  obtain ⟨l, more, eq⟩ := List.exists_cons_of_ne_nil (ne_nil_of_shape shape)
  have start : startsConstruct l := starts l (by rw [eq]; rfl)
  have peek : ({ s with pending := ds }.between source read (C ++ B)).cursor.peek = .some l := by
    rw [eq]
    rfl
  have kind : l.kind ≠ .rightBrace := by
    intro same
    simp [startsConstruct, same] at start
  refine ⟨?_, ?_, ?_⟩
  · simp [Session.between, Cursor.finished, eq]
  · simpa [Cursor.isAt, peek, Expectation.matched] using kind
  · rw [item_of_holdsConstructs constructs]
    refine guarded_of_ok ((construct_of_excluded peek start excluded).trans ?_)
    rw [skipConstruct_between shape next]
    rfl

/-- A construct that a condition excludes makes no difference, whatever is in its block, and neither do
the decorators in front of it. Files that end behind it inside an open module or declaration are left
out (`inside`). -/
theorem file_of_excluded_construct (tree : FileTree) (depth : Nat) {s₁ : Session}
    {A D C B : List Lexeme} {ds : List Decorator}
    (reached : Reaches (tree.importer depth) (s.between source [] (A ++ (D ++ C ++ B))) place
      (s₁.between source A (D ++ C ++ B)))
    (constructs : place.holdsConstructs) (settled : s₁.pending = [])
    (decorated : Decorated s₁.scopes D ds)
    (excluded : ∃ d ∈ ds, d.name = "condition" ∧ ¬ d.holds s₁.definitions.keys)
    (starts : ∀ l, C.head? = some l → startsConstruct l) (shape : Line C ∨ Block C)
    (next : ∀ l, B.head? = some l → l.kind ≠ .semicolon) (inside : place ≠ .file → B ≠ []) :
    outcome (file (tree.importer depth) (s.between source [] (A ++ (D ++ C ++ B)))) =
      outcome (file (tree.importer depth) (s.between source [] (A ++ B))) := by
  obtain ⟨d, member, condition, fails⟩ := excluded
  have some : D ≠ [] := by
    cases decorated with
    | nil => cases member
    | cons decorating others => cases decorating <;> simp
  have first : ∀ l, (D ++ C).head? = .some l → l.kind ≠ .semicolon ∧ l.kind ≠ .rightBrace := by
    intro l found
    obtain ⟨l', more, rfl⟩ := List.exists_cons_of_ne_nil some
    cases found
    simp [head_of_decorated decorated rfl]
  have balanced : Cursor.braceDepth (D ++ C) = 0 := by
    rw [braceDepth_append, decorated.flat.braceDepth]
    rcases shape with line | block
    · rw [line.braceDepth]
      rfl
    · rw [block.braceDepth]
      rfl
  have start : ∀ l, (C ++ B).head? = .some l → l.kind ≠ .leftParen := by
    intro l found same
    obtain ⟨l', more, eq⟩ := List.exists_cons_of_ne_nil (ne_nil_of_shape shape)
    obtain rfl : l' = l := by simpa [eq] using found
    have starts := starts l' (by rw [eq]; rfl)
    simp [startsConstruct, same] at starts
  have decorators : Relation.ReflTransGen (Turn (tree.importer depth) place)
      (s₁.between source A (D ++ (C ++ B))) _ := turns_of_decorated constructs decorated rfl start
  have construct : Turn (tree.importer depth) place
      ({ s₁ with pending := ds }.between source (A ++ D) (C ++ B)) _ :=
    turn_of_excluded constructs starts shape next (not_permits member condition fails)
  have turns : Relation.ReflTransGen (Turn (tree.importer depth) place)
      (s₁.between source A (D ++ C ++ B))
      ({ s₁ with failures := s₁.failures, log := s₁.log }.between source (A ++ (D ++ C)) B) := by
    rw [settled, List.nil_append] at decorators
    have all := decorators.tail construct
    simpa only [← settled, List.append_assoc] using all
  obtain ⟨result, run, run'⟩ := file_insert reached settled turns (by simp [some]) first
    balanced next inside
  rw [run, run', outcome_place, outcome_place]
  rfl

/-- `@deprecated @condition(!deluxe)` -/
def unlessDeluxe : List Lexeme :=
  [.bare .decorator "deprecated"] ++ ([.bare .decorator "condition", .bare .leftParen] ++
    ([.bare .exclaim, .bare .identifier "deluxe"] ++ [.bare .rightParen]) ++ [])

/-- `type 5 { 5; };`, which is not a type. -/
def illFormed : List Lexeme :=
  [.bare .identifier "type", .bare .integer "5"] ++
    .bare .leftBrace :: ([.bare .integer "5", .bare .semicolon] ++ .bare .rightBrace ::
      [.bare .semicolon])

theorem file_of_excluded_type :
    outcome (file (FileTree.importer {} 0) (({} : Session).between default []
        (defining ++ (unlessDeluxe ++ illFormed ++ defining)))) =
      outcome (file (FileTree.importer {} 0) (({} : Session).between default []
        (defining ++ defining))) := by
  let after : Session := { definitions := ({} : Dict Unit).insert "deluxe" () }
  have turn : Turn (FileTree.importer {} 0) .file
      (({} : Session).between default [] (defining ++ (unlessDeluxe ++ illFormed ++ defining)))
      (after.between default defining (unlessDeluxe ++ illFormed ++ defining)) :=
    ⟨by decide, by decide, rfl⟩
  have condition : Listed after.scopes [.bare .exclaim, .bare .identifier "deluxe"] ["!deluxe"] :=
    .last (.negated rfl (.literal rfl))
  have decorated : Decorated after.scopes unlessDeluxe _ :=
    .cons (.bare rfl) (.cons (.list rfl rfl condition rfl) .nil)
  have shape : Block illFormed := .intro (by decide) rfl (by decide) rfl (.inr ⟨_, rfl, rfl⟩)
  exact file_of_excluded_construct {} 0 (.turn .start turn) trivial rfl decorated
    ⟨_, List.mem_cons_of_mem _ List.mem_cons_self, rfl, by decide⟩ (by decide) (.inr shape) (by decide) nofun

end Parse

end Rsrc
