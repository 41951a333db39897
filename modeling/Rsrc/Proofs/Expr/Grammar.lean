import Rsrc.Expr.Read

/-!
# The grammar of expressions

    Expression ::= Layer 1
    Layer n    ::= Layer (n + 1) { Operator n  Layer (n + 1) }     for the six layers of operators
    Layer 7    ::= Unary
    Unary      ::= ( "-" | "~" | "!" ) Unary | Primary
    Primary    ::= Literal | Variable | Path [ "(" Arguments ")" ] | "(" Expression ")"
    Path       ::= Identifier { "." Identifier }
    Arguments  ::= [ Expression { "," Expression } ]

A symbol carries what stands to its left and belongs into its tree, so operators of one layer
associate to the left. What is still to be read selects the production of a symbol. `Derives` says
what a production comes to in front of a cursor: a tree, with the cursor behind its phrase, or an
error, with the cursor where it was found.
-/

namespace Rsrc

namespace Grammar

/-- A tree and the cursor behind its phrase, or an error and the cursor in front of it. -/
abbrev Outcome := EStateM.Result GrammarError Cursor Expr

/-- The operators of one layer, by the kinds of lexeme that stand for them. -/
abbrev Operators := List (LexemeKind × BinaryOp)

/-- The layers of binary operators; those of a later one bind tighter. -/
def layers : List Operators :=
  [[(.pipe, .or)],
   [(.caret, .xor)],
   [(.ampersand, .and)],
   [(.leftShift, .shiftLeft), (.rightShift, .shiftRight)],
   [(.plus, .add), (.minus, .subtract)],
   [(.star, .multiply), (.slash, .divide), (.percent, .remainder)]]

def prefixes : List (LexemeKind × UnaryOp) :=
  [(.minus, .negate), (.tilde, .complement), (.exclaim, .not)]

/-- What the next lexeme stands for in a table. -/
def lookAhead {α : Type} (table : List (LexemeKind × α)) (rest : List Lexeme) : Option α :=
  rest.head?.bind fun l => table.lookup l.kind

inductive Symbol where
  /-- Operands joined by the operators of these layers. -/
  | layer (layers : List Operators)
  /-- Further operators of one layer, each with a right operand, behind `left`. -/
  | chain (operators : Operators) (tighter : List Operators) (left : Expr)
  | unary
  | primary
  /-- What follows the first names of a path. -/
  | path (name : String)
  /-- What follows the first arguments of a call. -/
  | arguments (name : String) (before : List Expr)
  /-- What follows an expression behind an opening parenthesis. -/
  | closing (inner : Expr)

inductive Production where
  | tree (e : Expr)
  /-- The next lexeme, if there is one, is not what the grammar wants. -/
  | missing (expected : String)
  /-- The next lexeme, and what is behind it. -/
  | pass (rest : Production)
  /-- A phrase of the symbol, and what is behind it. -/
  | phrase (s : Symbol) (rest : Expr → Production)

/-- The production of a symbol in front of lexemes. -/
def rule : Symbol → List Lexeme → Production
  | .layer [], _ => .phrase .unary .tree
  | .layer (operators :: tighter), _ =>
    .phrase (.layer tighter) fun left => .phrase (.chain operators tighter left) .tree
  | .chain operators tighter left, rest =>
    match lookAhead operators rest with
    | none => .tree left
    | some op =>
      .pass <| .phrase (.layer tighter) fun right =>
        .phrase (.chain operators tighter (.binary op left right)) .tree
  | .unary, rest =>
    match lookAhead prefixes rest with
    | none => .phrase .primary .tree
    | some op => .pass <| .phrase .unary fun operand => .tree (.unary op operand)
  | .primary, [] => .missing "an expression"
  | .primary, l :: _ =>
    match Value.ofLexeme? l, l.kind with
    | some value, _ => .pass <| .tree (.literal value)
    | none, .var => .pass <| .tree (.var l.text)
    | none, .identifier => .pass <| .phrase (.path l.text) .tree
    | none, .leftParen =>
      .pass <| .phrase (.layer layers) fun inner => .phrase (.closing inner) .tree
    | none, _ => .missing "an expression"
  | .path name, rest =>
    match rest with
    | { kind := .dot, .. } :: { kind := .identifier, text, .. } :: _ =>
      .pass <| .pass <| .phrase (.path (name ++ "." ++ text)) .tree
    | { kind := .leftParen, .. } :: { kind := .rightParen, .. } :: _ =>
      .pass <| .pass <| .tree (.call name [])
    | { kind := .leftParen, .. } :: _ =>
      .pass <| .phrase (.layer layers) fun first => .phrase (.arguments name [first]) .tree
    | _ => .tree (.var name)
  | .arguments name before, rest =>
    match rest with
    | { kind := .comma, .. } :: _ =>
      .pass <| .phrase (.layer layers) fun next =>
        .phrase (.arguments name (before ++ [next])) .tree
    | { kind := .rightParen, .. } :: _ => .pass <| .tree (.call name before)
    | _ => .missing "')'"
  | .closing inner, rest =>
    match rest with
    | { kind := .rightParen, .. } :: _ => .pass <| .tree inner
    | _ => .missing "')'"

inductive Derives : Production → Cursor → Outcome → Prop
  | tree {e : Expr} {c : Cursor} : Derives (.tree e) c (.ok e c)
  | missing {expected : String} {c : Cursor} :
    Derives (.missing expected) c (.error (c.unexpected expected) c)
  | pass {rest : Production} {c : Cursor} {r : Outcome} (h : Derives rest c.advance r) :
    Derives (.pass rest) c r
  | fails {s : Symbol} {rest : Expr → Production} {c c' : Cursor} {error : GrammarError}
    (h : Derives (rule s c.rest) c (.error error c')) :
    Derives (.phrase s rest) c (.error error c')
  | follows {s : Symbol} {rest : Expr → Production} {c c' : Cursor} {e : Expr} {r : Outcome}
    (first : Derives (rule s c.rest) c (.ok e c')) (h : Derives (rest e) c' r) :
    Derives (.phrase s rest) c r

/-- What the symbol comes to in front of the cursor. -/
def Phrase (s : Symbol) (c : Cursor) (r : Outcome) : Prop := Derives (rule s c.rest) c r

/-- What an expression comes to in front of the cursor. -/
def Expression : Cursor → Outcome → Prop := Phrase (.layer layers)

/-- The grammar leaves no choice. -/
theorem Derives.unique {p : Production} {c : Cursor} {r r' : Outcome} (h : Derives p c r)
    (h' : Derives p c r') : r' = r := by
  induction h generalizing r' with
  | tree =>
    cases h'
    rfl
  | missing =>
    cases h'
    rfl
  | pass _ ih =>
    cases h' with
    | pass behind => exact ih behind
  | fails _ ih =>
    cases h' with
    | fails failed => exact ih failed
    | follows first _ => cases ih first
  | follows _ _ ihFirst ih =>
    cases h' with
    | fails failed => cases ihFirst failed
    | follows first behind =>
      cases ihFirst first
      exact ih behind

end Grammar

end Rsrc
