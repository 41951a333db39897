import Rsrc.Construct.Parse

/-!
# Type blocks

A type block holds a template, constructors and fields, in any order that makes sense.
-/

namespace Rsrc.Parse

/-- The largest count that a list can have. -/
def maxRepeat : Int64 := 65535

/-- The byte order that decorators ask for. -/
def byteOrder (decorators : Decorators) : Parse ByteOrder :=
  match decorators.get? "endian" with
  | none => return .big
  | some endian =>
    match endian.arguments.head? with
    | some "little" => return .little
    | some "big" => return .big
    | _ => unexpected endian.origin "`@endian(little)` or `@endian(big)`"

/-- Reads the tag of an entry, and the type behind it. -/
def entryTag : Parse (Tag × Option TypeDef) := do
  let code ← Reading.identifier
  if code.text = "Nested" then
    Reading.skip LexemeKind.leftAngle
    let name ← Reading.identifier
    Reading.skip LexemeKind.rightAngle
    match (← session).typeNamed? name.text with
    | some nested => return (.nested name.text, some nested)
    | none => Update.reject name (.unknownType name.text)
  else
    match Tag.ofCode? code.text with
    | none => Update.reject code (.definition (.unknownTag code.text))
    | some .rect => return (.rect, (← session).typeNamed? "Rect")
    | some tag => return (tag, none)

/-- Reads an entry of a template and appends it. -/
def templateEntry (t : Template TypeDef) : Parse (Template TypeDef) := do
  let (tag, nested) ← entryTag
  let label ← Reading.identifier
  Reading.skip LexemeKind.semicolon
  Update.define label (t.addEntry (.make TypeDef.minimumSize label.text tag nested))

/-- Reads the template of a type. -/
def templateBlock (d : TypeDef) : Parse TypeDef := do
  match ← claim with
  | none => return d
  | some decorators =>
    let keyword ← Reading.any
    let order ← byteOrder decorators
    Reading.skip LexemeKind.leftBrace
    let template ← toBrace templateEntry { order }
    closeBlock
    Update.define keyword (d.setTemplate template)

/-- Reads a statement of a constructor. -/
def constructorStatement (body : List Statement) : Parse (List Statement) := do
  let statement ← Statement.read
  Reading.skip LexemeKind.semicolon
  return body ++ [statement]

/-- Reads a constructor of a type. -/
def constructorBlock (d : TypeDef) : Parse TypeDef := do
  match ← claim with
  | none => return d
  | some _ =>
    let keyword ← Reading.any
    let parameters ← bracketed .leftParen .rightParen (ofReading Reading.identifier)
    Reading.skip LexemeKind.leftBrace
    let body ← toBrace constructorStatement []
    closeBlock
    Update.define keyword
      (d.addConstructor (.make d.name (parameters.map (·.text)) body keyword))

/-- Reads a symbol of a value. -/
def valueSymbol : Parse FieldSymbol := do
  let name ← Reading.identifier
  Reading.skip LexemeKind.equals
  let expr ← Expr.read
  return { name := name.text, value := { expr, origin := name } }

/-- Reads the descriptor of a value, if there is one. -/
def descriptor? : Parse (Option Descriptor) := do
  if ← Reading.accept (.keyword "as") then
    let name ← Reading.identifier
    let isReference ← Reading.accept LexemeKind.ampersand
    return some (.written name.text isReference)
  else return none

/-- Reads the default of a value, if there is one. -/
def default? : Parse (Option Statement) := do
  if ← Reading.accept LexemeKind.equals then
    let (expr, origin) ← operand
    return some { expr, origin }
  else return none

/-- Reads one label of a value with what belongs to it. -/
def valuePart : Parse FieldValue := do
  let name ← Reading.identifier
  let descriptor ← descriptor?
  let default ← default?
  let symbols ←
    if ← isAt LexemeKind.leftBracket then bracketed .leftBracket .rightBracket valueSymbol
    else pure []
  return { name := name.text, descriptor, default, symbols, origin := name }

/-- Reads further labels that are joined to a value, at most `limit` of them. -/
def joinedWithin : (limit : Nat) → Parse (List FieldValue)
  | 0 => return []
  | limit + 1 => do
    if ← Reading.accept (.keyword "join") then
      let part ← valuePart
      return part :: (← joinedWithin limit)
    else return []

/-- The name under which others see a value. -/
def exportName (decorators : Decorators) (name : String) : Option String :=
  (decorators.get? "api").map fun api =>
    match api.arguments.head? with
    | none | some "export" => name
    | some other => other

/-- The value of a default that is computed ahead, where the symbols of the value are known. -/
def constantValue (v : FieldValue) : Update (Option Value) :=
  match v.default with
  | none => return none
  | some default =>
    .inScope Scopes.rootId fun scope => do
      Update.bindSymbols scope v.symbols
      some <$> Update.evaluate default.origin (default.expr.eval scope)

/-- Reads a value of a field. -/
def fieldValue (values : List FieldValue) : Parse (List FieldValue) := do
  match ← claim with
  | none => return values
  | some decorators =>
    let first ← valuePart
    let joined ← joinedWithin (← cursor).unread
    Reading.skip LexemeKind.semicolon
    let v := { first with joined, exportName := exportName decorators first.name }
    if decorators.has "constexpr" then
      let constant ← constantValue v
      return values ++ [{ v with constant }]
    else return values ++ [v]

/-- Reads a decorator or a value of a field. -/
def fieldItem (values : List FieldValue) : Parse (List FieldValue) := do
  if ← isAt LexemeKind.decorator then
    decorator
    return values
  else fieldValue values

/-- Reads the bounds and the count of a repeatable field. -/
def repetition : Parse Repetition := do
  Reading.ensure [.keyword "repeatable", LexemeKind.leftAngle]
  let c ← cursor
  let unbounded := c.isAt LexemeKind.identifier &&
    !c.expects [LexemeKind.identifier, LexemeKind.leftParen]
  let (lower, upper) ←
    if unbounded then pure (0, maxRepeat)
    else
      let lower ← integer
      Reading.skip LexemeKind.comma
      let upper ← integer
      Reading.skip LexemeKind.comma
      pure (lower, upper)
  let count ← Reading.identifier
  Reading.skip LexemeKind.rightAngle
  return { lower, upper, count := count.text }

/-- Reads the values of a field, or the semicolon of a field that has its label only. -/
def fieldBody (decorators : Decorators) (name : Lexeme) : Parse Field := do
  if ← Reading.accept LexemeKind.semicolon then
    if decorators.has "synthesize" then return .synthesize name.text name
    Update.reject name (.definition (.missingValues name.text))
  else
    Reading.skip LexemeKind.leftBrace
    let values ← toBrace fieldItem []
    closeBlock
    return { name := name.text, values, origin := name }

/-- Reads a field of a type. -/
def fieldBlock (d : TypeDef) : Parse TypeDef := do
  match ← claim with
  | none => return d
  | some decorators =>
    Reading.ensure [.keyword "field", LexemeKind.leftParen]
    let name ← Reading.one LexemeKind.string
    Reading.skip LexemeKind.rightParen
    let repetition ←
      if ← isAt (.keyword "repeatable") then some <$> repetition else pure none
    let field ← fieldBody decorators name
    let deprecated := (decorators.get? "deprecated").map fun d => d.arguments.head?.getD ""
    Update.define name (d.addField { field with repetition, deprecated })

/-- Reads one item of a type. -/
def typeItem (d : TypeDef) : Parse TypeDef := do
  let c ← cursor
  if c.isAt LexemeKind.decorator then
    decorator
    return d
  else if c.isAt (.keyword "template") then templateBlock d
  else if c.isAt (.keyword "constructor") then constructorBlock d
  else if c.isAt (.keyword "field") then fieldBlock d
  else fail "a decorator, `template`, `constructor` or `field`"

/-- Adds a type to the session. -/
def registerType (name : Lexeme) (d : TypeDef) : Update Unit := do
  match (← get).register? d with
  | some s => set s
  | none => .reject name (.duplicateType name.text)

/-- Reads a type. -/
def typeBlock : Parse Unit := do
  match ← claim with
  | none => return
  | some decorators =>
    Reading.skip (.keyword "type")
    let name ← Reading.identifier
    Reading.skip LexemeKind.colon
    let code ← Reading.one LexemeKind.string
    Reading.skip LexemeKind.leftBrace
    if ((← session).typeNamed? name.text).isSome then
      Update.reject name (.duplicateType name.text)
    if code.text.utf8ByteSize ≠ 4 then
      Update.reject code (.definition (.invalidTypeCode code.text))
    let d ← toBrace typeItem
      { name := name.text, code := code.text, decorators, origin := some name }
    closeBlock
    let d ← Update.define name (d.addImplicitFields name)
    registerType name d

end Rsrc.Parse
