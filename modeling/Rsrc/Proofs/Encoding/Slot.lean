import Mathlib.Tactic.NormNum
import Rsrc.Proofs.Encoding.Layout

/-!
# Slots

The places in a record that a type fills: one for every value, with nested types opened up, and one
for every list, whose members are slots of the elements. `TypeDef.canonical` is the record that has
something in every slot and nothing else, the form in which decoding gives values back.
-/

namespace Rsrc

variable {τ : Type}

inductive Slot where
  | value (key : String) (tag : Tag)
  /-- The elements of a list. One that no field owns is always empty. -/
  | list (key : String) (owned : Bool) (members : List Slot)

namespace Slot

/-- The slots of an entry, under keys behind `front`. -/
def ofEntry (nested : τ → String → List Slot) (front : String) (e : Entry τ) : List Slot :=
  let key := front ++ e.label
  match e.tag, e.nested with
  | .rect, some t | .nested _, some t => nested t (key ++ ".")
  | .rect, none | .nested _, none =>
    Encoding.rectSides.map fun side => value (key ++ "." ++ side) (.integer .two true)
  | tag, _ => [value key tag]

/-- The slots of a section. A list has the name of the field that owns it, or else the label of its
count. -/
def ofSection (fields : List Field) (nested : τ → String → List Slot) (front : String) :
    Section τ → List Slot
  | .plain es => es.flatMap (ofEntry nested front)
  | .list count members =>
    let owner := listOwner? fields count.label
    [list (front ++ (owner.map (·.name)).getD count.label) owner.isSome
      (members.flatMap (ofEntry nested ""))]

end Slot

/-- The slots of a type, under keys behind `front`. -/
def TypeDef.slots (d : TypeDef) (front : String) : List Slot :=
  d.layout.sections.flatMap
    (Slot.ofSection d.fields (fun ⟨t, _⟩ front => t.slots front) front)
termination_by sizeOf d

namespace Slot

/-! ### Canonical values -/

/-- The integer that is stored for a value; a reference stands for its id. -/
def integerOf : Option Value → Int64
  | none => 0
  | some (.reference r) => r.id
  | some v => v.asInteger.getD 0

/-- The byte of a text of one byte, or an integer. -/
def characterOf : Option Value → Int64
  | some (.string text) => Int64.ofNat ((Text.encode text).headD 0).toNat
  | v => integerOf v

def booleanOf : Option Value → Bool
  | some (.boolean b) => b
  | some (.integer n) => n != 0
  | _ => false

def textOf : Option Value → String
  | some (.string text) => text
  | _ => ""

/-- A reference with what the format keeps of it: the name of its type is never stored. -/
def referenceOf (format : Format) : Option Value → Reference
  | some (.reference r) =>
    match format with
    | .extended => { id := r.id, container := r.container, typeCode := r.typeCode }
    | .classic | .rez => { id := r.id }
  | some (.integer id) => { id }
  | _ => { id := -1 }

/-- Negative integers under an unsigned tag stand for their bit pattern, as a number of that width.
The bit pattern of eight bytes is that of the integer itself. -/
def wrap (width : Width) (signed : Bool) (n : Int64) : Int64 :=
  if signed || 0 ≤ n then n else Int64.ofInt (n.toInt % 2 ^ (8 * width.bytes))

/-- Hexadecimal data in upper case, without blanks. A plus sign is taken for the digit zero. -/
def hexOf (text : String) : String :=
  String.ofList ((text.toList.filter (!Encoding.isHexBlank ·)).map fun c =>
    if c = '+' then '0' else c.toUpper)

/-- The form in which a value, or the lack of one, is read back under a tag. -/
def canonicalValue (format : Format) (tag : Tag) (v : Option Value) : Value :=
  match tag with
  | .integer width signed => .integer (wrap width signed (integerOf v))
  | .char => .integer (characterOf v)
  | .boolean | .bit => .boolean (booleanOf v)
  | .shortText | .terminatedText | .longText | .fixedText _ => .string (textOf v)
  | .data => .string (hexOf (textOf v))
  | .reference => .reference (referenceOf format v)
  | _ => .integer 0

/-! ### Canonical records -/

/-- What a record has in the slots of values, by key. -/
def bindings (format : Format) (source : Record) (slots : List Slot) : List (String × Value) :=
  slots.filterMap fun
    | value key tag => some (key, canonicalValue format tag (source.get? key))
    | list .. => none

/-- The lists that no field owns. -/
def unowned (slots : List Slot) : List (String × List Record) :=
  slots.filterMap fun
    | list key false _ => some (key, [])
    | _ => none

mutual

/-- The elements of a list that a field owns, in canonical form. -/
def owned (format : Format) (source : Record) : Slot → List (String × List Record)
  | list key true members =>
    [(key, (source.list key).map fun element =>
      { values := .ofList (bindings format element members)
        lists := .ofList (unowned members ++ allOwned format element members) })]
  | _ => []

def allOwned (format : Format) (source : Record) : List Slot → List (String × List Record)
  | [] => []
  | slot :: rest => owned format source slot ++ allOwned format source rest

end

/-- The record that has canonical values in the slots, taken from another one, and nothing else. -/
def canonical (format : Format) (source : Record) (slots : List Slot) : Record :=
  { values := .ofList (bindings format source slots)
    lists := .ofList (unowned slots ++ allOwned format source slots) }

end Slot

/-- The values of a record as a type gives them back. -/
def TypeDef.canonical (format : Format) (d : TypeDef) (source : Record) : Record :=
  Slot.canonical format source (d.slots "")

end Rsrc
