import Rsrc.DefinitionError
import Rsrc.Tag

/-!
# Templates

A template is the order of the labelled entries of a type. Entries between a list start and a list
end are repeated; the count entry just before says how often. `Template.validate` finds these groups.

Templates are parametric in `τ`, what an entry of a nested type points at.
-/

namespace Rsrc

structure Entry (τ : Type) where
  label : String
  tag : Tag
  /-- The type behind a nested value or a rectangle. -/
  nested : Option τ := none
  /-- The bytes that a value takes at least. -/
  size : Nat := tag.fixedSize

/-- An entry that may stand for a type, where `size` gives the bytes that such a type takes at least.
The entry keeps that number: a type may stand behind many entries, and is measured once for each. -/
def Entry.make {τ : Type} (size : τ → Nat) (label : String) (tag : Tag) (nested : Option τ) :
    Entry τ :=
  match tag, nested with
  | .nested _, some t => { label, tag, nested, size := size t }
  | _, _ => { label, tag, nested }

/-- The positions of a count entry and of the start and the end of its list. -/
structure ListGroup where
  count : Nat
  start : Nat
  stop : Nat
  deriving DecidableEq, Repr

/-- The entry at the index is repeated. -/
def ListGroup.contains (g : ListGroup) (index : Nat) : Bool := g.start < index && index < g.stop

structure Template (τ : Type) where
  entries : List (Entry τ) := []
  order : ByteOrder := .big
  groups : List ListGroup := []

namespace Template

variable {τ : Type}
variable (t : Template τ)

def isEmpty : Bool := t.entries.isEmpty

def entry? (label : String) : Option (Entry τ) :=
  t.entries.find? (·.label == label)

def indexOf? (label : String) : Option Nat :=
  t.entries.findIdx? (·.label == label)

/-- Appends an entry whose label is new. -/
def addEntry (e : Entry τ) : Except DefinitionError (Template τ) :=
  if (t.entry? e.label).isSome then .error (.duplicateLabel e.label)
  else .ok { t with entries := t.entries ++ [e] }

/-- The group that the label counts. -/
def groupCountedBy? (label : String) : Option ListGroup :=
  (t.indexOf? label).bind fun index => t.groups.find? (·.count == index)

/-- The group that repeats the entry at the index. -/
def groupContaining? (index : Nat) : Option ListGroup :=
  t.groups.find? (·.contains index)

/-! ### Groups -/

/-- A list that has been opened: the positions of its count and its start, and the start's label. -/
structure OpenList where
  count : Nat
  start : Nat
  label : String

/-- The groups of entries that begin at position `index`, behind an entry with the tag `previous`. -/
def groupsFrom (index : Nat) (previous : Option Tag) (opened : Option OpenList) :
    List (Entry τ) → Except ListFault (List ListGroup)
  | [] =>
    match opened with
    | some o => .error (.unclosed o.label)
    | none => .ok []
  | e :: rest =>
    match e.tag, opened with
    | .count, opened =>
      if opened.isSome || rest.head?.map (·.tag) != some .listStart then
        .error (.countAlone e.label)
      else groupsFrom (index + 1) (some e.tag) opened rest
    | .listStart, some _ => .error (.insideList e.label)
    | .listStart, none =>
      if previous = some .count then
        groupsFrom (index + 1) (some e.tag) (some ⟨index - 1, index, e.label⟩) rest
      else .error (.startUncounted e.label)
    | .listEnd, some o => do
      let groups ← groupsFrom (index + 1) (some e.tag) none rest
      return ⟨o.count, o.start, index⟩ :: groups
    | .listEnd, none => .error (.endUnopened e.label)
    | _, opened => groupsFrom (index + 1) (some e.tag) opened rest

/-- Pairs every count with the list that follows it. -/
def validate : Except DefinitionError (Template τ) :=
  match groupsFrom 0 none none t.entries with
  | .ok groups => .ok { t with groups }
  | .error fault => .error (.malformedList fault)

/-! ### Sizes -/

/-- The least size of entries that begin at position `index`, behind `bits` bits in a row. Repeated
entries do not count, and eight bits in a row share a byte. -/
def sizeFrom (t : Template τ) (index bits : Nat) : List (Entry τ) → Nat
  | [] => 0
  | e :: rest =>
    if (t.groupContaining? index).isSome then t.sizeFrom (index + 1) bits rest
    else if e.tag = .bit then
      (if bits % 8 = 0 then 1 else 0) + t.sizeFrom (index + 1) (bits + 1) rest
    else e.size + t.sizeFrom (index + 1) 0 rest

/-- The bytes that the template takes when texts and lists are empty. The sum has no bound here; that of
a type whose values can be stored is a machine word (`TypeDef.minimumSize_lt_of_encode`). -/
def minimumSize : Nat := t.sizeFrom 0 0 t.entries

/-! ### Nested types -/

/-- Changes the nested types, which are known to belong to an entry. -/
def mapNested {σ : Type} (t : Template τ)
    (f : (a : τ) → (∃ e ∈ t.entries, e.nested = some a) → σ) : Template σ :=
  { order := t.order
    groups := t.groups
    entries := t.entries.attach.map fun ⟨e, member⟩ =>
      { label := e.label
        tag := e.tag
        size := e.size
        nested := match h : e.nested with
          | none => none
          | some a => some (f a ⟨e, member, h⟩) } }

end Template

end Rsrc
