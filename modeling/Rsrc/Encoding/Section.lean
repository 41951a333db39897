import Rsrc.Field
import Rsrc.Template

/-!
# Sections of a template

A template is stored section by section: runs of plain entries, and lists. Inside a section, up to
eight bits in a row share a byte; such a run and every other entry is a cell.
-/

namespace Rsrc

variable {τ : Type}

inductive Section (τ : Type) where
  | plain (entries : List (Entry τ))
  | list (count : Entry τ) (members : List (Entry τ))

/-- A byte of at most eight bits, or one other entry. -/
inductive Cell (τ : Type) where
  | bits (run : List (Entry τ))
  | one (entry : Entry τ)

namespace Section

/-- A run of plain entries, collected last first, if there is any. -/
def ofPlain (run : List (Entry τ)) : List (Section τ) :=
  if run.isEmpty then [] else [.plain run.reverse]

mutual

/-- The sections of entries outside a list, behind a run of plain entries. -/
def outside (run : List (Entry τ)) : List (Entry τ) → List (Section τ)
  | [] => ofPlain run
  | e :: rest =>
    match e.tag with
    | .count => ofPlain run ++ inside e [] rest
    | .listStart | .listEnd => ofPlain run ++ outside [] rest
    | _ => outside (e :: run) rest

/-- The sections of entries inside a list with the given count, behind some of its members. -/
def inside (count : Entry τ) (members : List (Entry τ)) : List (Entry τ) → List (Section τ)
  | [] => [.list count members.reverse]
  | e :: rest =>
    match e.tag with
    | .listEnd => .list count members.reverse :: outside [] rest
    | .listStart => inside count members rest
    | _ => inside count (e :: members) rest

end

end Section

/-- The sections of a template whose list markers pair up. -/
def Template.sections (t : Template τ) : List (Section τ) := Section.outside [] t.entries

namespace Cell

/-- A run of bits as a cell, if there is any. -/
def ofRun (run : List (Entry τ)) : List (Cell τ) := if run.isEmpty then [] else [.bits run]

/-- The cells of entries behind a run of bits. -/
def ofEntriesBehind (run : List (Entry τ)) : List (Entry τ) → List (Cell τ)
  | [] => ofRun run
  | e :: rest =>
    if e.tag = .bit then
      if run.length < 7 then ofEntriesBehind (run ++ [e]) rest
      else .bits (run ++ [e]) :: ofEntriesBehind [] rest
    else ofRun run ++ .one e :: ofEntriesBehind [] rest

def ofEntries (entries : List (Entry τ)) : List (Cell τ) := ofEntriesBehind [] entries

end Cell

/-- The field of a type whose elements are the list with the given count. -/
def listOwner? (fields : List Field) (count : String) : Option Field :=
  fields.find? (·.repetition.any (·.count == count))

end Rsrc
