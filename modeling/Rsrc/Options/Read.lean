import Rsrc.Document.JsonText
import Rsrc.Document.Scalar
import Rsrc.FileTree
import Rsrc.Options
import Rsrc.Yaml.Node

/-!
# Reading options

Options are written as JSON or YAML. Both are read by the same rules, on top of a view that says what
counts as a text, as nothing, and as a collection.
-/

namespace Rsrc

/-- How the parts of a written document are seen. -/
structure View (τ : Type) where
  text? : τ → Option String
  /-- A text that may be left out. -/
  optional? : τ → Option (Option String)
  items? : τ → Option (List τ)
  entries? : τ → Option (List (String × τ))
  /-- The values of known keys, in their order. -/
  places? : τ → Option (List τ)

/-- Only texts are texts in JSON, and only `null` is nothing. The keys may be left out, if their values
stand in a list. -/
def Document.view : View Document where
  text?
    | .text s => some s
    | _ => none
  optional?
    | .null => some none
    | .text s => some (some s)
    | _ => none
  items?
    | .list items => some items
    | _ => none
  entries?
    | .map entries => some entries
    | _ => none
  places?
    | .list items => some items
    | _ => none

/-- The tag of a value that is nothing. -/
def Yaml.nullTag : String := "tag:yaml.org,2002:null"

/-- Every scalar of YAML can be a text. A plain one may also say that there is nothing, which a tag can
rule out or demand. What is left out is an empty collection, too. -/
def Yaml.view : View Yaml.Node where
  text?
    | .scalar _ _ s => some s
    | _ => none
  optional?
    | .scalar true none s => some (if Document.ScalarStyle.isNullWord s then none else some s)
    | .scalar true (some tag) s =>
      if tag != Yaml.nullTag then some (some s)
      else if s != "" && Document.ScalarStyle.isNullWord s then some none
      else none
    | .scalar false _ s => some (some s)
    | _ => none
  items?
    | .list items => some items
    | .scalar true _ "" => some []
    | _ => none
  entries?
    | .map entries => entries.mapM fun
      | (.scalar _ _ key, value) => some (key, value)
      | _ => none
    | .scalar true _ "" => some []
    | _ => none
  places? _ := none

inductive OptionKey where
  | definitions
  | format
  | output
  | searchPaths
  deriving DecidableEq, Repr

namespace OptionKey

/-- All keys, in the order in which a list gives their values. -/
def all : List OptionKey := [definitions, format, output, searchPaths]

def name : OptionKey → String
  | definitions => "definitions"
  | format => "format"
  | output => "output"
  | searchPaths => "search-paths"

def ofName? (s : String) : Option OptionKey := all.find? (·.name == s)

end OptionKey

/-- Options as they are written, with the format by its name. -/
structure OptionsText where
  definitions : List String := []
  format : Option String := none
  output : Option String := none
  searchPaths : List String := []

namespace OptionsText

variable {τ : Type}
variable (v : View τ)

def texts? (t : τ) : Option (List String) := do (← v.items? t).mapM v.text?

def set? (o : OptionsText) (key : OptionKey) (t : τ) : Option OptionsText :=
  match key with
  | .definitions => (texts? v t).map fun definitions => { o with definitions }
  | .format => (v.optional? t).map fun format => { o with format }
  | .output => (v.optional? t).map fun output => { o with output }
  | .searchPaths => (texts? v t).map fun searchPaths => { o with searchPaths }

def setAll? (v : View τ) (o : OptionsText) : List (OptionKey × τ) → Option OptionsText
  | [] => some o
  | (key, t) :: rest => do setAll? v (← o.set? v key t) rest

/-- The values by their keys, each at most once, or by their places in a list. -/
def keyed? (t : τ) : Option (List (OptionKey × τ)) :=
  match v.entries? t with
  | some entries => do
    let keyed ← entries.mapM fun (name, value) => (OptionKey.ofName? name).map (·, value)
    if (keyed.map (·.1)).Nodup then some keyed else none
  | none => do
    let items ← v.places? t
    if items.length ≤ OptionKey.all.length then some (OptionKey.all.zip items) else none

def ofView? (t : τ) : Option OptionsText := do setAll? v {} (← keyed? v t)

/-- Looks up the format. -/
def toOptions (o : OptionsText) : Except OptionsError Options := do
  let format ← match o.format with
    | none => pure none
    | some name =>
      match Format.ofName? name with
      | some format => pure (some format)
      | none => throw (.unknownFormat name)
  return {
    definitions := .ofList (o.definitions.map (·, ()))
    format
    output := o.output.map Path.mk
    searchPaths := o.searchPaths.map Path.mk }

end OptionsText

namespace Options

/-- The options that a document holds. -/
def ofView {τ : Type} (v : View τ) (document : Option τ) : Except OptionsError Options :=
  match document.bind (OptionsText.ofView? v) with
  | some o => o.toOptions
  | none => .error .malformed

def ofJson (s : String) : Except OptionsError Options := ofView Document.view (Document.ofJson? s)

def ofYaml (s : String) : Except OptionsError Options := ofView Yaml.view (Yaml.Node.ofText? s)

end Options

/-- Reads options from a file: JSON if its name says so, and else YAML. -/
def FileTree.readOptions (t : FileTree) (p : Path) : Except OptionsError Options :=
  match t.readText p with
  | .error e => .error (.unreadable p.text e.message)
  | .ok s => if p.extension? == some "json" then Options.ofJson s else Options.ofYaml s

end Rsrc
