import Rsrc.Archive
import Rsrc.Cursor
import Rsrc.Options
import Rsrc.SemanticError

/-!
# Failures

All that can go wrong in a compilation.
-/

namespace Rsrc

inductive Failure where
  | lexical (e : LexicalError)
  | grammar (e : GrammarError)
  | semantic (e : SemanticError)
  | encoding (e : EncodingError)
  | archive (e : ArchiveError)
  | options (e : OptionsError)
  /-- A file could not be read. -/
  | unreadable (path message : String)
  /-- Two or more failures, in the order in which they were found. -/
  | several (failures : List Failure)

namespace Failure

def report : Failure → Report
  | lexical e => e.report
  | grammar e => e.report
  | semantic e => e.report
  | encoding e => e.report
  | archive e => e.report
  | options e => e.report
  | unreadable path message =>
    { code := "rdl::io", message := s!"Could not read {quoted path}: {message}" }
  | several failures =>
    { code := "rdl::failed"
      message := s!"Compilation failed with {failures.length} errors"
      help := "Each construct that failed is listed below; fix them in order." }

/-- The failure ends only the construct in which it occurs; any other ends the file. -/
def isRecoverable : Failure → Bool
  | semantic _ | encoding _ => true
  | _ => false

/-- The failures as one, if there are any. -/
def ofList : List Failure → Option Failure
  | [] => none
  | [failure] => some failure
  | failures => some (several failures)

end Failure

end Rsrc
