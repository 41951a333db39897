import Rsrc.Project

/-!
# The prelude

The types that every compilation knows.
-/

namespace Rsrc

def preludeSource : SourceFile where
  name := "<prelude>"
  contents := "
@builtin @no_declaration
type Rect : \"RECT\" \x7b
    template \x7b DWRD top; DWRD left; DWRD bottom; DWRD right; \x7d;
    constructor(top, left, bottom, right) \x7b
        this.top = top;
        this.left = left;
        this.bottom = bottom;
        this.right = right;
    \x7d;
\x7d;

@builtin
type StringList : \"STR#\" \x7b
    template \x7b OCNT count; LSTC start; PSTR text; LSTE end; \x7d;
    field(\"Str\") repeatable<0, 32767, count> \x7b text; \x7d;
\x7d;

@builtin
type StringResource : \"STR \" \x7b
    template \x7b CSTR text; HEXD data; \x7d;
    field(\"Str\") \x7b text; \x7d;
\x7d;
"

/-- The session that an update has come to, unless something has failed. -/
def Session.ofUpdated (updated : EStateM.Result Failure Session Unit) : Except Failure Session :=
  match updated with
  | .error failure _ => .error failure
  | .ok () s =>
    match Failure.ofList s.failures with
    | some failure => .error failure
    | none => .ok s

/-- A session for options that knows the prelude. -/
def Session.prepared (o : Options) : Except Failure Session :=
  Session.ofUpdated (({} : FileTree).parse preludeSource (.ofOptions o))

end Rsrc
