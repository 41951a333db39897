import Rsrc.Source

/-!
# Encoding errors

Why a resource has no encoding, or why bytes are not an encoding.
-/

namespace Rsrc

/-- Why a value can not be stored. -/
inductive Rejection where
  | typeMismatch (expected found : String)
  | outOfRange (value : Int64) (tag : String)
  | textTooLong (length limit : Nat)
  | repeatCount (count : Nat) (lower upper : Int64)
  | invalidHex
  deriving DecidableEq, Repr

inductive EncodingError where
  /-- `field` is the key of the value, `resource` the display text of the resource, and `site` where
  that was declared. -/
  | rejected (cause : Rejection) (field resource : String) (site : Site)
  | containerTooLong (container : String)
  | truncated (field : String)
  deriving DecidableEq, Repr

namespace Rejection

def code : Rejection → String
  | typeMismatch .. => "encoding::type_mismatch"
  | outOfRange .. => "encoding::out_of_range"
  | textTooLong .. => "encoding::string_too_long"
  | repeatCount .. => "encoding::repeat_count"
  | invalidHex => "encoding::invalid_hex"

def message (field resource : String) : Rejection → String
  | typeMismatch expected found =>
    s!"Field {quoted field} of {resource} expects {expected}, but found {found}"
  | outOfRange value tag =>
    s!"Value {value} of field {quoted field} in {resource} does not fit in {tag}"
  | textTooLong length limit =>
    s!"String in field {quoted field} of {resource} is {length} bytes, the limit is {limit}"
  | repeatCount count lower upper =>
    s!"Field {quoted field} of {resource} has {count} entries, " ++
      s!"expected between {lower} and {upper}"
  | invalidHex => s!"Field {quoted field} of {resource} is not valid hexadecimal data"

def help : Rejection → Option String
  | typeMismatch .. => some "The value's kind must match the field's binary type."
  | _ => none

end Rejection

def EncodingError.report : EncodingError → Report
  | rejected cause field resource site =>
    { code := cause.code
      message := cause.message field resource
      help := cause.help
      label := some ⟨"declared here", site⟩ }
  | containerTooLong container =>
    { code := "encoding::container_too_long"
      message := s!"Container name {quoted container} is longer than 255 bytes" }
  | truncated field =>
    { code := "encoding::truncated"
      message := s!"Resource data ended while reading field {quoted field}" }

end Rsrc
