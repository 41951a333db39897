import Rsrc.Lexeme.Scan

/-!
# Lexing a source

A source is a sequence of lexemes with gaps of blanks and comments between them. A comment runs
from `//` or a grave accent through the end of the line.
-/

namespace Rsrc.Lexeme

/-- The blanks and comments at the front of an input. -/
structure Gap (input : List Char) where
  skipped : List Char
  rest : List Char
  split : skipped ++ rest = input

def isInLine (c : Char) : Bool := c ≠ '\n'

/-- What is left behind the end of the line. -/
def afterLine (cs : List Char) : List Char := (cs.dropWhile isInLine).drop 1

/-- The rest of the line with its end. -/
def restOfLine (cs : List Char) : List Char :=
  cs.takeWhile isInLine ++ (cs.dropWhile isInLine).take 1

@[simp] theorem restOfLine_append_afterLine (cs : List Char) :
    restOfLine cs ++ afterLine cs = cs := by
  rw [restOfLine, afterLine, List.append_assoc, List.take_append_drop,
    List.takeWhile_append_dropWhile]

theorem length_afterLine_le (cs : List Char) : (afterLine cs).length ≤ cs.length := by
  have h := congrArg List.length (restOfLine_append_afterLine cs)
  rw [List.length_append] at h
  omega

/-- Takes blanks and comments from the front. -/
def gap (input : List Char) : Gap input :=
  match input with
  | [] => ⟨[], [], rfl⟩
  | '\x60' :: cs =>
    let g := gap (afterLine cs)
    ⟨'\x60' :: restOfLine cs ++ g.skipped, g.rest, by simp [g.split]⟩
  | '/' :: '/' :: cs =>
    let g := gap (afterLine cs)
    ⟨'/' :: '/' :: restOfLine cs ++ g.skipped, g.rest, by simp [g.split]⟩
  | c :: cs =>
    if Text.isBlank c then
      let g := gap cs
      ⟨c :: g.skipped, g.rest, by simp [g.split]⟩
    else ⟨[], c :: cs, rfl⟩
termination_by input.length
decreasing_by
  · exact Nat.lt_succ_of_le (length_afterLine_le cs)
  · exact Nat.lt_succ_of_le (Nat.le_succ_of_le (length_afterLine_le cs))
  · simp

theorem Gap.length_rest_le {input : List Char} (g : Gap input) : g.rest.length ≤ input.length := by
  have h := congrArg List.length g.split
  simp at h
  omega

theorem Scan.length_rest_lt {input : List Char} (s : Scan input) :
    s.rest.length < input.length := by
  have h := congrArg List.length s.split
  have := List.length_pos_iff.2 s.nonempty
  simp at h
  omega

/-- The lexeme a scan found at byte `start`. -/
def ofScan {input : List Char} (source : SourceFile) (start : Nat) (s : Scan input) : Lexeme :=
  { kind := s.kind
    text := String.ofList s.text
    literal := s.literal
    start
    stop := start + Text.byteSize s.taken
    source }

/-- The lexemes of `input`, which starts at byte `offset` of the source. -/
def lexFrom (source : SourceFile) (offset : Nat) (input : List Char) :
    Except LexicalError (List Lexeme) :=
  let g := gap input
  let start := offset + Text.byteSize g.skipped
  match h : g.rest with
  | [] => .ok []
  | c :: cs =>
    match scan c cs with
    | .error fault => .error
        ⟨fault.cause, ⟨source.name, ⟨start + fault.offset, fault.length⟩⟩⟩
    | .ok s =>
      have : s.rest.length < input.length :=
        Nat.lt_of_lt_of_le s.length_rest_lt (h ▸ g.length_rest_le)
      match lexFrom source (start + Text.byteSize s.taken) s.rest with
      | .error e => .error e
      | .ok lexemes => .ok (ofScan source start s :: lexemes)
termination_by input.length

/-- The lexemes of a source. -/
def lex (source : SourceFile) : Except LexicalError (List Lexeme) :=
  lexFrom source 0 source.contents.toList

end Rsrc.Lexeme
