/-!
# Text from bytes

Two readings of a byte sequence as UTF-8: `decode?` refuses ill-formed input, `decodeLossy` puts
U+FFFD in place of every maximal ill-formed part.
-/

namespace Rsrc.Text

def encode (text : String) : List UInt8 := text.toUTF8.toList

/-- How many continuation bytes follow the first byte of a character, and the range of the first
of them. -/
def lead? (b : UInt8) : Option (Nat × UInt8 × UInt8) :=
  if 0xC2 ≤ b && b ≤ 0xDF then some (1, 0x80, 0xBF)
  else if b == 0xE0 then some (2, 0xA0, 0xBF)
  else if b == 0xED then some (2, 0x80, 0x9F)
  else if 0xE1 ≤ b && b ≤ 0xEF then some (2, 0x80, 0xBF)
  else if b == 0xF0 then some (3, 0x90, 0xBF)
  else if b == 0xF4 then some (3, 0x80, 0x8F)
  else if 0xF1 ≤ b && b ≤ 0xF3 then some (3, 0x80, 0xBF)
  else none

/-- The bits a first byte adds when `tails` continuation bytes follow. -/
def leadBits (tails : Nat) (b : UInt8) : Nat :=
  match tails with
  | 1 => b.toNat % 32
  | 2 => b.toNat % 16
  | _ => b.toNat % 8

/-- Reads at most `tails` continuation bytes, the first of them between `low` and `high`. Gives
the code point when all of them are there, and what is left. -/
def readTails : Nat → UInt8 → UInt8 → Nat → List UInt8 → Option Nat × List UInt8
  | 0, _, _, code, rest => (some code, rest)
  | _ + 1, _, _, _, [] => (none, [])
  | tails + 1, low, high, code, b :: rest =>
    if low ≤ b && b ≤ high then readTails tails 0x80 0xBF (code * 64 + b.toNat % 64) rest
    else (none, b :: rest)

theorem length_readTails_le (tails : Nat) (low high : UInt8) (code : Nat) (bytes : List UInt8) :
    (readTails tails low high code bytes).2.length ≤ bytes.length := by
  induction tails generalizing low high code bytes with
  | zero => simp [readTails]
  | succ tails ih =>
    cases bytes with
    | nil => simp [readTails]
    | cons b rest =>
      simp only [readTails]
      split
      · exact Nat.le_succ_of_le (ih ..)
      · simp

/-- The characters of a byte sequence, `none` for each maximal ill-formed part. -/
def decodeParts : List UInt8 → List (Option Char)
  | [] => []
  | b :: rest =>
    if b < 0x80 then some (Char.ofNat b.toNat) :: decodeParts rest
    else match lead? b with
      | none => none :: decodeParts rest
      | some (tails, low, high) =>
        let read := readTails tails low high (leadBits tails b) rest
        read.1.map Char.ofNat :: decodeParts read.2
termination_by bytes => bytes.length
decreasing_by
  · simp
  · simp
  · exact Nat.lt_succ_of_le (length_readTails_le ..)

/-- Reads bytes as text, with U+FFFD for every maximal ill-formed part. -/
def decodeLossy (bytes : List UInt8) : String :=
  String.ofList ((decodeParts bytes).map (·.getD '�'))

/-- Reads bytes as text if they are well-formed. -/
def decode? (bytes : List UInt8) : Option String :=
  (decodeParts bytes).mapM id |>.map String.ofList

end Rsrc.Text
