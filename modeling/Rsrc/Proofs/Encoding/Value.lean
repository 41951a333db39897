import Mathlib.Tactic.NormNum
import Mathlib.Tactic.Ring
import Rsrc.Proofs.Encoding.Slot
import Rsrc.Proofs.Reference

/-!
# Reading back values

What is stored for a value under a tag is read back as its canonical form. Hexadecimal data has no
end of its own and stands apart from the other tags.
-/

namespace Rsrc.Slot

open Decoding (Reads)

variable {n : Int64} {width : Width} {signed : Bool} {s : Subject} {order : ByteOrder} {tag : Tag}
  {key : String} {bytes : List UInt8} {v : Option Value} {format : Format}

/-! ### What is stored -/

section Stored

variable {s : Subject} {key expected : String} {v : Option Value} {n : Int64}

theorem eq_integerOf (h : Encoding.integerOf s key v = .ok n) : n = integerOf v := by
  cases v with
  | none => cases h; rfl
  | some v => cases v <;> cases h <;> rfl

theorem eq_characterOf (h : Encoding.characterOf s key v = .ok n) : n = characterOf v := by
  cases v with
  | none => cases h; rfl
  | some v =>
    cases v with
    | string text =>
      simp only [Encoding.characterOf] at h
      split at h
      · rename_i b single
        cases h
        rw [characterOf, single]
        rfl
      · cases h
    | _ => cases h <;> rfl

theorem eq_booleanOf {b : Bool} (h : Encoding.booleanOf s key v = .ok b) : b = booleanOf v := by
  cases v with
  | none => cases h; rfl
  | some v => cases v <;> cases h <;> rfl

theorem eq_textOf {text : String} (h : Encoding.textOf s key expected v = .ok text) :
    text = textOf v := by
  cases v with
  | none => cases h; rfl
  | some v => cases v <;> cases h; rfl

theorem eq_write {order : ByteOrder} {width : Nat} {signed : Bool} {tag : Tag} {bytes : List UInt8}
    (h : Encoding.integer s order width signed tag key n = .ok bytes) :
    Encoding.fits width signed n = true ∧ bytes = order.write width n := by
  rw [Encoding.integer] at h
  split at h
  · cases h
    exact ⟨‹_›, rfl⟩
  · cases h

end Stored

/-! ### Integers -/

theorem wrap_of_nonneg (h : 0 ≤ n.toInt) : wrap width signed n = n := by
  have nonneg : 0 ≤ n := Int64.le_iff_toInt_le.2 h
  simp [wrap, nonneg]

theorem wrap_of_neg (h : n.toInt < 0) :
    wrap width false n = Int64.ofInt (n.toInt % 2 ^ (8 * width.bytes)) := by
  have negative : ¬ 0 ≤ n := by
    intro nonneg
    have := Int64.le_iff_toInt_le.1 nonneg
    simp at this
    omega
  simp [wrap, negative]

theorem fits_iff :
    Encoding.fits width.bytes signed n = true ↔
      -(256 ^ width.bytes : Int) ≤ 2 * n.toInt ∧
        n.toInt * (if signed then 2 else 1) < 256 ^ width.bytes := by
  have lower := n.le_toInt
  have upper := n.toInt_lt
  cases width <;> cases signed <;> norm_num [Encoding.fits, Width.bytes] <;> omega

/-- An integer that fits is read back in canonical form. -/
theorem read_write_wrap (h : Encoding.fits width.bytes signed n = true) :
    order.read signed (order.write width.bytes n) = wrap width signed n := by
  obtain ⟨lower, upper⟩ := fits_iff.1 h
  have small : width.bytes ≤ 8 := by cases width <;> decide
  cases signed with
  | true =>
    rw [ByteOrder.read_write_signed small order lower (by simpa [mul_comm] using upper)]
    simp [wrap]
  | false =>
    have states : (2 : Int) ^ (8 * width.bytes) = 256 ^ width.bytes := by rw [pow_mul]; norm_num
    rw [ByteOrder.read_write_unsigned small]
    rcases lt_or_ge n.toInt 0 with negative | nonneg
    · rw [wrap_of_neg negative, states]
    · rw [wrap_of_nonneg nonneg, Int.emod_eq_of_lt nonneg (by simpa using upper),
        Int64.ofInt_toInt]

theorem reads_integer (h : Encoding.integer s order width.bytes signed tag key n = .ok bytes) :
    Reads (Decoding.integer order key width.bytes signed) bytes (wrap width signed n) := by
  obtain ⟨fits, rfl⟩ := eq_write h
  rw [← read_write_wrap fits]
  exact Reads.integer order key width.bytes signed n

theorem integer_of_side (h : Encoding.side s order key v = .ok bytes) :
    Encoding.integer s order Width.two.bytes true (.integer .two true) key (integerOf v) =
      .ok bytes := by
  cases v with
  | none => exact h
  | some v =>
    cases v with
    | integer | percentage | boolean => exact h
    | decimal | string | reference => cases h

theorem reads_side (h : Encoding.side s order key v = .ok bytes) :
    Reads (Decoding.integer order key 2 true) bytes (integerOf v) :=
  reads_integer (integer_of_side h)

theorem reads_byte (order : ByteOrder) (key : String) (b : UInt8) :
    Reads (Decoding.integer order key 1 false) [b] (Int64.ofNat b.toNat) := by
  have value : order.read false [b] = Int64.ofNat b.toNat := by
    simp [ByteOrder.read, ByteOrder.readNat_singleton]
  have h := (Reads.takeByte key b).map (order.read false)
  rwa [value] at h

theorem reads_character (lower : 0 ≤ n) (upper : n ≤ 255) :
    Reads (Decoding.integer order key 1 false) [UInt8.ofNat n.toInt.toNat] n := by
  have lower := Int64.le_iff_toInt_le.1 lower
  have upper := Int64.le_iff_toInt_le.1 upper
  simp only [Int64.reduceToInt] at lower upper
  have same : Int64.ofNat (UInt8.ofNat n.toInt.toNat).toNat = n := by
    rw [Text.toNat_ofNat (by omega), ← Int64.ofInt_eq_ofNat, Int.toNat_of_nonneg lower,
      Int64.ofInt_toInt]
  have h := reads_byte order key (UInt8.ofNat n.toInt.toNat)
  rwa [same] at h

/-! ### Texts -/

theorem encodeChar_ne_zero {c : Char} (h : c ≠ '\x00') :
    ∀ b ∈ String.utf8EncodeChar c, b ≠ 0 := by
  have code : c.val.toNat ≠ 0 := by
    intro zero
    apply h
    apply Char.ext
    exact UInt32.toNat_inj.1 zero
  have nonzero : ∀ {n : Nat}, n < 256 → n ≠ 0 → UInt8.ofNat n ≠ 0 := by
    intro n small positive equal
    have := congrArg UInt8.toNat equal
    rw [Text.toNat_ofNat small] at this
    exact positive (by simpa using this)
  intro b member
  rw [String.utf8EncodeChar] at member
  split at member
  · simp only [List.mem_singleton] at member
    exact member ▸ nonzero (by omega) code
  · split at member
    · simp only [List.mem_cons, List.not_mem_nil, or_false] at member
      rcases member with rfl | rfl <;> exact nonzero (by omega) (by omega)
    · split at member
      · simp only [List.mem_cons, List.not_mem_nil, or_false] at member
        rcases member with rfl | rfl | rfl <;> exact nonzero (by omega) (by omega)
      · simp only [List.mem_cons, List.not_mem_nil, or_false] at member
        rcases member with rfl | rfl | rfl | rfl <;> exact nonzero (by omega) (by omega)

theorem encode_ne_zero {text : String} (h : '\x00' ∉ text.toList) :
    ∀ b ∈ Text.encode text, b ≠ 0 := by
  intro b member
  rw [Text.encode_eq, List.mem_flatMap] at member
  obtain ⟨c, inside, here⟩ := member
  exact encodeChar_ne_zero (fun equal => h (equal ▸ inside)) b here

/-- A text that ends at a NUL holds none. -/
def NulFree (tag : Tag) (v : Option Value) : Prop :=
  match tag with
  | .terminatedText | .fixedText _ => '\x00' ∉ (textOf v).toList
  | _ => True

theorem takeWhile_padded (free : ∀ b ∈ bytes, b ≠ 0) (n : Nat) :
    (bytes ++ List.replicate n 0).takeWhile (· != 0) = bytes := by
  have nonzero : ∀ b ∈ bytes, (b != 0) = true := by simpa using free
  rw [List.takeWhile_append_of_pos nonzero]
  cases n <;> simp [List.replicate_succ]

theorem length_padded {size : Nat} (short : bytes.length < size) :
    (bytes ++ List.replicate (size - bytes.length) 0).length = size := by
  rw [List.length_append, List.length_replicate]
  omega

theorem reads_text (isText : tag.isText = true) (free : NulFree tag v)
    (h : Encoding.text s order tag key (Text.encode (textOf v)) = .ok bytes) :
    Reads (Decoding.value format order tag key) bytes (.string (textOf v)) := by
  have read := Text.decodeLossy_encode (textOf v)
  have counted {width : Nat} (small : width ≤ 8)
      (fits : (Text.encode (textOf v)).length < 256 ^ width) :
      Reads (do return Value.string (Text.decodeLossy (← Decoding.takeCounted order key width)))
        (order.write width (Int64.ofNat (Text.encode (textOf v)).length) ++ Text.encode (textOf v))
        (.string (textOf v)) := by
    have text := (Reads.takeCounted small fits order key).map fun raw =>
      Value.string (Text.decodeLossy raw)
    rwa [read] at text
  cases tag with
  | shortText =>
    simp only [Encoding.text] at h
    split at h
    · cases h
      exact counted (by decide) (by omega)
    · cases h
  | longText =>
    simp only [Encoding.text] at h
    split at h
    · cases h
      exact counted (by decide) (by omega)
    · cases h
  | terminatedText =>
    cases h
    have bytes := Reads.takeTerminated (encode_ne_zero free) key
    have text := bytes.map fun raw => Value.string (Text.decodeLossy raw)
    rwa [read] at text
  | fixedText size =>
    -- The text ends at the padding, or fills its place.
    simp only [Encoding.text] at h
    split at h
    · cases h
      have text := (Reads.take (length_padded ‹_›) key).map fun raw =>
        Value.string (Text.decodeLossy (raw.takeWhile (· != 0)))
      rwa [takeWhile_padded (encode_ne_zero free), read] at text
    · cases h
  | _ => cases isText

/-! ### References -/

/-- A value as it is read back: type codes as their four bytes read. -/
def asRead : Value → Value
  | .reference r => .reference { r with typeCode := r.typeCode.map Reference.storedCode }
  | v => v

/-- A reference under a reference tag has a type code of four bytes, if it has one. -/
def FourByteCode (tag : Tag) (v : Option Value) : Prop :=
  match tag with
  | .reference => ∀ code, (referenceOf .extended v).typeCode = some code → code.utf8ByteSize = 4
  | _ => True

theorem reads_reference {r : Reference} (found : Encoding.referenceOf s key v = .ok r)
    (h : Encoding.reference s format order key r = .ok bytes) :
    Reads (Decoding.value format order .reference key) bytes
      (asRead (.reference (referenceOf format v))) := by
  -- The reference that is stored, with what is left of it in each format.
  have kept : referenceOf .extended v = { id := r.id, container := r.container
                                          typeCode := r.typeCode } ∧
      referenceOf .classic v = { id := r.id } ∧ referenceOf .rez v = { id := r.id } := by
    cases v with
    | none => cases found; exact ⟨rfl, rfl, rfl⟩
    | some v => cases v <;> cases found <;> exact ⟨rfl, rfl, rfl⟩
  obtain ⟨extended, classic, rez⟩ := kept
  have short {bytes : List UInt8}
      (h : Encoding.integer s order 2 true .reference key r.id = .ok bytes) :
      Reads (do return ({ id := ← Decoding.integer order key 2 true } : Reference)) bytes
        { id := r.id } := by
    have id : Reads (Decoding.integer order key Width.two.bytes true) bytes r.id := reads_integer h
    exact id.map fun id => ({ id } : Reference)
  cases format with
  | extended =>
    rw [extended]
    exact (Reference.reads_decode h).map Value.reference
  | classic =>
    rw [classic]
    exact (short h).map Value.reference
  | rez =>
    rw [rez]
    exact (short h).map Value.reference

theorem asRead_eq (h : FourByteCode tag v) :
    asRead (canonicalValue format tag v) = canonicalValue format tag v := by
  cases tag with
  | reference =>
    have code : ∀ code, (referenceOf format v).typeCode = some code →
        Reference.storedCode code = code := by
      intro code present
      refine Reference.storedCode_eq (h code ?_)
      cases v with
      | none => cases present
      | some v =>
        cases v with
        | reference r =>
          cases format with
          | extended => exact present
          | classic => cases present
          | rez => cases present
        | _ => cases present
    have same : (referenceOf format v).typeCode.map Reference.storedCode =
        (referenceOf format v).typeCode := by
      cases present : (referenceOf format v).typeCode with
      | none => rfl
      | some text => rw [Option.map_some, code text present]
    simp only [canonicalValue, asRead, same]
  | _ => rfl

/-! ### Hexadecimal data -/

theorem hexDigit?_eq {c : Char} {n : Nat} (h : Integer.hexDigit? c = some n) :
    n < 16 ∧ Hex.digit n = c.toUpper ∧ c ≠ '+' := by
  have each : ∀ k < 128, (Integer.hexDigit? (Char.ofNat k)).all (fun n =>
      n < 16 ∧ Hex.digit n = (Char.ofNat k).toUpper ∧ Char.ofNat k ≠ '+') = true := by
    decide +kernel
  -- All digits are ASCII, so those are enough.
  have ascii : c.toNat < 128 := by
    simp only [Integer.hexDigit?, Char.isDigit, Bool.and_eq_true, decide_eq_true_eq] at h
    split at h
    · rename_i range
      exact Nat.lt_of_le_of_lt range.2 (by decide)
    · split at h
      · rename_i range
        exact Nat.lt_of_le_of_lt range.2 (by decide)
      · split at h
        · rename_i range
          exact Nat.lt_of_le_of_lt range.2 (by decide)
        · cases h
  have here := each c.toNat ascii
  rw [Char.ofNat_toNat, h] at here
  exact of_decide_eq_true here

theorem ofByte_ofNat {high low : Nat} (h : high < 16) (l : low < 16) :
    Hex.ofByte (UInt8.ofNat (high * 16 + low)) = [Hex.digit high, Hex.digit low] := by
  have whole : (UInt8.ofNat (high * 16 + low)).toNat = high * 16 + low :=
    Text.toNat_ofNat (by omega)
  have upper : (high * 16 + low) / 16 = high := by omega
  have lower : (high * 16 + low) % 16 = low := by omega
  simp only [Hex.ofByte, whole, upper, lower]

theorem plain_hexPair? {a b : Char} {byte : UInt8} (h : Encoding.hexPair? a b = some byte) :
    Hex.ofByte byte = [a, b].map fun c => if c = '+' then '0' else c.toUpper := by
  rw [Encoding.hexPair?] at h
  split at h
  · rename_i high low first second
    obtain ⟨smallHigh, digitHigh, plainHigh⟩ := hexDigit?_eq first
    obtain ⟨smallLow, digitLow, plainLow⟩ := hexDigit?_eq second
    cases h
    rw [ofByte_ofNat smallHigh smallLow, digitHigh, digitLow]
    simp [plainHigh, plainLow]
  · rename_i low _ second
    obtain ⟨smallLow, digitLow, plainLow⟩ := hexDigit?_eq second
    split at h
    · rename_i plus
      cases h
      have value := ofByte_ofNat (by omega : 0 < 16) smallLow
      rw [Nat.zero_mul, Nat.zero_add] at value
      rw [value, digitLow]
      simp [plus, plainLow, Hex.digit]
    · cases h
  · cases h

theorem plain_hexPairs? {cs : List Char} (h : Encoding.hexPairs? cs = some bytes) :
    Hex.plain bytes = cs.map fun c => if c = '+' then '0' else c.toUpper := by
  fun_induction Encoding.hexPairs? cs generalizing bytes with
  | case1 => cases h; rfl
  | case2 => cases h
  | case3 a b rest ih =>
    simp only [Option.bind_eq_bind, Option.bind_eq_some_iff, Option.pure_def] at h
    obtain ⟨byte, first, more, others, joined⟩ := h
    cases joined
    have front := plain_hexPair? first
    rw [Hex.plain, List.flatMap_cons, front, ← Hex.plain, ih others]
    rfl

/-- Hexadecimal data at the end is read back in canonical form. -/
theorem run_data (h : Encoding.value s format order .data key v = .ok bytes) :
    (Decoding.value format order .data key).run bytes =
      .ok (canonicalValue format .data v, []) := by
  obtain ⟨text, found, h⟩ := exists_of_bind_eq_ok h
  split at h
  · rename_i parsed
    cases h
    obtain rfl := eq_textOf found
    have hex : String.ofList (Hex.plain bytes) = hexOf (textOf v) := by
      rw [plain_hexPairs? parsed]
      rfl
    rw [canonicalValue, ← hex]
    rfl
  · cases h

/-! ### All other tags -/

/-- Values that are stored on their own, with an end of their own. -/
def isClosed : Tag → Bool
  | .integer .. | .char | .boolean | .shortText | .terminatedText | .longText | .fixedText _
  | .reference => true
  | _ => false

theorem reads_value (closed : isClosed tag = true) (free : NulFree tag v)
    (h : Encoding.value s format order tag key v = .ok bytes) :
    Reads (Decoding.value format order tag key) bytes (asRead (canonicalValue format tag v)) := by
  cases tag with
  | integer width signed =>
    obtain ⟨n, found, h⟩ := exists_of_bind_eq_ok h
    obtain rfl := eq_integerOf found
    exact (reads_integer h).map Value.integer
  | char =>
    obtain ⟨n, found, h⟩ := exists_of_bind_eq_ok h
    obtain rfl := eq_characterOf found
    split at h
    · rename_i range
      simp only [Bool.and_eq_true, decide_eq_true_eq] at range
      cases h
      exact (reads_character range.1 range.2).map Value.integer
    · cases h
  | boolean =>
    obtain ⟨b, found, h⟩ := exists_of_bind_eq_ok h
    obtain rfl := eq_booleanOf found
    cases h
    have read := (reads_byte order key (if booleanOf v then 1 else 0)).map fun n =>
      Value.boolean (n != 0)
    have value : (Int64.ofNat (if booleanOf v then (1 : UInt8) else 0).toNat != 0) =
        booleanOf v := by
      cases booleanOf v <;> decide
    rwa [value] at read
  | shortText | terminatedText | longText | fixedText size =>
    obtain ⟨text, found, h⟩ := exists_of_bind_eq_ok h
    obtain rfl := eq_textOf found
    exact reads_text rfl free h
  | reference =>
    obtain ⟨r, found, h⟩ := exists_of_bind_eq_ok h
    exact reads_reference found h
  | _ => cases closed

end Rsrc.Slot
