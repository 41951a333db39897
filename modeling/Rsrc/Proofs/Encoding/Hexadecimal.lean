import Mathlib.Algebra.Group.Even
import Rsrc.Proofs.Archive.Rez
import Rsrc.Proofs.Encoding.Pieces

/-!
# Hexadecimal data

Which texts are hexadecimal data, and what they stand for. Blanks do not count; what is left is
taken in pairs, and each pair is one byte. The first of a pair may also be a plus sign, which stands
for the digit zero.
-/

namespace Rsrc

namespace Encoding

variable {c a b : Char} {digits : List Char}

/-- The digits of hexadecimal data, without the blanks. -/
def hexDigits (text : String) : List Char := text.toList.filter (!isHexBlank ·)

/-- What the first digit of a pair counts. -/
def HexLead (c : Char) (n : Nat) : Prop := Integer.hexDigit? c = some n ∨ c = '+' ∧ n = 0

/-- Two digits for every byte, the higher one first. -/
inductive HexPairs : List Char → List UInt8 → Prop where
  | nil : HexPairs [] []
  | cons {a b : Char} {high low : Nat} {byte : UInt8} {digits : List Char} {data : List UInt8}
      (first : HexLead a high) (second : Integer.hexDigit? b = some low)
      (value : byte.toNat = 16 * high + low) (rest : HexPairs digits data) :
      HexPairs (a :: b :: digits) (byte :: data)

/-! ### One pair -/

theorem HexLead.lt {n : Nat} (h : HexLead c n) : n < 16 := by
  rcases h with digit | ⟨-, rfl⟩
  · exact (Slot.hexDigit?_eq digit).1
  · decide

theorem eq_ofNat_iff {b : UInt8} {high low : Nat} (h : high < 16) (l : low < 16) :
    UInt8.ofNat (high * 16 + low) = b ↔ b.toNat = 16 * high + low := by
  rw [← UInt8.toNat_inj, Text.toNat_ofNat (by omega)]
  omega

theorem hexPair?_eq_some_iff {byte : UInt8} :
    hexPair? a b = some byte ↔
      ∃ high low, HexLead a high ∧ Integer.hexDigit? b = some low ∧
        byte.toNat = 16 * high + low := by
  constructor
  · intro h
    rw [hexPair?] at h
    split at h
    · rename_i high low first second
      have value := (eq_ofNat_iff (Slot.hexDigit?_eq first).1 (Slot.hexDigit?_eq second).1).1
        (Option.some.inj h)
      exact ⟨high, low, .inl first, second, value⟩
    · rename_i low _ second
      split at h
      · rename_i plus
        have same : UInt8.ofNat (0 * 16 + low) = byte := by simpa using h
        have value := (eq_ofNat_iff (by decide) (Slot.hexDigit?_eq second).1).1 same
        exact ⟨0, low, .inr ⟨plus, rfl⟩, second, value⟩
      · cases h
    · cases h
  · rintro ⟨high, low, lead, second, value⟩
    have same := (eq_ofNat_iff lead.lt (Slot.hexDigit?_eq second).1).2 value
    rcases lead with first | ⟨rfl, rfl⟩
    · rw [hexPair?, first, second, ← same]
    · rw [hexPair?, second, ← same, Nat.zero_mul, Nat.zero_add]
      rfl

theorem exists_hexPair_iff (plain : a ≠ '+') :
    (∃ byte, hexPair? a b = some byte) ↔
      (Integer.hexDigit? a).isSome ∧ (Integer.hexDigit? b).isSome := by
  rw [hexPair?]
  cases Integer.hexDigit? a <;> cases Integer.hexDigit? b <;> simp [plain]

/-! ### All pairs -/

theorem hexPairs?_eq_some_iff {data : List UInt8} :
    hexPairs? digits = some data ↔ HexPairs digits data := by
  constructor
  · intro h
    fun_induction hexPairs? digits generalizing data with
    | case1 =>
      cases h
      exact .nil
    | case2 c => cases h
    | case3 a b digits ih =>
      simp only [Option.bind_eq_bind, Option.bind_eq_some_iff, Option.pure_def] at h
      obtain ⟨byte, pair, data, others, same⟩ := h
      cases same
      obtain ⟨high, low, first, second, value⟩ := hexPair?_eq_some_iff.1 pair
      exact .cons first second value (ih others)
  · intro h
    induction h with
    | nil => rfl
    | cons first second value _ ih =>
      rw [hexPairs?, hexPair?_eq_some_iff.2 ⟨_, _, first, second, value⟩, ih]
      rfl

/-- Without plus signs, hexadecimal data is an even number of digits. -/
theorem exists_hexPairs_iff (plain : '+' ∉ digits) :
    (∃ data, HexPairs digits data) ↔
      Even digits.length ∧ ∀ c ∈ digits, (Integer.hexDigit? c).isSome := by
  simp only [← hexPairs?_eq_some_iff]
  fun_induction hexPairs? digits with
  | case1 => simp
  | case2 c => simp
  | case3 a b digits ih =>
    have rest := ih fun member => plain (by simp [member])
    have pair := exists_hexPair_iff (a := a) (b := b) fun same => plain (by simp [same])
    have split : (∃ data, (do
        let byte ← hexPair? a b
        let bytes ← hexPairs? digits
        return byte :: bytes) = some data) ↔
        (∃ byte, hexPair? a b = some byte) ∧ ∃ data, hexPairs? digits = some data := by
      cases hexPair? a b <;> cases hexPairs? digits <;> simp
    have parity : Even (digits.length + 1 + 1) ↔ Even digits.length := by simp [Nat.even_add_one]
    rw [split, pair, rest]
    simp only [List.length_cons, parity, List.forall_mem_cons]
    constructor
    · rintro ⟨⟨first, second⟩, even, others⟩
      exact ⟨even, first, second, others⟩
    · rintro ⟨even, first, second, others⟩
      exact ⟨⟨first, second⟩, even, others⟩

/-! ### Groups of digits -/

theorem mem_groups {bytes : List UInt8} (h : c ∈ Hex.groups bytes) :
    c = ' ' ∨ Archive.Rez.isHex c = true := by
  have digit {b : UInt8} (member : c ∈ Hex.ofByte b) : Archive.Rez.isHex c = true := by
    rw [← Archive.Rez.filter_ofByte] at member
    exact (List.mem_filter.1 member).2
  fun_induction Hex.groups bytes with
  | case1 => cases h
  | case2 a => exact .inr (digit h)
  | case3 a b =>
    rcases List.mem_append.1 h with first | second
    · exact .inr (digit first)
    · exact .inr (digit second)
  | case4 a b rest _ ih =>
    simp only [List.mem_append, List.mem_cons] at h
    rcases h with (first | second) | blank | behind
    · exact .inr (digit first)
    · exact .inr (digit second)
    · exact .inl blank
    · exact ih behind

theorem isHexBlank_of_isHex (h : Archive.Rez.isHex c = true) : isHexBlank c = false := by
  rw [Bool.eq_false_iff]
  intro blank
  simp only [isHexBlank, Bool.or_eq_true, beq_iff_eq] at blank
  rcases blank with (((rfl | rfl) | rfl) | rfl) | rfl <;> cases h

/-- Groups of digits are hexadecimal data that stands for the bytes they show. -/
theorem hexPairs_groups (data : List UInt8) :
    HexPairs (hexDigits (String.ofList (Hex.groups data))) data := by
  have digits : hexDigits (String.ofList (Hex.groups data)) = Hex.plain data := by
    rw [hexDigits, String.toList_ofList, ← Archive.Rez.filter_groups]
    refine List.filter_congr fun c member => ?_
    rcases mem_groups member with rfl | hex
    · rfl
    · rw [isHexBlank_of_isHex hex, hex]
      rfl
  rw [digits, ← hexPairs?_eq_some_iff]
  exact Archive.Rez.hexPairs?_plain

/-! ### Data in a resource -/

section

variable (s : Subject) (format : Format) (order : ByteOrder) (key text : String)

theorem encode_data :
    (Piece.value order .data key (some (.string text))).encode s format =
      match hexPairs? (hexDigits text) with
      | some bytes => .ok bytes
      | none => .error (.rejected .invalidHex key s.resource s.site) := rfl

theorem encode_data_eq_ok_iff {data : List UInt8} :
    (Piece.value order .data key (some (.string text))).encode s format = .ok data ↔
      HexPairs (hexDigits text) data := by
  rw [encode_data, ← hexPairs?_eq_some_iff]
  cases hexPairs? (hexDigits text) <;> simp

theorem encode_data_eq_error (h : ¬ ∃ data, HexPairs (hexDigits text) data) :
    (Piece.value order .data key (some (.string text))).encode s format =
      .error (.rejected .invalidHex key s.resource s.site) := by
  have none : hexPairs? (hexDigits text) = none :=
    Option.eq_none_iff_forall_ne_some.2 fun data found => h ⟨data, hexPairs?_eq_some_iff.1 found⟩
  rw [encode_data, none]

end

end Encoding

/-- A text under a data tag is stored, between the bytes of the other pieces, exactly if it is
hexadecimal, and otherwise rejected as such. Blanks apart, it is hexadecimal if it consists of pairs
of digits, where a plus sign counts as a first digit zero; without plus signs that is an even number
of digits and nothing else. Groups of digits stand for the bytes that they show. -/
theorem Resource.encode_hexadecimal (format : Format) {r : Resource} {before after : List Piece}
    {order : ByteOrder} {key text : String}
    (place : r.pieces = before ++ .value order .data key (some (.string text)) :: after) :
    (∀ bytes, r.encode format = .ok bytes ↔ ∃ front data back,
      Encoding.concat (Piece.encode r.subject format) before = .ok front ∧
        Encoding.HexPairs (Encoding.hexDigits text) data ∧
        Encoding.concat (Piece.encode r.subject format) after = .ok back ∧
        bytes = front ++ (data ++ back)) ∧
    (∀ front, Encoding.concat (Piece.encode r.subject format) before = .ok front →
      (¬ ∃ data, Encoding.HexPairs (Encoding.hexDigits text) data) →
        r.encode format = .error (.rejected .invalidHex key r.display r.site)) ∧
    ('+' ∉ text.toList → ((∃ data, Encoding.HexPairs (Encoding.hexDigits text) data) ↔
      Even (Encoding.hexDigits text).length ∧
        ∀ c ∈ Encoding.hexDigits text, (Integer.hexDigit? c).isSome)) ∧
    ∀ data, text = String.ofList (Hex.groups data) →
      Encoding.HexPairs (Encoding.hexDigits text) data := by
  rw [encode_eq_concat, place]
  refine ⟨fun bytes => ?_, fun front stored invalid => ?_, fun plain => ?_, ?_⟩
  · simp only [Encoding.concat_split_eq_ok_iff, Encoding.encode_data_eq_ok_iff]
  · exact Encoding.concat_split_eq_error stored
      (Encoding.encode_data_eq_error r.subject format order key text invalid)
  · exact Encoding.exists_hexPairs_iff fun member => plain (List.mem_filter.1 member).1
  · rintro data rfl
    exact Encoding.hexPairs_groups data

/-! ### A resource to try it on -/

namespace Sample

/-- A number and hexadecimal data behind it. -/
def chunk : TypeDef where
  name := "Chunk"
  code := "CHNK"
  template :=
    { entries := [{ label := "size", tag := .integer .two true },
        { label := "data", tag := .data }] }

def chunkOf (text : String) : Resource :=
  { reference := { id := 1 }, definition := chunk
    values := { values := .ofList [("data", .string text)] } }

theorem pieces_chunkOf (text : String) :
    (chunkOf text).pieces = [.value .big (.integer .two true) "size" none] ++
      .value .big .data "data" (some (.string text)) :: [] := by
  rw [Resource.pieces, TypeDef.pieces]
  rfl

end Sample

theorem Resource.encode_hexadecimal_chunk :
    (Sample.chunkOf "0AF0 7F").encode .classic = .ok [0, 0, 0x0A, 0xF0, 0x7F] ∧
      (Sample.chunkOf "0G").encode .classic =
        .error (.rejected .invalidHex "data" "#1" ⟨"<resource>", ⟨0, 0⟩⟩) ∧
      Even (Encoding.hexDigits "0AF0 7F").length := by
  have plain := encode_hexadecimal .classic (Sample.pieces_chunkOf "0AF0 7F")
  have wrong := encode_hexadecimal .classic (Sample.pieces_chunkOf "0G")
  have data := plain.2.2.2 [0x0A, 0xF0, 0x7F] (by decide +kernel)
  refine ⟨(plain.1 _).2 ⟨[0, 0], _, [], rfl, data, rfl, rfl⟩, ?_, ?_⟩
  · refine wrong.2.1 [0, 0] rfl fun hexadecimal => ?_
    have digits := ((wrong.2.2.1 (by decide +kernel)).1 hexadecimal).2 'G' (by decide +kernel)
    exact absurd digits (by decide)
  · exact ((plain.2.2.1 (by decide +kernel)).1 ⟨_, data⟩).1

/-- A plus sign is taken for a digit, though it is none. -/
theorem Resource.encode_plus :
    (Sample.chunkOf "+5").encode .classic = .ok [0, 0, 5] ∧ Integer.hexDigit? '+' = none := by
  refine ⟨?_, by decide⟩
  rw [encode_eq_concat, Sample.pieces_chunkOf]
  rfl

end Rsrc
