import Rsrc.Proofs.Bytes
import Rsrc.Text.Utf8

/-!
# Reading back encoded text

Reading a byte sequence as text undoes `Text.encode`. The proof goes character by
character: `decodeParts` takes exactly the bytes of one character off the front.
-/

namespace Rsrc.Text

variable {n v : Nat} (text : String) {rest : List UInt8}

theorem encode_eq : encode text = text.toList.flatMap String.utf8EncodeChar := by
  rw [encode, String.toUTF8_eq_toByteArray, ← String.utf8Encode_toList, List.utf8Encode,
    toList_toByteArray]

theorem length_encode : (encode text).length = text.utf8ByteSize := by
  rw [encode, length_toList, String.toUTF8_eq_toByteArray, String.size_toByteArray]

theorem toNat_ofNat (h : n < 256) : (UInt8.ofNat n).toNat = n := by
  simp [Nat.mod_eq_of_lt h]

/-! ### One character -/

theorem decodeParts_ascii (h : n ≤ 0x7F) (rest : List UInt8) :
    decodeParts (UInt8.ofNat n :: rest) = some (Char.ofNat n) :: decodeParts rest := by
  have small : UInt8.ofNat n < 0x80 := by
    rw [UInt8.lt_iff_toNat_lt, toNat_ofNat (by omega)]
    exact Nat.lt_of_le_of_lt h (by decide)
  rw [decodeParts, if_pos small, toNat_ofNat (by omega)]

theorem readTails_cons {tails code : Nat} {low high : UInt8} (small : n < 256) (lower : low.toNat ≤ n)
    (upper : n ≤ high.toNat) :
    readTails (tails + 1) low high code (UInt8.ofNat n :: rest) =
      readTails tails 0x80 0xBF (code * 64 + n % 64) rest := by
  have inside : (low ≤ UInt8.ofNat n && UInt8.ofNat n ≤ high) = true := by
    simp only [Bool.and_eq_true, decide_eq_true_eq, UInt8.le_iff_toNat_le, toNat_ofNat small]
    exact ⟨lower, upper⟩
  rw [readTails, if_pos inside, toNat_ofNat small]

theorem readTails_zero (low high : UInt8) (code : Nat) :
    readTails 0 low high code rest = (some code, rest) := rfl

/-- A first byte with its continuation bytes is read in one step. -/
theorem decodeParts_lead {tails : Nat} {low high : UInt8} {rest after : List UInt8} {code : Nat}
    (first : 0x80 ≤ n) (small : n < 256) (lead : lead? (UInt8.ofNat n) = some (tails, low, high))
    (read : readTails tails low high (leadBits tails (UInt8.ofNat n)) rest = (some code, after)) :
    decodeParts (UInt8.ofNat n :: rest) = some (Char.ofNat code) :: decodeParts after := by
  have large : ¬ UInt8.ofNat n < 0x80 := by
    rw [UInt8.lt_iff_toNat_lt, toNat_ofNat small]
    exact Nat.not_lt.2 first
  rw [decodeParts, if_neg large, lead]
  simp only [read, Option.map_some]

theorem lead?_ofNat (small : n < 256) :
    lead? (UInt8.ofNat n) =
      if 0xC2 ≤ n ∧ n ≤ 0xDF then some (1, 0x80, 0xBF)
      else if n = 0xE0 then some (2, 0xA0, 0xBF)
      else if n = 0xED then some (2, 0x80, 0x9F)
      else if 0xE1 ≤ n ∧ n ≤ 0xEF then some (2, 0x80, 0xBF)
      else if n = 0xF0 then some (3, 0x90, 0xBF)
      else if n = 0xF4 then some (3, 0x80, 0x8F)
      else if 0xF1 ≤ n ∧ n ≤ 0xF3 then some (3, 0x80, 0xBF)
      else none := by
  simp only [lead?, Bool.and_eq_true, decide_eq_true_eq, beq_iff_eq, UInt8.le_iff_toNat_le,
    ← UInt8.toNat_inj, toNat_ofNat small]
  rfl

/-! The first continuation byte of a longer sequence has a range of its own behind four of the
first bytes: it rules out overlong forms, surrogates and what lies beyond the last character. -/

theorem decodeParts_two (lower : 0x7F < v) (upper : v ≤ 0x7FF) (rest : List UInt8) :
    decodeParts (UInt8.ofNat (v / 64 % 32 + 0xC0) :: UInt8.ofNat (v % 64 + 0x80) :: rest) =
      some (Char.ofNat v) :: decodeParts rest := by
  have small : v / 64 % 32 + 0xC0 < 256 := by omega
  have lead : lead? (UInt8.ofNat (v / 64 % 32 + 0xC0)) = some (1, 0x80, 0xBF) := by
    rw [lead?_ofNat small, if_pos (by omega)]
  refine decodeParts_lead (by omega) small lead ?_
  rw [readTails_cons (by omega) (by simp) (by simp; omega), readTails_zero, leadBits,
    toNat_ofNat small]
  congr 2
  omega

theorem lead?_three (lower : 0x7FF < v) (upper : v ≤ 0xFFFF) (valid : v < 0xD800 ∨ 0xDFFF < v) :
    ∃ low high, lead? (UInt8.ofNat (v / 4096 % 16 + 0xE0)) = some (2, low, high) ∧
      low.toNat ≤ v / 64 % 64 + 0x80 ∧ v / 64 % 64 + 0x80 ≤ high.toNat := by
  rw [lead?_ofNat (by omega), if_neg (by omega)]
  by_cases first : v / 4096 % 16 + 0xE0 = 0xE0
  · exact ⟨0xA0, 0xBF, by rw [if_pos first], by simp; omega, by simp; omega⟩
  rw [if_neg first]
  by_cases surrogate : v / 4096 % 16 + 0xE0 = 0xED
  · exact ⟨0x80, 0x9F, by rw [if_pos surrogate], by simp, by simp; omega⟩
  rw [if_neg surrogate]
  exact ⟨0x80, 0xBF, by rw [if_pos (by omega)], by simp, by simp; omega⟩

theorem decodeParts_three (lower : 0x7FF < v) (upper : v ≤ 0xFFFF) (valid : v < 0xD800 ∨ 0xDFFF < v)
    (rest : List UInt8) :
    decodeParts (UInt8.ofNat (v / 4096 % 16 + 0xE0) :: UInt8.ofNat (v / 64 % 64 + 0x80) ::
      UInt8.ofNat (v % 64 + 0x80) :: rest) = some (Char.ofNat v) :: decodeParts rest := by
  have small : v / 4096 % 16 + 0xE0 < 256 := by omega
  obtain ⟨low, high, lead, above, below⟩ := lead?_three lower upper valid
  refine decodeParts_lead (by omega) small lead ?_
  rw [readTails_cons (by omega) above below,
    readTails_cons (by omega) (by simp) (by simp; omega), readTails_zero, leadBits,
    toNat_ofNat small]
  congr 2
  omega

theorem lead?_four (lower : 0xFFFF < v) (upper : v < 0x110000) :
    ∃ low high, lead? (UInt8.ofNat (v / 262144 % 8 + 0xF0)) = some (3, low, high) ∧
      low.toNat ≤ v / 4096 % 64 + 0x80 ∧ v / 4096 % 64 + 0x80 ≤ high.toNat := by
  rw [lead?_ofNat (by omega), if_neg (by omega), if_neg (by omega), if_neg (by omega),
    if_neg (by omega)]
  by_cases first : v / 262144 % 8 + 0xF0 = 0xF0
  · exact ⟨0x90, 0xBF, by rw [if_pos first], by simp; omega, by simp; omega⟩
  rw [if_neg first]
  by_cases last : v / 262144 % 8 + 0xF0 = 0xF4
  · exact ⟨0x80, 0x8F, by rw [if_pos last], by simp, by simp; omega⟩
  rw [if_neg last]
  exact ⟨0x80, 0xBF, by rw [if_pos (by omega)], by simp, by simp; omega⟩

theorem decodeParts_four (lower : 0xFFFF < v) (upper : v < 0x110000) (rest : List UInt8) :
    decodeParts (UInt8.ofNat (v / 262144 % 8 + 0xF0) :: UInt8.ofNat (v / 4096 % 64 + 0x80) ::
      UInt8.ofNat (v / 64 % 64 + 0x80) :: UInt8.ofNat (v % 64 + 0x80) :: rest) =
      some (Char.ofNat v) :: decodeParts rest := by
  have small : v / 262144 % 8 + 0xF0 < 256 := by omega
  obtain ⟨low, high, lead, above, below⟩ := lead?_four lower upper
  have bits : leadBits 3 (UInt8.ofNat (v / 262144 % 8 + 0xF0)) = (v / 262144 % 8 + 0xF0) % 8 := by
    simp only [leadBits, toNat_ofNat small]
  refine decodeParts_lead (by omega) small lead ?_
  rw [bits, readTails_cons (by omega) above below,
    readTails_cons (by omega) (by simp) (by simp; omega),
    readTails_cons (by omega) (by simp) (by simp; omega), readTails_zero]
  congr 2
  omega

theorem decodeParts_encodeChar (c : Char) :
    decodeParts (String.utf8EncodeChar c ++ rest) = some c :: decodeParts rest := by
  have same : Char.ofNat c.val.toNat = c := Char.ofNat_toNat c
  have valid : c.val.toNat < 0xD800 ∨ 0xDFFF < c.val.toNat ∧ c.val.toNat < 0x110000 := c.valid
  rw [String.utf8EncodeChar]
  split
  · rename_i one
    exact (decodeParts_ascii one rest).trans (by rw [same])
  · split
    · exact (decodeParts_two (by omega) (by omega) rest).trans (by rw [same])
    · split
      · exact (decodeParts_three (by omega) (by omega) (by omega) rest).trans (by rw [same])
      · exact (decodeParts_four (by omega) (by omega) rest).trans (by rw [same])

/-! ### Whole texts -/

theorem decodeParts_encode : decodeParts (encode text) = text.toList.map some := by
  rw [encode_eq]
  induction text.toList with
  | nil => simp [decodeParts]
  | cons c cs ih => rw [List.flatMap_cons, decodeParts_encodeChar, ih, List.map_cons]

@[simp] theorem decodeLossy_encode : decodeLossy (encode text) = text := by
  simp [decodeLossy, decodeParts_encode, Function.comp_def]

end Rsrc.Text
