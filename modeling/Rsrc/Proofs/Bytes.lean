import Mathlib.Data.Nat.ModEq
import Mathlib.Tactic.Ring
import Rsrc.Bytes

/-!
# Reading back written numbers

What `ByteOrder.write` stores, `ByteOrder.readNat` and `ByteOrder.read` give back, up to the
width. The last section is about byte arrays as lists.
-/

namespace Rsrc

namespace ByteOrder

variable {value : Int64} {width : Nat}

@[simp] theorem length_lowBytes (width n : Nat) : (lowBytes width n).length = width := by
  induction width generalizing n with
  | zero => rfl
  | succ width ih => simp [lowBytes, ih]

theorem ofLowBytes_lowBytes (width n : Nat) :
    ofLowBytes (lowBytes width n) = n % 256 ^ width := by
  induction width generalizing n with
  | zero => simp [lowBytes, ofLowBytes, Nat.mod_one]
  | succ width ih =>
    have low : (UInt8.ofNat n).toNat = n % 256 := by simp
    rw [lowBytes, ofLowBytes, ih, low, Nat.pow_succ, Nat.mul_comm (256 ^ width) 256,
      Nat.mod_mul]

variable (order : ByteOrder)

@[simp] theorem length_arrange (bytes : List UInt8) : (order.arrange bytes).length = bytes.length := by
  cases order <;> simp [arrange]

@[simp] theorem arrange_arrange (bytes : List UInt8) : order.arrange (order.arrange bytes) = bytes := by
  cases order <;> simp [arrange]

@[simp] theorem length_write (width : Nat) (value : Int64) :
    (order.write width value).length = width := by
  simp [write]

/-- A written word reads back as its low bytes. -/
theorem readNat_write :
    order.readNat (order.write width value) = value.toUInt64.toNat % 256 ^ width := by
  rw [readNat, write, arrange_arrange, ofLowBytes_lowBytes]

theorem readNat_singleton (b : UInt8) : order.readNat [b] = b.toNat := by
  cases order <;> simp [readNat, arrange, ofLowBytes]

/-! ### Words -/

/-- The bits of a word are its value modulo `2 ^ 64`. -/
theorem toNat_toUInt64 : (value.toUInt64.toNat : Int) = value.toInt % 2 ^ 64 := by
  have bound := value.toBitVec.isLt
  have residue := Int.bmod_emod (x := (value.toBitVec.toNat : Int)) (m := 2 ^ 64)
  rw [← BitVec.toInt_eq_toNat_bmod, Int64.toInt_toBitVec, Int64.toNat_toBitVec] at residue
  rw [Int64.toNat_toBitVec] at bound
  push_cast at residue
  omega

/-- Up to eight bytes hold the value modulo their number of states. -/
theorem readNat_write_eq_emod {width : Nat} (small : width ≤ 8) (order : ByteOrder)
    (value : Int64) :
    (order.readNat (order.write width value) : Int) = value.toInt % 256 ^ width := by
  have divides : (256 : Int) ^ width ∣ 2 ^ 64 :=
    pow_dvd_pow (256 : Int) small
  rw [readNat_write]
  push_cast
  rw [toNat_toUInt64, Int.emod_emod_of_dvd _ divides]

theorem readNat_write_ofNat {width n : Nat} (small : width ≤ 8) (fits : n < 256 ^ width)
    (order : ByteOrder) : order.readNat (order.write width (Int64.ofNat n)) = n := by
  have divides : 256 ^ width ∣ 2 ^ 64 := pow_dvd_pow 256 small
  rw [readNat_write, Int64.toUInt64_ofNat', UInt64.toNat_ofNat', Nat.mod_mod_of_dvd _ divides,
    Nat.mod_eq_of_lt fits]

/-- A value in the range of the width, in two's complement, is read back. -/
theorem read_write_signed (small : width ≤ 8) (order : ByteOrder)
    (lower : -(256 ^ width : Int) ≤ 2 * value.toInt) (upper : 2 * value.toInt < 256 ^ width) :
    order.read true (order.write width value) = value := by
  have range : Int.bmod value.toInt (256 ^ width) = value.toInt := by
    apply Int.bmod_eq_of_le_mul_two
    · push_cast
      omega
    · push_cast
      omega
  have residue : Int.bmod (value.toInt % 256 ^ width) (256 ^ width) = value.toInt := by
    have h := Int.emod_bmod (x := value.toInt) (n := 256 ^ width)
    push_cast at h
    rw [h, range]
  simp only [read, if_true, length_write, Nat.pow_eq]
  rw [readNat_write_eq_emod small, residue, Int64.ofInt_toInt]

theorem read_write_unsigned (small : width ≤ 8) (order : ByteOrder) :
    order.read false (order.write width value) = Int64.ofInt (value.toInt % 256 ^ width) := by
  rw [← readNat_write_eq_emod small order value, Int64.ofInt_eq_ofNat]
  rfl

end ByteOrder

/-! ### Splitting -/

theorem splitBytes?_append (front rest : List UInt8) :
    splitBytes? front.length (front ++ rest) = some (front, rest) := by
  induction front with
  | nil => rfl
  | cons b front ih => simp [splitBytes?, ih]

theorem splitBytes?_of_lt {n : Nat} {bytes : List UInt8} (h : bytes.length < n) :
    splitBytes? n bytes = none := by
  induction n generalizing bytes with
  | zero => omega
  | succ n ih =>
    cases bytes with
    | nil => rfl
    | cons b bytes =>
      have shorter : bytes.length < n := by simpa using h
      simp [splitBytes?, ih shorter]

/-! ### Byte arrays as lists -/

variable (bytes : ByteArray)

theorem toList_loop_eq (i : Nat) (front : List UInt8) :
    ByteArray.toList.loop bytes i front = front.reverse ++ bytes.data.toList.drop i := by
  fun_induction ByteArray.toList.loop bytes i front with
  | case1 i front inside ih =>
    have bound : i < bytes.data.toList.length := by simpa using inside
    rw [ih, List.drop_eq_getElem_cons bound]
    simp [ByteArray.get!, inside]
  | case2 i front outside =>
    have beyond : bytes.data.toList.length ≤ i := by simpa using outside
    simp [List.drop_eq_nil_of_le beyond]

theorem toList_eq_data : bytes.toList = bytes.data.toList := by
  simp [ByteArray.toList, toList_loop_eq]

@[simp] theorem toList_empty : ByteArray.empty.toList = [] := by simp [toList_eq_data]

@[simp] theorem toList_append (a b : ByteArray) : (a ++ b).toList = a.toList ++ b.toList := by
  simp [toList_eq_data]

@[simp] theorem toList_toByteArray (bytes : List UInt8) : bytes.toByteArray.toList = bytes := by
  simp [toList_eq_data]

@[simp] theorem length_toList : bytes.toList.length = bytes.size := by
  simp [toList_eq_data]

theorem toByteArray_toList : bytes.toList.toByteArray = bytes := by
  apply ByteArray.ext
  simp [toList_eq_data]

end Rsrc
