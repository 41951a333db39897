import Rsrc.Proofs.Reading

/-!
# Reading back references

The compact encoding of a reference is read back up to the name of its type, which it does not
hold, and a type code whose bytes are not four.
-/

namespace Rsrc.Reference

open Decoding (Reads)

/-- A code as its four bytes read. -/
def storedCode (code : String) : String := Text.decodeLossy (codeBytes code)

theorem length_codeBytes (code : String) : (codeBytes code).length = 4 := by
  simp [codeBytes]

theorem codeBytes_eq {code : String} (h : code.utf8ByteSize = 4) :
    codeBytes code = Text.encode code := by
  have length : (Text.encode code).length = 4 := by rw [Text.length_encode, h]
  rw [codeBytes, ← length, List.take_left]

theorem storedCode_eq {code : String} (h : code.utf8ByteSize = 4) : storedCode code = code := by
  rw [storedCode, codeBytes_eq h, Text.decodeLossy_encode]

/-! The parts of `decode` as readers. -/

theorem readContainer_eq : readContainer true = (do
    let length ← Decoding.take "reference" 1
    let raw ← Decoding.take "reference" (ByteOrder.big.readNat length)
    return some (Text.decodeLossy raw) : Decoding (Option String)) := rfl

theorem decode_eq : decode = (do
    let flags ← Decoding.take "reference" 1
    let container ←
      (readContainer (ByteOrder.big.readNat flags % 2 == 1) : Decoding (Option String))
    let typeCode ←
      (readCode (ByteOrder.big.readNat flags / 2 % 2 == 1) : Decoding (Option String))
    let id ← Decoding.take "reference" 8
    return { id := ByteOrder.big.read true id, typeCode, container } : Decoding Reference) := rfl

theorem reads_container {container : Option String} {bytes : List UInt8}
    (h : containerBytes container = .ok bytes) :
    Reads (readContainer container.isSome) bytes container := by
  cases container with
  | none =>
    cases h
    exact Reads.pure none
  | some name =>
    simp only [containerBytes] at h
    split at h
    · rename_i short
      cases h
      have size : (UInt8.ofNat (Text.encode name).length).toNat = (Text.encode name).length :=
        Text.toNat_ofNat (by omega)
      have text := (Reads.take (n := (Text.encode name).length) rfl "reference").map
        fun raw => some (Text.decodeLossy raw)
      rw [Text.decodeLossy_encode] at text
      rw [Option.isSome_some, readContainer_eq, ← List.singleton_append]
      refine (Reads.takeByte "reference" _).bind ?_
      rw [ByteOrder.readNat_singleton, size]
      exact text
    · cases h

theorem reads_code (code : Option String) :
    Reads (readCode code.isSome) (code.elim [] codeBytes) (code.map storedCode) := by
  cases code with
  | none => exact Reads.pure none
  | some code =>
    exact (Reads.take (length_codeBytes code) "reference").map fun raw =>
      some (Text.decodeLossy raw)

/-- The flags say which parts are there. -/
theorem flags_parts (r : Reference) :
    (r.flags.toNat % 2 == 1) = r.container.isSome ∧
      (r.flags.toNat / 2 % 2 == 1) = r.typeCode.isSome := by
  simp only [flags]
  cases r.container.isSome <;> cases r.typeCode.isSome <;> exact ⟨by decide, by decide⟩

theorem read_write_id (id : Int64) : ByteOrder.big.read true (ByteOrder.big.write 8 id) = id := by
  have lower := id.le_toInt
  have upper := id.toInt_lt
  exact ByteOrder.read_write_signed (by omega) _ (by omega) (by omega)

theorem reads_decode {r : Reference} {bytes : List UInt8} (h : r.encode = .ok bytes) :
    Reads decode bytes
      { id := r.id, container := r.container, typeCode := r.typeCode.map storedCode } := by
  obtain ⟨inner, container, h⟩ := exists_of_bind_eq_ok h
  cases h
  obtain ⟨hasContainer, hasCode⟩ := flags_parts r
  have last := (Reads.take (ByteOrder.length_write .big 8 r.id) "reference").map fun bytes =>
    ({ id := ByteOrder.big.read true bytes, container := r.container
       typeCode := r.typeCode.map storedCode } : Reference)
  rw [read_write_id] at last
  rw [decode_eq, ← List.singleton_append, List.append_assoc]
  refine (Reads.takeByte "reference" _).bind ?_
  rw [ByteOrder.readNat_singleton, hasContainer, hasCode]
  exact (reads_container container).bind ((reads_code r.typeCode).bind last)

end Rsrc.Reference
