import Rsrc.Proofs.Reference

/-!
# The compact encoding of references

A reference can be encoded unless the name of its container is too long. Its bytes say where they
end, so that nothing short of them is a reference, and they determine everything they hold: the id,
the container and a type code of four bytes.
-/

namespace Rsrc

open Decoding (Reads)

namespace Decoding

variable {α β : Type}

/-- All that can go wrong is that the bytes end too early, and the error names `key`. -/
def RunsShort (key : String) (x : Decoding α) : Prop :=
  ∀ bytes e, x.run bytes = .error e → e = .truncated key

namespace RunsShort

theorem pure (key : String) (a : α) : RunsShort key (Pure.pure a) := by
  intro bytes e h
  cases h

theorem take (key : String) (n : Nat) : RunsShort key (Decoding.take key n) := by
  intro bytes e h
  simp only [StateT.run, Decoding.take] at h
  split at h
  · cases h
  · cases h
    rfl

theorem bind {key : String} {x : Decoding α} {f : α → Decoding β} (first : RunsShort key x)
    (second : ∀ a, RunsShort key (f a)) : RunsShort key (x >>= f) := by
  intro bytes e h
  cases ran : x.run bytes with
  | error e' =>
    rw [run_bind_error ran] at h
    cases h
    exact first bytes _ ran
  | ok result =>
    rw [run_bind_ok ran] at h
    exact second result.1 result.2 e h

end RunsShort

end Decoding

namespace Reference

open Decoding (RunsShort)

theorem runsShort_readContainer (present : Bool) :
    RunsShort "reference" (readContainer present) := by
  cases present with
  | false => exact RunsShort.pure "reference" none
  | true =>
    rw [readContainer_eq]
    exact (RunsShort.take "reference" 1).bind fun length =>
      (RunsShort.take "reference" _).bind fun raw => RunsShort.pure "reference" _

theorem readCode_eq : readCode true = (do
    let raw ← Decoding.take "reference" 4
    return some (Text.decodeLossy raw) : Decoding (Option String)) := rfl

theorem runsShort_readCode (present : Bool) : RunsShort "reference" (readCode present) := by
  cases present with
  | false => exact RunsShort.pure "reference" none
  | true =>
    rw [readCode_eq]
    exact (RunsShort.take "reference" 4).bind fun raw => RunsShort.pure "reference" _

theorem runsShort_decode : RunsShort "reference" decode := by
  rw [decode_eq]
  refine (RunsShort.take "reference" 1).bind fun flags => ?_
  refine (runsShort_readContainer _).bind fun container => ?_
  refine (runsShort_readCode _).bind fun typeCode => ?_
  exact (RunsShort.take "reference" 8).bind fun id => RunsShort.pure "reference" _

/-- Only a container can keep a reference from being encoded. -/
theorem encode_eq_error_iff (r : Reference) (e : EncodingError) :
    r.encode = .error e ↔
      ∃ name, r.container = some name ∧ 255 < name.utf8ByteSize ∧ e = .containerTooLong name := by
  obtain ⟨id, typeName, typeCode, container⟩ := r
  cases container with
  | none =>
    constructor
    · intro h
      cases h
    · rintro ⟨name, none, -⟩
      cases none
  | some name =>
    simp only [encode, containerBytes, Text.length_encode, Option.some.injEq, exists_eq_left']
    by_cases short : name.utf8ByteSize ≤ 255
    · rw [if_pos short]
      constructor
      · intro h
        cases h
      · rintro ⟨long, -⟩
        omega
    · rw [if_neg short]
      constructor
      · intro h
        cases h
        exact ⟨by omega, rfl⟩
      · rintro ⟨-, rfl⟩
        rfl

/-- A type code, if there is one, has four bytes. -/
def FullCode (r : Reference) : Prop := ∀ code, r.typeCode = some code → code.utf8ByteSize = 4

theorem FullCode.stored {r : Reference} (h : r.FullCode) :
    r.typeCode.map storedCode = r.typeCode := by
  cases present : r.typeCode with
  | none => rfl
  | some code => rw [Option.map_some, storedCode_eq (h code present)]

/-- The compact encoding is exact and delimits itself. It fails for containers of more than 255
bytes only. Whatever follows it, it is read back up to the name of the type, which it does not hold,
and exactly what follows is left; cut short anywhere, it cannot be read. References with the same
encoding have the same id, container and, as far as codes have four bytes, type code. -/
theorem encode_exact (r : Reference) :
    (∀ e, r.encode = .error e ↔
      ∃ name, r.container = some name ∧ 255 < name.utf8ByteSize ∧ e = .containerTooLong name) ∧
    ∀ bytes, r.encode = .ok bytes →
      (r.FullCode → ∀ rest, decode (bytes ++ rest) = .ok ({ r with typeName := none }, rest)) ∧
      (∀ front back, front ++ back = bytes → back ≠ [] →
        decode front = .error (.truncated "reference")) ∧
      ∀ r' : Reference, r'.encode = .ok bytes →
        r'.id = r.id ∧ r'.container = r.container ∧
          (r.FullCode → r'.FullCode → r'.typeCode = r.typeCode) := by
  refine ⟨encode_eq_error_iff r, fun bytes h => ⟨?_, ?_, ?_⟩⟩
  · intro full rest
    have read := (reads_decode h).all rest
    rwa [full.stored] at read
  · intro front back split nonempty
    obtain ⟨key, short⟩ := (reads_decode h).cut front back split nonempty
    rw [← runsShort_decode front _ short]
    exact short
  · -- Both are what is read from the same bytes.
    intro r' h'
    have same := ((reads_decode h').all []).symm.trans ((reads_decode h).all [])
    simp only [Except.ok.injEq, Prod.mk.injEq, Reference.mk.injEq] at same
    obtain ⟨⟨id, -, code, container⟩, -⟩ := same
    refine ⟨id, container, fun full full' => ?_⟩
    rwa [full.stored, full'.stored] at code

/-- A reference with all parts, whose container is a letter of two bytes. -/
def distant : Reference :=
  { id := autoId, typeName := some "Item", typeCode := some "ITEM", container := some "é" }

/-- The bytes of `distant`. -/
def distantBytes : List UInt8 := [3, 2, 0xC3, 0xA9, 73, 84, 69, 77, 0x80, 0, 0, 0, 0, 0, 0, 0]

theorem encode_distant (typeName : Option String) :
    { distant with typeName }.encode = .ok distantBytes := by
  simp only [distant, encode, containerBytes, codeBytes, Text.encode_eq, Option.elim_some]
  rfl

theorem fullCode_distant (typeName : Option String) : { distant with typeName }.FullCode := by
  intro code present
  cases present
  rfl

theorem encode_exact_distant :
    distant.encode = .ok distantBytes ∧
      decode (distantBytes ++ [2, 1]) = .ok ({ distant with typeName := none }, [2, 1]) ∧
      decode [3, 2, 0xC3] = .error (.truncated "reference") ∧
      { distant with typeName := none }.typeCode = distant.typeCode := by
  obtain ⟨whole, cut, same⟩ := (encode_exact distant).2 distantBytes (encode_distant (some "Item"))
  refine ⟨encode_distant (some "Item"), whole (fullCode_distant (some "Item")) [2, 1], ?_, ?_⟩
  · exact cut [3, 2, 0xC3] [0xA9, 73, 84, 69, 77, 0x80, 0, 0, 0, 0, 0, 0, 0] rfl (by simp)
  · exact (same _ (encode_distant none)).2.2 (fullCode_distant (some "Item"))
      (fullCode_distant none)

end Reference

end Rsrc
