import Rsrc.Proofs.Archive.Classic

/-!
# The numbers in a classic archive

A number is written by its low bytes, whatever its size, so each one relies on a check that it fits.
`Classic.numerals` lists the numbers of the classic layout with what they stand for. All of them fit
if an archive can be written, and are read back; the offset of the map (`Classic.mapOffsets`) is
the only one whose size is not checked (`toBytes_numerals`).
-/

namespace Rsrc.Archive

/-- A number of a layout: where it stands, in how many bytes, and the quantity that it stands for. -/
structure Numeral where
  position : Nat
  width : Nat
  value : Int
  /-- The bytes are in two's complement. -/
  signed : Bool := false

namespace Numeral

variable {position width : Nat} {front back : List UInt8}

/-- There are enough bytes for the quantity. -/
def Fits (n : Numeral) : Prop :=
  if n.signed then -(256 ^ n.width : Int) ≤ 2 * n.value ∧ 2 * n.value < 256 ^ n.width
  else 0 ≤ n.value ∧ n.value < 256 ^ n.width

/-- What is read at the position. -/
def readIn (n : Numeral) (bytes : List UInt8) : Int :=
  (ByteOrder.big.read n.signed (region bytes n.position n.width)).toInt

/-- The quantity is read back. -/
def StoredIn (n : Numeral) (bytes : List UInt8) : Prop :=
  n.position + n.width ≤ bytes.length ∧ n.readIn bytes = n.value

/-- The low bytes of the quantity. -/
def bytes (n : Numeral) : List UInt8 := ByteOrder.big.write n.width (Int64.ofInt n.value)

/-- The low bytes of the quantity are at the position. -/
def WrittenIn (n : Numeral) (bytes : List UInt8) : Prop :=
  ∃ front back, bytes = front ++ (n.bytes ++ back) ∧ n.position = front.length

/-- The number has at most four bytes, and they are enough for it. -/
def Narrow (n : Numeral) : Prop := n.width ≤ 4 ∧ n.Fits

theorem narrow_nat {value : Nat} (short : width ≤ 4) (small : value < 256 ^ width) :
    ({ position, width, value } : Numeral).Narrow := by
  refine ⟨short, ?_⟩
  rw [Numeral.Fits, if_neg (by simp)]
  have cast : (value : Int) < 256 ^ width := by exact_mod_cast small
  exact ⟨Int.natCast_nonneg value, cast⟩

theorem narrow_int {value : Int} (short : width ≤ 4) (lower : -(256 ^ width : Int) ≤ 2 * value)
    (upper : 2 * value < 256 ^ width) :
    ({ position, width, value, signed := true } : Numeral).Narrow := by
  refine ⟨short, ?_⟩
  rw [Numeral.Fits, if_pos rfl]
  exact ⟨lower, upper⟩

variable {n : Numeral} {bytes : List UInt8}

theorem WrittenIn.length_le (h : n.WrittenIn bytes) : n.position + n.width ≤ bytes.length := by
  obtain ⟨front, rest, rfl, start⟩ := h
  rw [List.length_append, List.length_append, Numeral.bytes, ByteOrder.length_write, start]
  omega

theorem WrittenIn.readIn_eq (h : n.WrittenIn bytes) :
    n.readIn bytes = (ByteOrder.big.read n.signed n.bytes).toInt := by
  obtain ⟨front, rest, rfl, start⟩ := h
  have size : n.width = n.bytes.length := (ByteOrder.length_write ..).symm
  rw [readIn, region_eq start size]

theorem states_le (narrow : width ≤ 4) :
    (0 : Int) < 256 ^ width ∧ (256 : Int) ^ width ≤ 2 ^ 32 := by
  have states : 256 ^ width ≤ 256 ^ 4 := Nat.pow_le_pow_right (by decide) narrow
  exact ⟨Int.pow_pos (by decide), by exact_mod_cast states⟩

/-- An unsigned number is read back up to the number of states of its bytes. -/
theorem WrittenIn.readIn_of_unsigned (h : n.WrittenIn bytes) (unsigned : n.signed = false)
    (narrow : n.width ≤ 4) (lower : 0 ≤ n.value) (upper : n.value < 2 ^ 63) :
    n.readIn bytes = n.value % 256 ^ n.width := by
  obtain ⟨positive, states⟩ := states_le narrow
  have low := Int.emod_nonneg n.value positive.ne'
  have high := Int.emod_lt_of_pos n.value positive
  rw [h.readIn_eq, Numeral.bytes, unsigned, ByteOrder.read_write_unsigned (by omega),
    Int64.toInt_ofInt_of_le (by omega) (by omega), Int64.toInt_ofInt_of_le (by omega) (by omega)]

theorem WrittenIn.storedIn (h : n.WrittenIn bytes) (narrow : n.Narrow) : n.StoredIn bytes := by
  obtain ⟨narrow, fits⟩ := narrow
  refine ⟨h.length_le, ?_⟩
  obtain ⟨-, states⟩ := states_le narrow
  cases signed : n.signed with
  | true =>
    rw [Fits, if_pos signed] at fits
    have same : (Int64.ofInt n.value).toInt = n.value :=
      Int64.toInt_ofInt_of_le (by omega) (by omega)
    rw [h.readIn_eq, Numeral.bytes, signed, ByteOrder.read_write_signed (by omega) .big
      (by rw [same]; exact fits.1) (by rw [same]; exact fits.2), same]
  | false =>
    rw [Fits, if_neg (by simp [signed])] at fits
    rw [h.readIn_of_unsigned signed narrow fits.1 (by omega), Int.emod_eq_of_lt fits.1 fits.2]

theorem writtenIn_number (start : position = front.length) (width value : Nat) :
    ({ position, width, value } : Numeral).WrittenIn
      (front ++ ((number width value).toList ++ back)) := by
  refine ⟨front, back, ?_, start⟩
  rw [toList_number, ← Int64.ofInt_eq_ofNat]
  rfl

theorem writtenIn_id (start : position = front.length) (id : Int64) :
    ({ position, width, value := id.toInt, signed := true } : Numeral).WrittenIn
      (front ++ ((idBytes width id).toList ++ back)) := by
  refine ⟨front, back, ?_, start⟩
  rw [toList_idBytes, Numeral.bytes, Int64.ofInt_toInt]

end Numeral

namespace Classic

open Numeral

variable {front : List UInt8} {position offset : Nat} {es : List ArchiveEntry} {named : List Nat}
  {rs : List (ArchiveEntry × Nat × Nat)} {gs : List (List ArchiveEntry)}

/-! ### The numbers of the layout -/

/-- Where the map begins, behind the data. -/
def mapStart (es : List ArchiveEntry) : Nat := headerSize + (dataSection 4 es).size

def mapSize (es : List ArchiveEntry) : Nat := nameListOffset es + (nameList es).size

/-- The header at a position, but for the offset of the map. -/
def headerNumerals (position : Nat) (es : List ArchiveEntry) : List Numeral :=
  [{ position, width := 4, value := headerSize },
    { position := position + 8, width := 4, value := (dataSection 4 es).size },
    { position := position + 12, width := 4, value := mapSize es }]

/-- The offset of the map, in the header and in its copy. -/
def mapOffsets (es : List ArchiveEntry) : List Numeral :=
  [{ position := 4, width := 4, value := mapStart es },
    { position := mapStart es + 4, width := 4, value := mapStart es }]

/-- The offsets of the lists in the map, and the number of types less one. -/
def listNumerals (es : List ArchiveEntry) : List Numeral :=
  [{ position := mapStart es + 24, width := 2, value := mapHeaderSize },
    { position := mapStart es + 26, width := 2, value := nameListOffset es },
    { position := mapStart es + mapHeaderSize, width := 2, value := (typeGroups es).length - 1,
      signed := true }]

/-- For each type, the number of its resources less one and the offset of its first reference. -/
def typeNumerals : (position offset : Nat) → List (List ArchiveEntry) → List Numeral
  | _, _, [] => []
  | position, offset, g :: gs =>
    { position := position + 4, width := 2, value := g.length - 1, signed := true } ::
      { position := position + 6, width := 2, value := offset } ::
      typeNumerals (position + 8) (offset + 12 * g.length) gs

/-- For each resource, its id and the offsets of its name and its data. -/
def referenceNumerals : (position : Nat) → List (ArchiveEntry × Nat × Nat) → List Numeral
  | _, [] => []
  | position, r :: rs =>
    { position, width := 2, value := r.1.id.toInt, signed := true } ::
      { position := position + 2, width := 2, value := r.2.1 } ::
      { position := position + 5, width := 3, value := r.2.2 } ::
      referenceNumerals (position + 12) rs

/-- Where the name of each entry is, if the next name is at `offset`. -/
def namePlaces : (offset : Nat) → List ArchiveEntry → List Nat
  | _, [] => []
  | offset, e :: es =>
    if e.name.isEmpty then noName :: namePlaces offset es
    else offset :: namePlaces (offset + (1 + e.name.utf8ByteSize)) es

/-- The length of the data of each resource, where its data is. -/
def dataNumerals (es : List ArchiveEntry) : List Numeral :=
  (es.zip (dataOffsets 4 0 es)).map fun p =>
    { position := headerSize + p.2, width := 4, value := p.1.data.size }

/-- The length of each name, where the name is. -/
def nameNumerals (es : List ArchiveEntry) : List Numeral :=
  ((es.zip (namePlaces 0 es)).filter fun p => !p.1.name.isEmpty).map fun p =>
    { position := mapStart es + nameListOffset es + p.2, width := 1, value := p.1.name.utf8ByteSize }

/-- All numbers but the offset of the map. -/
def numerals (es : List ArchiveEntry) : List Numeral :=
  headerNumerals 0 es ++ headerNumerals (mapStart es) es ++ listNumerals es ++
    typeNumerals (mapStart es + mapHeaderSize + 2) (typeListSize es) (typeGroups es) ++
    referenceNumerals (mapStart es + mapHeaderSize + typeListSize es)
      (es.zip ((namePlaces 0 es).zip (dataOffsets 4 0 es))) ++
    dataNumerals es ++ nameNumerals es

/-! ### Where they are written -/

theorem header_written (es : List ArchiveEntry) (start : position = front.length)
    (back : List UInt8) : ∀ n ∈ { position := position + 4, width := 4, value := mapStart es } ::
        headerNumerals position es,
      n.WrittenIn (front ++ ((header (dataSection 4 es).size (mapSize es)).toList ++ back)) := by
  subst start
  intro n member
  simp only [header, toList_append, List.append_assoc]
  simp only [headerNumerals, List.mem_cons, List.not_mem_nil, or_false] at member
  rcases member with rfl | rfl | rfl | rfl
  · rw [← List.append_assoc]
    exact writtenIn_number (by simp) 4 (mapStart es)
  · exact writtenIn_number rfl 4 headerSize
  · rw [← List.append_assoc, ← List.append_assoc]
    exact writtenIn_number (by simp) 4 (dataSection 4 es).size
  · rw [← List.append_assoc, ← List.append_assoc, ← List.append_assoc]
    exact writtenIn_number (by simp) 4 (mapSize es)

theorem writtenIn_lessOne {back : List UInt8} (start : position = front.length) (count : Nat) :
    ({ position, width := 2, value := count - 1, signed := true } : Numeral).WrittenIn
      (front ++ ((lessOne count).toList ++ back)) := by
  refine ⟨front, back, ?_, start⟩
  rw [lessOne, toList_idBytes]
  rfl

theorem types_written (start : position = front.length) (offset : Nat) (back : List UInt8) :
    ∀ n ∈ typeNumerals position offset gs,
      n.WrittenIn (front ++ ((typeList offset gs).toList ++ back)) := by
  induction gs generalizing front position offset with
  | nil => simp [typeNumerals]
  | cons g gs ih =>
    subst start
    intro n member
    simp only [typeList, toList_append, List.append_assoc]
    rw [typeNumerals] at member
    rcases List.mem_cons.1 member with rfl | member
    · rw [← List.append_assoc]
      exact writtenIn_lessOne (by simp) g.length
    rcases List.mem_cons.1 member with rfl | member
    · rw [← List.append_assoc, ← List.append_assoc]
      exact writtenIn_number (by simp [lessOne]) 2 offset
    · rw [← List.append_assoc, ← List.append_assoc, ← List.append_assoc]
      exact ih (by simp [lessOne]) _ n member

theorem references_written (start : position = front.length) (back : List UInt8) :
    ∀ n ∈ referenceNumerals position rs,
      n.WrittenIn (front ++ (rs.flatMap (fun r => (reference r).toList) ++ back)) := by
  induction rs generalizing front position with
  | nil => simp [referenceNumerals]
  | cons r rs ih =>
    subst start
    intro n member
    rw [List.flatMap_cons, List.append_assoc]
    rw [referenceNumerals] at member
    rcases List.mem_cons.1 member with rfl | member
    · simp only [reference, toList_append, List.append_assoc]
      exact writtenIn_id rfl r.1.id
    rcases List.mem_cons.1 member with rfl | member
    · simp only [reference, toList_append, List.append_assoc]
      rw [← List.append_assoc]
      exact writtenIn_number (by simp) 2 r.2.1
    rcases List.mem_cons.1 member with rfl | member
    · simp only [reference, toList_append, List.append_assoc]
      rw [← List.append_assoc, ← List.append_assoc, ← List.append_assoc]
      exact writtenIn_number (by simp) 3 r.2.2
    · rw [← List.append_assoc]
      exact ih (by rw [List.length_append, length_reference]) n member

theorem size_counted {text : String} (short : text.utf8ByteSize ≤ 255) :
    (counted text).size = 1 + text.utf8ByteSize := by
  rw [← length_toList, toList_counted short, List.length_append, ByteOrder.length_write,
    Text.length_encode]

theorem nameOffsets_eq_namePlaces (h : nameOffsets offset es = .ok named)
    (short : ∀ e ∈ es, e.name.utf8ByteSize ≤ 255) : named = namePlaces offset es := by
  induction es generalizing offset named with
  | nil =>
    cases h
    rfl
  | cons e es ih =>
    have others : ∀ e ∈ es, e.name.utf8ByteSize ≤ 255 :=
      fun e' inside => short e' (List.mem_cons_of_mem _ inside)
    rcases nameOffsets_cons h with ⟨empty, rest, more, rfl⟩ | ⟨full, -, rest, more, rfl⟩
    · rw [namePlaces, if_pos empty, ih more others]
    · rw [size_counted (short e List.mem_cons_self)] at more
      rw [namePlaces, if_neg (by simp [full]), ih more others]

/-- A name stands at its place, with the other names around it. -/
theorem exists_counted (short : ∀ e ∈ es, e.name.utf8ByteSize ≤ 255) {p : ArchiveEntry × Nat}
    (member : p ∈ es.zip (namePlaces offset es)) (full : p.1.name.isEmpty = false) :
    ∃ before rest, (nameList es).toList = before ++ ((counted p.1.name).toList ++ rest) ∧
      p.2 = offset + before.length := by
  induction es generalizing offset with
  | nil => simp at member
  | cons e es ih =>
    have others : ∀ e ∈ es, e.name.utf8ByteSize ≤ 255 :=
      fun e' inside => short e' (List.mem_cons_of_mem _ inside)
    rw [toList_nameList_cons]
    rw [namePlaces] at member
    cases empty : e.name.isEmpty with
    | true =>
      rw [if_pos empty, List.zip_cons_cons] at member
      rcases List.mem_cons.1 member with rfl | later
      · simp [empty] at full
      · exact ih others later
    | false =>
      rw [if_neg (by simp [empty]), List.zip_cons_cons] at member
      rcases List.mem_cons.1 member with rfl | later
      · exact ⟨[], (nameList es).toList, by simp, rfl⟩
      · obtain ⟨before, rest, split, place⟩ := ih others later
        refine ⟨(counted e.name).toList ++ before, rest, ?_, ?_⟩
        · rw [split]
          simp
        · rw [place, List.length_append, length_toList, size_counted (short e List.mem_cons_self)]
          omega

namespace LaidOut

variable {es : List ArchiveEntry} {named : List Nat} {bytes : List UInt8}

section

variable (laid : LaidOut es named bytes)
include laid

/-- The data is behind the header, and the map is behind the data. -/
theorem split : ∃ front,
    bytes = front ++ ((dataSection 4 es).toList ++ mapBytes es named) ∧ front.length = headerSize ∧
      ∃ back, front = (header (dataSection 4 es).size (mapSize es)).toList ++ back :=
  ⟨_, laid.whole, length_front .., _, toList_padded⟩

theorem header_written :
    ∀ n ∈ headerNumerals 0 es ++ headerNumerals (mapStart es) es ++ mapOffsets es,
      n.WrittenIn bytes := by
  obtain ⟨front, rfl, length, back, front_eq⟩ := laid.split
  have none : 0 = ([] : List UInt8).length := rfl
  have first := Classic.header_written es none
    (back ++ ((dataSection 4 es).toList ++ mapBytes es named))
  rw [List.nil_append, ← List.append_assoc, ← front_eq] at first
  have start : mapStart es = (front ++ (dataSection 4 es).toList).length := by
    rw [mapStart, List.length_append, length, length_toList]
  have copy := Classic.header_written es start
    ((number 8 0).toList ++ (number 2 mapHeaderSize).toList ++ (number 2 (nameListOffset es)).toList ++
      (typeFront es ++ (referenceBytes es named ++ (nameList es).toList)))
  have map : (header (dataSection 4 es).size (mapSize es)).toList ++
      ((number 8 0).toList ++ (number 2 mapHeaderSize).toList ++
        (number 2 (nameListOffset es)).toList ++
        (typeFront es ++ (referenceBytes es named ++ (nameList es).toList))) = mapBytes es named := by
    simp only [mapBytes, mapFront, List.append_assoc]
    rfl
  rw [map, List.append_assoc] at copy
  intro n member
  simp only [mapOffsets, List.mem_append, List.mem_cons, List.not_mem_nil, or_false] at member
  rcases member with (member | member) | rfl | rfl
  · exact first n (List.mem_cons_of_mem _ member)
  · exact copy n (List.mem_cons_of_mem _ member)
  · exact first _ (by simp)
  · exact copy _ List.mem_cons_self

/-- The map, from its start on. -/
theorem map_split : ∃ front,
    bytes = front ++ mapBytes es named ∧ mapStart es = front.length := by
  obtain ⟨front, rfl, length, -⟩ := laid.split
  refine ⟨front ++ (dataSection 4 es).toList, by rw [List.append_assoc], ?_⟩
  rw [mapStart, List.length_append, length, length_toList]

theorem lists_written : ∀ n ∈ listNumerals es, n.WrittenIn bytes := by
  obtain ⟨front, rfl, start⟩ := laid.map_split
  intro n member
  simp only [listNumerals, List.mem_cons, List.not_mem_nil, or_false] at member
  simp only [mapBytes, mapFront, typeFront, List.append_assoc]
  rcases member with rfl | rfl | rfl
  · rw [← List.append_assoc, ← List.append_assoc]
    exact writtenIn_number (by simp [start, size_header]) 2 mapHeaderSize
  · rw [← List.append_assoc, ← List.append_assoc, ← List.append_assoc]
    exact writtenIn_number (by simp [start, size_header]) 2 (nameListOffset es)
  · rw [← List.append_assoc, ← List.append_assoc, ← List.append_assoc, ← List.append_assoc]
    exact writtenIn_lessOne (by simp [start, size_header, mapHeaderSize]) (typeGroups es).length

theorem types_written :
    ∀ n ∈ typeNumerals (mapStart es + mapHeaderSize + 2) (typeListSize es) (typeGroups es),
      n.WrittenIn bytes := by
  obtain ⟨front, rfl, start⟩ := laid.map_split
  simp only [mapBytes, typeFront, List.append_assoc]
  rw [← List.append_assoc, ← List.append_assoc]
  refine Classic.types_written ?_ _ _
  rw [List.length_append, List.length_append, length_mapFront, start, length_toList, lessOne,
    size_idBytes]

theorem references_written :
    ∀ n ∈ referenceNumerals (mapStart es + mapHeaderSize + typeListSize es)
        (es.zip (named.zip (dataOffsets 4 0 es))), n.WrittenIn bytes := by
  obtain ⟨front, rfl, start⟩ := laid.map_split
  rw [mapBytes, ← List.append_assoc, ← List.append_assoc]
  refine Classic.references_written ?_ _
  rw [List.length_append, List.length_append, length_mapFront, length_typeFront, start]

theorem data_written : ∀ n ∈ dataNumerals es, n.WrittenIn bytes := by
  obtain ⟨front, rfl, length, -⟩ := laid.split
  intro n member
  obtain ⟨p, known, rfl⟩ := List.mem_map.1 member
  obtain ⟨before, rest, split, offset⟩ := exists_block known
  rw [toList_dataSection, split, block, ← toList_number]
  simp only [List.append_assoc]
  rw [← List.append_assoc]
  exact writtenIn_number (by rw [List.length_append, length, offset, Nat.zero_add]) 4 p.1.data.size

theorem names_written (short : ∀ e ∈ es, e.name.utf8ByteSize ≤ 255) :
    ∀ n ∈ nameNumerals es, n.WrittenIn bytes := by
  obtain ⟨front, rfl, start⟩ := laid.map_split
  intro n member
  obtain ⟨p, known, rfl⟩ := List.mem_map.1 member
  obtain ⟨known, full⟩ := List.mem_filter.1 known
  obtain ⟨before, rest, split, place⟩ := exists_counted short known (by simpa using full)
  have name : p.1.name.utf8ByteSize ≤ 255 := short p.1 (List.of_mem_zip known).1
  have position : mapStart es + nameListOffset es + p.2 =
      (front ++ (mapFront es ++ (typeFront es ++ (referenceBytes es named ++ before)))).length := by
    simp only [List.length_append, length_mapFront, length_typeFront,
      length_referenceBytes (length_nameOffsets laid.names), start, nameListOffset, place]
    omega
  have split' : front ++ mapBytes es named =
      (front ++ (mapFront es ++ (typeFront es ++ (referenceBytes es named ++ before)))) ++
        ((number 1 p.1.name.utf8ByteSize).toList ++ (Text.encode p.1.name ++ rest)) := by
    rw [mapBytes, split, toList_counted name, toList_number, Text.length_encode]
    simp only [List.append_assoc]
  rw [split']
  exact writtenIn_number position 1 p.1.name.utf8ByteSize

/-- Every number is written where it belongs, whatever its size. -/
theorem numerals_written (short : ∀ e ∈ es, e.name.utf8ByteSize ≤ 255) :
    ∀ n ∈ numerals es ++ mapOffsets es, n.WrittenIn bytes := by
  have header := laid.header_written
  have references := laid.references_written
  rw [nameOffsets_eq_namePlaces laid.names short] at references
  intro n member
  simp only [numerals, List.mem_append] at member header
  rcases member with ((((((first | copy) | lists) | types) | refs) | data) | names) | offsets
  · exact header n (.inl (.inl first))
  · exact header n (.inl (.inr copy))
  · exact laid.lists_written n lists
  · exact laid.types_written n types
  · exact references n refs
  · exact laid.data_written n data
  · exact laid.names_written short n names
  · exact header n (.inr offsets)

end

end LaidOut

/-! ### Why they fit -/

theorem size_dataSection_lt {bytes : ByteArray} (h : layOut es = .ok bytes) :
    (dataSection 4 es).size < 2 ^ 32 := by
  simp only [layOut] at h
  obtain ⟨_, -, h⟩ := exists_of_bind_eq_ok h
  obtain ⟨named, -, h⟩ := exists_of_bind_eq_ok h
  split at h
  · cases h
  · split at h
    · cases h
    · omega

theorem types_fit (room : offset + 12 * gs.flatten.length ≤ 0xFFFF) :
    ∀ n ∈ typeNumerals position offset gs, n.Narrow := by
  induction gs generalizing position offset with
  | nil => simp [typeNumerals]
  | cons g gs ih =>
    rw [List.flatten_cons, List.length_append] at room
    intro n member
    rw [typeNumerals] at member
    rcases List.mem_cons.1 member with rfl | member
    · exact narrow_int (by decide) (by omega) (by omega)
    rcases List.mem_cons.1 member with rfl | member
    · exact narrow_nat (by decide) (by omega)
    · exact ih (by omega) n member

theorem references_fit {s : Sections} (resolves : ∀ r ∈ rs, Resolves s r) :
    ∀ n ∈ referenceNumerals position rs, n.Narrow := by
  induction rs generalizing position with
  | nil => simp [referenceNumerals]
  | cons r rs ih =>
    have first := resolves r List.mem_cons_self
    have range : -32768 ≤ r.1.id.toInt ∧ r.1.id.toInt ≤ 32767 := by
      have supported := first.fits.id
      simp only [Format.supportsId, Bool.and_eq_true, decide_eq_true_eq,
        Int64.le_iff_toInt_le] at supported
      exact supported
    have data : r.2.2 < 256 ^ 3 := Nat.lt_of_le_of_lt first.dataFits (by decide)
    intro n member
    rw [referenceNumerals] at member
    rcases List.mem_cons.1 member with rfl | member
    · exact narrow_int (by decide) (by omega) (by omega)
    rcases List.mem_cons.1 member with rfl | member
    · exact narrow_nat (by decide) first.nameFits
    rcases List.mem_cons.1 member with rfl | member
    · exact narrow_nat (by decide) data
    · exact ih (fun r' later => resolves r' (List.mem_cons_of_mem _ later)) n member

/-- The checks of the layout leave room for every number but the offset of the map. -/
theorem LaidOut.numerals_fit {bytes : List UInt8} (laid : LaidOut es named bytes)
    (fits : ∀ e ∈ es, Archive.Fits .classic e) (small : (dataSection 4 es).size < 2 ^ 32) :
    ∀ n ∈ numerals es, n.Narrow := by
  have short : ∀ e ∈ es, e.name.utf8ByteSize ≤ 255 := fun e known => (fits e known).name
  -- References are addressed in two bytes, so there are few of them, and names are short.
  have room : mapHeaderSize + typeListSize es + 12 * es.length ≤ 0xFFFF := laid.room
  have few := length_groups_le es
  have map : mapSize es < 256 ^ 4 := by
    have names := length_nameList_le es
    rw [length_toList] at names
    simp only [mapSize, nameListOffset]
    omega
  have header : ∀ position, ∀ n ∈ headerNumerals position es, n.Narrow := by
    intro position n member
    simp only [headerNumerals, List.mem_cons, List.not_mem_nil, or_false] at member
    rcases member with rfl | rfl | rfl
    · exact narrow_nat (by decide) (by decide)
    · exact narrow_nat (by decide) small
    · exact narrow_nat (by decide) map
  intro n member
  simp only [numerals, List.mem_append] at member
  rcases member with (((((first | copy) | lists) | types) | references) | data) | names
  · exact header _ n first
  · exact header _ n copy
  · simp only [listNumerals, List.mem_cons, List.not_mem_nil, or_false] at lists
    rcases lists with rfl | rfl | rfl
    · exact narrow_nat (by decide) (by decide)
    · exact narrow_nat (by decide) (Nat.lt_succ_of_le laid.room)
    · exact narrow_int (by decide) (by omega) (by omega)
  · have flat : (typeGroups es).flatten = es := List.flatten_splitBy ..
    exact types_fit (by rw [flat]; omega) n types
  · rw [← nameOffsets_eq_namePlaces laid.names short] at references
    exact references_fit (laid.resolves fits []) n references
  · obtain ⟨p, known, rfl⟩ := List.mem_map.1 data
    have part := length_le_of_mem (f := block 4) (List.of_mem_zip known).1
    rw [length_block, ← toList_dataSection, length_toList] at part
    exact narrow_nat (by decide) (by omega)
  · obtain ⟨p, known, rfl⟩ := List.mem_map.1 names
    have name := short p.1 (List.of_mem_zip (List.mem_filter.1 known).1).1
    exact narrow_nat (by decide) (by omega)

theorem exists_layOut (checked : checkData es (dataOffsets 4 0 es) = .ok ())
    (names : nameOffsets 0 es = .ok named) (room : nameListOffset es ≤ 0xFFFF)
    (small : (dataSection 4 es).size < 2 ^ 32) : ∃ bytes, layOut es = .ok bytes := by
  rw [nameListOffset, typeListSize, typeGroups] at room
  simp only [layOut, checked, names]
  exact ⟨_, (if_neg (Nat.not_lt.2 room)).trans (if_neg (Nat.not_le.2 small))⟩

end Classic

/-- When a classic archive can be written, every number in it is read back as the quantity that it
stands for, apart from the offset of the map: of that the low four bytes are written, so it is read
back exactly if the data ends before the last place that four bytes can address. Entries for which
another number does not fit are rejected. -/
theorem toBytes_numerals {a : Archive} (format : a.format = .classic) :
    (∀ bytes, a.toBytes = .ok bytes →
      bytes.size = Classic.mapStart a.sorted + Classic.mapSize a.sorted ∧
      (∀ n ∈ Classic.numerals a.sorted, n.StoredIn bytes.toList) ∧
      (∀ n ∈ Classic.mapOffsets a.sorted,
        n.readIn bytes.toList = (Classic.mapStart a.sorted : Int) % 2 ^ 32 ∧
          (n.StoredIn bytes.toList ↔ Classic.mapStart a.sorted < 2 ^ 32))) ∧
    ((∃ n ∈ Classic.numerals a.sorted, ¬ n.Fits) → ∃ e, a.toBytes = .error e) := by
  generalize same : a.sorted = es
  have success : ∀ bytes, a.toBytes = .ok bytes → ∃ named, Classic.LaidOut es named bytes.toList ∧
      (∀ e ∈ es, Fits .classic e) ∧ (dataSection 4 es).size < 2 ^ 32 := by
    intro bytes written
    obtain ⟨fits, written⟩ := toBytes_classic format written
    rw [same] at fits written
    obtain ⟨named, laid⟩ := Classic.layOut_eq_ok written
    exact ⟨named, laid, fits, Classic.size_dataSection_lt written⟩
  refine ⟨fun bytes written => ?_, ?_⟩
  · obtain ⟨named, laid, fits, small⟩ := success bytes written
    have written := laid.numerals_written fun e known => (fits e known).name
    refine ⟨?_, fun n member => ?_, fun n member => ?_⟩
    · obtain ⟨front, split, start⟩ := laid.map_split
      rw [← length_toList, split, List.length_append, ← start,
        Classic.length_mapBytes (Classic.length_nameOffsets laid.names), Classic.mapSize]
    · exact (written n (List.mem_append_left _ member)).storedIn
        (laid.numerals_fit fits small n member)
    · have there := written n (List.mem_append_right _ member)
      have start : Classic.mapStart es < 2 ^ 33 := by
        simp only [Classic.mapStart, headerSize]
        omega
      obtain ⟨unsigned, width, value⟩ : n.signed = false ∧ n.width = 4 ∧
          n.value = Classic.mapStart es := by
        simp only [Classic.mapOffsets, List.mem_cons, List.not_mem_nil, or_false] at member
        rcases member with rfl | rfl <;> exact ⟨rfl, rfl, rfl⟩
      have read := there.readIn_of_unsigned unsigned (by omega) (by omega) (by omega)
      rw [width, value] at read
      refine ⟨read, ⟨fun stored => ?_, fun below => ⟨there.length_le, ?_⟩⟩⟩
      · have back := stored.2
        rw [read, value] at back
        omega
      · rw [read, value]
        omega
  · rintro ⟨n, member, long⟩
    cases written : a.toBytes with
    | error e => exact ⟨e, rfl⟩
    | ok bytes =>
      obtain ⟨named, laid, fits, small⟩ := success bytes written
      exact absurd (laid.numerals_fit fits small n member).2 long

namespace Sample

/-- A resource of a given size. -/
def filled (size : Nat) : ArchiveEntry where
  code := "ITEM"
  id := 128
  data := (List.replicate size 0xa5).toByteArray

/-- A classic archive of one such resource. -/
def filling (size : Nat) : Archive := { format := .classic, entries := [filled size] }

theorem size_filled (size : Nat) : (filled size).data.size = size := by simp [filled]

theorem sorted_filling (size : Nat) : (filling size).sorted = [filled size] := by
  simp [sorted, filling]

theorem mapStart_filled (size : Nat) : Classic.mapStart [filled size] = 260 + size := by
  rw [Classic.mapStart, size_dataSection, headerSize]
  simp only [List.map_cons, List.map_nil, List.sum_cons, List.sum_nil, size_filled]
  omega

theorem exists_toBytes_filling (size : Nat) (small : 4 + size < 2 ^ 32) :
    ∃ bytes, (filling size).toBytes = .ok bytes := by
  have data : Classic.checkData [filled size] (dataOffsets 4 0 [filled size]) = .ok () := by
    simp only [Classic.checkData, dataOffsets, List.zip_cons_cons, List.zip_nil_right, List.all_cons,
      List.all_nil, size_filled]
    rw [if_pos (by simp; omega)]
  have start := mapStart_filled size
  have total : (dataSection 4 [filled size]).size < 2 ^ 32 := by
    rw [Classic.mapStart, headerSize] at start
    omega
  have room : Classic.nameListOffset [filled size] ≤ 0xFFFF := by
    change 50 ≤ 0xFFFF
    decide
  obtain ⟨bytes, written⟩ := Classic.exists_layOut data rfl room total
  refine ⟨bytes, ?_⟩
  rw [toBytes, sorted_filling]
  exact written

end Sample

/-- The map of an archive can begin where four bytes do not reach. Its offset is then read as zero. -/
theorem toBytes_numerals_filling : ∃ bytes, (Sample.filling 4294967036).toBytes = .ok bytes ∧
    (∀ n ∈ Classic.numerals (Sample.filling 4294967036).sorted, n.StoredIn bytes.toList) ∧
    Classic.mapStart (Sample.filling 4294967036).sorted = 2 ^ 32 ∧
    ∀ n ∈ Classic.mapOffsets (Sample.filling 4294967036).sorted,
      n.readIn bytes.toList = 0 ∧ ¬ n.StoredIn bytes.toList := by
  obtain ⟨bytes, written⟩ := Sample.exists_toBytes_filling 4294967036 (by decide)
  have start : Classic.mapStart (Sample.filling 4294967036).sorted = 2 ^ 32 := by
    rw [Sample.sorted_filling, Sample.mapStart_filled]
    rfl
  obtain ⟨-, stored, offsets⟩ := (toBytes_numerals rfl).1 bytes written
  refine ⟨bytes, written, stored, start, fun n member => ?_⟩
  obtain ⟨read, exactly⟩ := offsets n member
  rw [start] at read exactly
  exact ⟨read, fun back => absurd (exactly.1 back) (by decide)⟩

end Rsrc.Archive
