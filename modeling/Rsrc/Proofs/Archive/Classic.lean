import Rsrc.Proofs.Archive.Order

/-!
# Reading classic archives

A reader for the classic layout follows four kinds of offsets: those of the header, of the lists in
the map, of the references of a type behind the start of the type list, and of names and data in
their sections. What it finds is what was laid out, type by type.
-/

namespace Rsrc.Archive.Classic

open Decoding (Reads)

variable {offset : Nat} {es : List ArchiveEntry} {named : List Nat}
  {gs : List (List ArchiveEntry)} {items : List (ArchiveEntry × Nat × Nat)}
  {r : ArchiveEntry × Nat × Nat} {e : ArchiveEntry}

/-! ### The reader -/

/-- The offsets of the type list and the name list in the map. -/
def readMapHeader : Decoding (Nat × Nat) := do
  let _ ← Decoding.take "map" 24
  let types ← readNumber 2
  let names ← readNumber 2
  return (types, names)

/-- A count that is stored less one, where the largest number stands for none. -/
def readCount : Decoding Nat := do
  let stored ← readNumber 2
  return if stored = 0xFFFF then 0 else stored + 1

/-- What the type list says of a type: its code, the number of its resources, and where their
references start. -/
structure TypeListing where
  code : String
  count : Nat
  offset : Nat

def readType : Decoding TypeListing := do
  let code ← readCode
  let count ← readCount
  let offset ← readNumber 2
  return { code, count, offset }

def readTypes : Decoding (List TypeListing) := do
  Decoding.times readType (← readCount)

/-- An id and the offsets of a name and of data. -/
def readReference : Decoding (Int64 × Nat × Nat) := do
  let id ← readId 2
  let name ← readNumber 2
  let _ ← readNumber 1
  let data ← readNumber 3
  let _ ← readNumber 4
  return (id, name, data)

def nameAt (names : List UInt8) (offset : Nat) : Except EncodingError String :=
  if offset = noName then .ok "" else do
    let (name, _) ← readText.run (names.drop offset)
    return name

/-- The sections that references point into. -/
structure Sections where
  types : List UInt8
  names : List UInt8
  data : List UInt8

/-- The resource behind a reference of a type with the given code. -/
def resolve (s : Sections) (code : String) (r : Int64 × Nat × Nat) :
    Except EncodingError ArchiveEntry := do
  let name ← nameAt s.names r.2.1
  let data ← dataAt 4 s.data r.2.2
  return { code, id := r.1, name, data }

/-- The code of a type and its resources. -/
def readResources (s : Sections) (t : TypeListing) :
    Except EncodingError (String × List ArchiveEntry) := do
  let (references, _) ← (Decoding.times readReference t.count).run (s.types.drop t.offset)
  let resources ← references.mapM (resolve s t.code)
  return (t.code, resources)

/-- All resources of an archive, by type. -/
def read (bytes : List UInt8) : Except EncodingError (List (String × List ArchiveEntry)) := do
  let (header, _) ← (readParts 4).run bytes
  let map := region bytes header.mapOffset header.mapLength
  let ((typeOffset, nameOffset), _) ← readMapHeader.run map
  let (types, _) ← readTypes.run (map.drop typeOffset)
  types.mapM (readResources
    { types := map.drop typeOffset
      names := map.drop nameOffset
      data := region bytes header.dataOffset header.dataLength })

/-! ### References -/

theorem reads_count {n : Nat} (h : n < 65536) : Reads readCount (lessOne n).toList n := by
  have word : Reads (readNumber 2) (lessOne n).toList
      (ByteOrder.big.readNat (ByteOrder.big.write 2 (Int64.ofInt (n - 1)))) := by
    rw [lessOne, toList_idBytes]
    exact (Reads.take (ByteOrder.length_write ..) "number").map _
  -- None is stored as minus one, whose bytes are those of the largest number.
  have value : (ByteOrder.big.readNat (ByteOrder.big.write 2 (Int64.ofInt (n - 1))) : Int) =
      (Int64.ofInt (n - 1)).toInt % 256 ^ 2 :=
    ByteOrder.readNat_write_eq_emod (by decide) .big _
  rw [Int64.toInt_ofInt_of_le (by omega) (by omega)] at value
  have read := word.map fun stored => if stored = 0xFFFF then 0 else stored + 1
  have count : (if ByteOrder.big.readNat (ByteOrder.big.write 2 (Int64.ofInt (n - 1))) = 0xFFFF
      then 0 else ByteOrder.big.readNat (ByteOrder.big.write 2 (Int64.ofInt (n - 1))) + 1) = n := by
    split <;> omega
  rwa [count] at read

theorem reads_reference {name data : Nat} (fits : Fits .classic e) (nameFits : name < 65536)
    (dataFits : data ≤ dataLimit) :
    Reads readReference (reference (e, name, data)).toList (e.id, name, data) := by
  have range : -32768 ≤ e.id.toInt ∧ e.id.toInt ≤ 32767 := by
    have supported := fits.id
    simp only [Format.supportsId, Bool.and_eq_true, decide_eq_true_eq,
      Int64.le_iff_toInt_le] at supported
    exact supported
  have limit : data < 256 ^ 3 := Nat.lt_of_le_of_lt dataFits (by decide)
  simp only [reference, toList_append, List.append_assoc]
  refine (reads_id (by decide) (by omega) (by omega)).bind ?_
  refine (reads_number (by decide) nameFits).bind ?_
  refine (reads_number (by decide) (by decide)).bind ?_
  refine (reads_number (by decide) limit).bind ?_
  exact (reads_number (by decide) (by decide)).map _

theorem length_reference : (reference r).toList.length = 12 := by
  rw [length_toList]
  simp [reference]

theorem length_references :
    (items.flatMap fun r => (reference r).toList).length = 12 * items.length := by
  induction items with
  | nil => rfl
  | cons r items ih =>
    rw [List.flatMap_cons, List.length_append, length_reference, ih, List.length_cons]
    omega

/-! ### The type list -/

/-- What the type list says of groups whose first reference is at an offset. -/
def listings : Nat → List (List ArchiveEntry) → List TypeListing
  | _, [] => []
  | offset, g :: gs =>
    { code := groupCode g, count := g.length, offset } :: listings (offset + 12 * g.length) gs

theorem reads_typeList (codes : ∀ g ∈ gs, (groupCode g).utf8ByteSize = 4)
    (small : offset + 12 * gs.flatten.length < 65536) :
    Reads (Decoding.times readType gs.length) (typeList offset gs).toList (listings offset gs) := by
  induction gs generalizing offset with
  | nil =>
    rw [typeList, toList_empty]
    exact Reads.pure []
  | cons g gs ih =>
    rw [List.flatten_cons, List.length_append] at small
    have behind : offset + 12 * g.length + 12 * gs.flatten.length < 65536 := by omega
    have rest := ih (fun g' member => codes g' (List.mem_cons_of_mem _ member)) behind
    have first : Reads readType
        ((codeBytes (groupCode g)).toList ++ ((lessOne g.length).toList ++ (number 2 offset).toList))
        { code := groupCode g, count := g.length, offset } := by
      refine (reads_code (codes g List.mem_cons_self)).bind ?_
      refine (reads_count (by omega)).bind ?_
      exact (reads_number (by decide) (by omega)).map _
    have split : (typeList offset (g :: gs)).toList =
        ((codeBytes (groupCode g)).toList ++
          ((lessOne g.length).toList ++ (number 2 offset).toList)) ++
          (typeList (offset + 12 * g.length) gs).toList := by
      simp only [typeList, toList_append, List.append_assoc, groupCode]
    rw [split]
    refine first.bind ?_
    exact rest.map _

/-- A reference whose offsets lead to the name and the data of its entry. -/
structure Resolves (s : Sections) (r : ArchiveEntry × Nat × Nat) : Prop where
  fits : Fits .classic r.1
  nameFits : r.2.1 < 65536
  dataFits : r.2.2 ≤ dataLimit
  name : nameAt s.names r.2.1 = .ok r.1.name
  data : dataAt 4 s.data r.2.2 = .ok r.1.data

/-- An entry as far as the format keeps it. -/
def kept (e : ArchiveEntry) : ArchiveEntry := { e with attributes := {} }

theorem resolve_eq {s : Sections} (h : Resolves s r) :
    resolve s r.1.code (r.1.id, r.2.1, r.2.2) = .ok (kept r.1) := by
  rw [resolve, h.name, h.data]
  rfl

/-- The references of groups, one group after the other, lead to their entries. -/
theorem mapM_readResources {s : Sections} {before rest : List UInt8}
    (types : s.types = before ++ (items.flatMap (fun r => (reference r).toList) ++ rest))
    (same : items.map (·.1) = gs.flatten) (codes : ∀ g ∈ gs, ∀ e ∈ g, e.code = groupCode g)
    (resolves : ∀ r ∈ items, Resolves s r) :
    (listings before.length gs).mapM (readResources s) =
      .ok (gs.map fun g => (groupCode g, g.map kept)) := by
  induction gs generalizing items before with
  | nil => rfl
  | cons g gs ih =>
    rw [List.flatten_cons] at same
    -- The references of the first group, and those behind them, where the next listing points.
    obtain ⟨here, later, rfl, rfl, others⟩ := List.map_eq_append_iff.1 same
    rw [List.flatMap_append, List.append_assoc] at types
    have read : Reads (Decoding.times readReference here.length) _ _ :=
      Reads.times fun r member => by
        have found := resolves r (List.mem_append_left _ member)
        exact reads_reference found.fits found.nameFits found.dataFits
    have entries : (here.map fun r => (r.1.id, r.2.1, r.2.2)).mapM
        (resolve s (groupCode (here.map (·.1)))) = .ok (here.map fun r => kept r.1) := by
      rw [List.mapM_map]
      refine mapM_eq_ok fun r member => ?_
      have code := codes _ List.mem_cons_self r.1 (List.mem_map_of_mem member)
      rw [Function.comp_apply, ← code]
      exact resolve_eq (resolves r (List.mem_append_left _ member))
    have first : readResources s
        { code := groupCode (here.map (·.1)), count := (here.map (·.1)).length,
          offset := before.length } =
        .ok (groupCode (here.map (·.1)), (here.map (·.1)).map kept) := by
      rw [readResources, types, List.drop_left, List.length_map, read.all]
      change (do
        let resources ← (here.map fun (r : ArchiveEntry × Nat × Nat) =>
          (r.1.id, r.2.1, r.2.2)).mapM (resolve s _)
        return (_, resources)) = _
      rw [entries, List.map_map]
      rfl
    have length : (before ++ here.flatMap fun r => (reference r).toList).length =
        before.length + 12 * (here.map (·.1)).length := by
      rw [List.length_append, length_references, List.length_map]
    have behind : s.types = (before ++ here.flatMap fun r => (reference r).toList) ++
        (later.flatMap (fun r => (reference r).toList) ++ rest) := by
      rw [types, List.append_assoc]
    have more := ih behind others (fun g' member => codes g' (List.mem_cons_of_mem _ member))
      (fun r member => resolves r (List.mem_append_right _ member))
    rw [length] at more
    rw [listings, List.mapM_cons, first, more]
    rfl

/-! ### Names and data -/

theorem toList_nameList_cons :
    (nameList (e :: es)).toList =
      (if e.name.isEmpty then [] else (counted e.name).toList) ++ (nameList es).toList := by
  rw [nameList, nameList, toList_concat, toList_concat]
  cases empty : e.name.isEmpty <;> simp [empty]

theorem nameOffsets_cons (h : nameOffsets offset (e :: es) = .ok named) :
    (e.name.isEmpty = true ∧ ∃ rest, nameOffsets offset es = .ok rest ∧ named = noName :: rest) ∨
      (e.name.isEmpty = false ∧ offset < noName ∧
        ∃ rest, nameOffsets (offset + (counted e.name).size) es = .ok rest ∧
          named = offset :: rest) := by
  rw [nameOffsets] at h
  cases empty : e.name.isEmpty with
  | true =>
    rw [if_pos empty] at h
    obtain ⟨rest, more, h⟩ := exists_of_bind_eq_ok h
    cases h
    exact .inl ⟨rfl, rest, more, rfl⟩
  | false =>
    rw [if_neg (by simp [empty])] at h
    split at h
    · cases h
    · rename_i room
      obtain ⟨rest, more, h⟩ := exists_of_bind_eq_ok h
      cases h
      exact .inr ⟨rfl, Nat.lt_of_not_le room, rest, more, rfl⟩

/-- Offsets of names lead to the names. -/
theorem nameAt_of_mem (h : nameOffsets offset es = .ok named)
    (short : ∀ e ∈ es, e.name.utf8ByteSize ≤ 255) {before : List UInt8}
    (length : before.length = offset) {p : ArchiveEntry × Nat} (member : p ∈ es.zip named) :
    p.2 < 65536 ∧ nameAt (before ++ (nameList es).toList) p.2 = .ok p.1.name := by
  -- Before the names that are left stand those passed so far, up to the offset of the next one.
  induction es generalizing offset named before with
  | nil => simp at member
  | cons e es ih =>
    have others : ∀ e ∈ es, e.name.utf8ByteSize ≤ 255 :=
      fun e' inside => short e' (List.mem_cons_of_mem _ inside)
    rw [toList_nameList_cons]
    rcases nameOffsets_cons h with ⟨empty, rest, more, rfl⟩ | ⟨full, below, rest, more, rfl⟩
    · rw [if_pos empty, List.nil_append]
      rcases List.mem_cons.1 member with rfl | later
      · refine ⟨(by decide : noName < 65536), ?_⟩
        rw [nameAt, if_pos rfl]
        exact congrArg Except.ok (String.isEmpty_iff.1 empty).symm
      · exact ih more others length later
    · rw [if_neg (by simp [full]), ← List.append_assoc]
      rcases List.mem_cons.1 member with rfl | later
      · refine ⟨Nat.lt_trans below (by decide), ?_⟩
        rw [nameAt, if_neg (Nat.ne_of_lt below), List.append_assoc, ← length, List.drop_left,
          (reads_text (short e List.mem_cons_self)).all]
        rfl
      · refine ih more others ?_ later
        rw [List.length_append, length, length_toList]

theorem length_nameOffsets (h : nameOffsets offset es = .ok named) : named.length = es.length := by
  induction es generalizing offset named with
  | nil =>
    cases h
    rfl
  | cons e es ih =>
    rcases nameOffsets_cons h with ⟨_, rest, more, rfl⟩ | ⟨_, _, rest, more, rfl⟩ <;>
      rw [List.length_cons, List.length_cons, ih more]

theorem length_nameList_le (es : List ArchiveEntry) :
    (nameList es).toList.length ≤ 256 * es.length := by
  induction es with
  | nil => simp [nameList]
  | cons e es ih =>
    have size := size_counted_le e.name
    rw [toList_nameList_cons, List.length_append, List.length_cons]
    split
    · rw [List.length_nil]
      omega
    · rw [length_toList]
      omega

theorem mem_zip_zip {α β γ : Type} {as : List α} {bs : List β} {cs : List γ} {t : α × β × γ}
    (h : t ∈ as.zip (bs.zip cs)) : (t.1, t.2.1) ∈ as.zip bs ∧ (t.1, t.2.2) ∈ as.zip cs := by
  induction as generalizing bs cs with
  | nil => simp at h
  | cons a as ih =>
    cases bs with
    | nil => simp at h
    | cons b bs =>
      cases cs with
      | nil => simp at h
      | cons c cs =>
        rw [List.zip_cons_cons, List.zip_cons_cons] at h
        rcases List.mem_cons.1 h with rfl | later
        · exact ⟨List.mem_cons_self, List.mem_cons_self⟩
        · exact ⟨List.mem_cons_of_mem _ (ih later).1, List.mem_cons_of_mem _ (ih later).2⟩

/-! ### Whole archives -/

/-- The types of entries in order, each with its entries. -/
def typeGroups (es : List ArchiveEntry) : List (List ArchiveEntry) :=
  es.splitBy fun a b => a.code == b.code

def typeListSize (es : List ArchiveEntry) : Nat := 2 + 8 * (typeGroups es).length

def nameListOffset (es : List ArchiveEntry) : Nat :=
  mapHeaderSize + typeListSize es + 12 * es.length

def headerOf (es : List ArchiveEntry) : Header where
  dataOffset := headerSize
  mapOffset := headerSize + (dataSection 4 es).size
  dataLength := (dataSection 4 es).size
  mapLength := nameListOffset es + (nameList es).size

/-- The part of the map before the type list. -/
def mapFront (es : List ArchiveEntry) : List UInt8 :=
  (header (dataSection 4 es).size (nameListOffset es + (nameList es).size)).toList ++
    (number 8 0).toList ++ (number 2 mapHeaderSize).toList ++ (number 2 (nameListOffset es)).toList

/-- The type list, before the references. -/
def typeFront (es : List ArchiveEntry) : List UInt8 :=
  (lessOne (typeGroups es).length).toList ++ (typeList (typeListSize es) (typeGroups es)).toList

/-- The references of entries with the offsets of their names. -/
def referenceBytes (es : List ArchiveEntry) (named : List Nat) : List UInt8 :=
  (es.zip (named.zip (dataOffsets 4 0 es))).flatMap fun r => (reference r).toList

def mapBytes (es : List ArchiveEntry) (named : List Nat) : List UInt8 :=
  mapFront es ++ (typeFront es ++ (referenceBytes es named ++ (nameList es).toList))

/-- Bytes in which entries are laid out, with the offsets of their names. -/
structure LaidOut (es : List ArchiveEntry) (named : List Nat) (bytes : List UInt8) : Prop where
  checked : checkData es (dataOffsets 4 0 es) = .ok ()
  names : nameOffsets 0 es = .ok named
  room : nameListOffset es ≤ 0xFFFF
  whole : bytes =
    (padded (header (dataSection 4 es).size (nameListOffset es + (nameList es).size))).toList ++
      ((dataSection 4 es).toList ++ mapBytes es named)

theorem layOut_eq_ok {bytes : ByteArray} (h : layOut es = .ok bytes) :
    ∃ named, LaidOut es named bytes.toList := by
  simp only [layOut] at h
  obtain ⟨_, checked, h⟩ := exists_of_bind_eq_ok h
  obtain ⟨named, names, h⟩ := exists_of_bind_eq_ok h
  split at h
  · cases h
  · rename_i room
    split at h
    · cases h
    · cases h
      refine ⟨named, checked, names, Nat.le_of_not_lt room, ?_⟩
      simp only [mapBytes, mapFront, typeFront, referenceBytes, toList_append, toList_concat,
        List.append_assoc]
      rfl

theorem size_header (dataSize mapSize : Nat) : (header dataSize mapSize).size = 16 := by
  simp [header]

theorem length_front (dataSize mapSize : Nat) :
    (padded (header dataSize mapSize)).toList.length = headerSize := by
  refine length_padded ?_
  rw [size_header]
  decide

theorem length_mapFront : (mapFront es).length = mapHeaderSize := by
  simp only [mapFront, List.length_append, length_toList, size_header, size_number]
  rfl

theorem length_typeList : (typeList offset gs).toList.length = 8 * gs.length := by
  induction gs generalizing offset with
  | nil => simp [typeList]
  | cons g gs ih =>
    simp only [typeList, toList_append, List.length_append, ih, length_toList, size_codeBytes,
      lessOne, size_idBytes, size_number, List.length_cons]
    omega

theorem length_typeFront : (typeFront es).length = typeListSize es := by
  rw [typeFront, List.length_append, length_typeList, length_toList, lessOne, size_idBytes,
    typeListSize]

theorem length_referenceBytes (length : named.length = es.length) :
    (referenceBytes es named).length = 12 * es.length := by
  rw [referenceBytes, length_references]
  simp [length]

/-- The names are at the end of the map. -/
theorem drop_nameListOffset (length : named.length = es.length) :
    (mapBytes es named).drop (nameListOffset es) = (nameList es).toList := by
  have front : (mapFront es ++ typeFront es ++ referenceBytes es named).length =
      nameListOffset es := by
    rw [List.length_append, List.length_append, length_mapFront, length_typeFront,
      length_referenceBytes length, nameListOffset]
  have split : mapBytes es named =
      (mapFront es ++ typeFront es ++ referenceBytes es named) ++ (nameList es).toList := by
    simp only [mapBytes, List.append_assoc]
  rw [split, ← front, List.drop_left]

theorem length_mapBytes (length : named.length = es.length) :
    (mapBytes es named).length = nameListOffset es + (nameList es).size := by
  simp only [mapBytes, List.length_append, length_mapFront, length_typeFront,
    length_referenceBytes length, length_toList, nameListOffset]
  omega

theorem length_groups_le (es : List ArchiveEntry) : (typeGroups es).length ≤ es.length := by
  have nonempty : ∀ g ∈ typeGroups es, 1 ≤ (id g).length := fun g member =>
    List.length_pos_iff.2 (List.ne_nil_of_mem_splitBy member)
  have short := length_le_length_flatMap id (typeGroups es) nonempty
  rwa [List.flatMap_id, typeGroups, List.flatten_splitBy] at short

theorem groupCode_mem {g : List ArchiveEntry} (h : g ∈ typeGroups es) :
    ∃ e ∈ es, e.code = groupCode g := by
  have nonempty := List.ne_nil_of_mem_splitBy h
  refine ⟨g.head nonempty, ?_, code_eq_of_mem h _ (List.head_mem nonempty)⟩
  rw [← List.flatten_splitBy (fun a b : ArchiveEntry => a.code == b.code) es]
  exact List.mem_flatten.2 ⟨g, h, List.head_mem nonempty⟩

namespace LaidOut

variable {es : List ArchiveEntry} {named : List Nat} {bytes : List UInt8}

section

variable (laid : LaidOut es named bytes)
include laid

theorem run_readParts (data : headerSize + (dataSection 4 es).size < 2 ^ 32) :
    ∃ rest, (readParts 4).run bytes = .ok (headerOf es, rest) := by
  have wide : (256 : Nat) ^ 4 = 2 ^ 32 := by norm_num
  -- References are addressed in two bytes, so there are few of them, and names are short.
  have names := length_nameList_le es
  have few : 12 * es.length ≤ nameListOffset es := Nat.le_add_left ..
  have room := laid.room
  rw [length_toList] at names
  have start : headerSize < 256 ^ 4 := by decide
  have length : (dataSection 4 es).size < 256 ^ 4 := by omega
  have map : nameListOffset es + (nameList es).size < 256 ^ 4 := by omega
  have parts : Reads (readParts 4)
      (header (dataSection 4 es).size (nameListOffset es + (nameList es).size)).toList
      (headerOf es) := by
    simp only [header, toList_append, List.append_assoc]
    exact reads_parts (by decide) (headerOf es) start (wide ▸ data) length map
  rw [laid.whole, padded, toList_append, List.append_assoc]
  exact ⟨_, parts.all _⟩

theorem region_data :
    region bytes (headerOf es).dataOffset (headerOf es).dataLength = (dataSection 4 es).toList := by
  rw [laid.whole]
  refine region_eq ?_ (length_toList _).symm
  rw [length_front]
  rfl

theorem region_map :
    region bytes (headerOf es).mapOffset (headerOf es).mapLength = mapBytes es named := by
  rw [laid.whole, ← List.append_assoc]
  refine region_end ?_ (length_mapBytes (length_nameOffsets laid.names)).symm
  rw [List.length_append, length_front, length_toList]
  rfl

theorem run_readMapHeader :
    ∃ rest, readMapHeader.run (mapBytes es named) =
      .ok ((mapHeaderSize, nameListOffset es), rest) := by
  have room := laid.room
  have front : Reads readMapHeader (mapFront es) (mapHeaderSize, nameListOffset es) := by
    rw [mapFront, List.append_assoc]
    refine (Reads.take ?_ "map").bind ?_
    · rw [List.length_append, length_toList, length_toList, size_header, size_number]
    · refine (reads_number (by decide) (by decide)).bind ?_
      exact (reads_number (by decide) (by omega)).map _
  exact ⟨_, front.all _⟩

theorem run_readTypes (codes : ∀ e ∈ es, e.code.utf8ByteSize = 4) :
    ∃ rest, readTypes.run ((mapBytes es named).drop mapHeaderSize) =
      .ok (listings (typeListSize es) (typeGroups es), rest) := by
  have groups : ∀ g ∈ typeGroups es, (groupCode g).utf8ByteSize = 4 := by
    intro g member
    obtain ⟨e, known, code⟩ := groupCode_mem member
    rw [← code]
    exact codes e known
  have few := length_groups_le es
  have room := laid.room
  rw [nameListOffset] at room
  have bound : typeListSize es + 12 * (typeGroups es).flatten.length < 65536 := by
    rw [typeGroups, List.flatten_splitBy]
    omega
  have types : Reads readTypes (typeFront es) (listings (typeListSize es) (typeGroups es)) := by
    refine (reads_count (by omega)).bind ?_
    exact reads_typeList groups bound
  rw [mapBytes, ← length_mapFront, List.drop_left]
  exact ⟨_, types.all _⟩

theorem resolves (fits : ∀ e ∈ es, Fits .classic e) (types : List UInt8) :
    ∀ r ∈ es.zip (named.zip (dataOffsets 4 0 es)),
      Resolves { types, names := (nameList es).toList, data := (dataSection 4 es).toList } r := by
  intro r member
  obtain ⟨withName, withData⟩ := mem_zip_zip member
  have known := (List.of_mem_zip withName).1
  have name := nameAt_of_mem laid.names (fun e inside => (fits e inside).name) List.length_nil
    withName
  have limits : r.2.2 ≤ dataLimit ∧ r.1.data.size < 256 ^ 4 := by
    have checked := laid.checked
    rw [checkData] at checked
    split at checked
    · rename_i all
      simpa using List.all_eq_true.1 all _ withData
    · cases checked
  obtain ⟨before, rest, split, offset⟩ := exists_block withData
  refine ⟨fits _ known, name.1, limits.1, name.2, ?_⟩
  rw [toList_dataSection, split, show r.2.2 = 0 + before.length from offset, Nat.zero_add]
  exact dataAt_eq (by decide) limits.2 before rest

/-- What is laid out is found again, type by type. -/
theorem read_eq (codes : ∀ e ∈ es, e.code.utf8ByteSize = 4) (fits : ∀ e ∈ es, Fits .classic e)
    (data : headerSize + (dataSection 4 es).size < 2 ^ 32) :
    read bytes = .ok ((typeGroups es).map fun g => (groupCode g, g.map kept)) := by
  have length := length_nameOffsets laid.names
  obtain ⟨_, head⟩ := laid.run_readParts data
  obtain ⟨_, mapHeader⟩ := laid.run_readMapHeader
  obtain ⟨_, types⟩ := laid.run_readTypes codes
  have split : (mapBytes es named).drop mapHeaderSize =
      typeFront es ++ (referenceBytes es named ++ (nameList es).toList) := by
    rw [mapBytes, ← length_mapFront, List.drop_left]
  have same : (es.zip (named.zip (dataOffsets 4 0 es))).map (·.1) = (typeGroups es).flatten := by
    rw [List.map_fst_zip (by simp [length]), typeGroups, List.flatten_splitBy]
  have resources := mapM_readResources split same (fun g member => code_eq_of_mem member)
    (laid.resolves fits _)
  rw [length_typeFront] at resources
  rw [Classic.read, head]
  change (do
    let ((typeOffset, nameOffset), _) ← readMapHeader.run (region bytes _ _)
    let (types, _) ← readTypes.run ((region bytes _ _).drop typeOffset)
    types.mapM (readResources
      { types := (region bytes _ _).drop typeOffset
        names := (region bytes _ _).drop nameOffset
        data := region bytes _ _ })) = _
  rw [laid.region_map, laid.region_data, mapHeader]
  change (do
    let (types, _) ← readTypes.run ((mapBytes es named).drop mapHeaderSize)
    types.mapM (readResources
      { types := (mapBytes es named).drop mapHeaderSize
        names := (mapBytes es named).drop (nameListOffset es)
        data := _ })) = _
  rw [types, drop_nameListOffset length]
  exact resources

end

end LaidOut

theorem mem_groupCode {code : String} :
    code ∈ (typeGroups es).map groupCode ↔ code ∈ es.map (·.code) := by
  constructor
  · intro listed
    obtain ⟨g, member, rfl⟩ := List.mem_map.1 listed
    obtain ⟨e, known, same⟩ := groupCode_mem member
    exact List.mem_map.2 ⟨e, known, same⟩
  · intro used
    obtain ⟨e, known, rfl⟩ := List.mem_map.1 used
    rw [← List.flatten_splitBy (fun a b : ArchiveEntry => a.code == b.code) es] at known
    obtain ⟨g, member, inside⟩ := List.mem_flatten.1 known
    exact List.mem_map.2 ⟨g, member, (code_eq_of_mem member e inside).symm⟩

end Rsrc.Archive.Classic

namespace Rsrc.Archive

theorem toBytes_classic {a : Archive} (format : a.format = .classic) {bytes : ByteArray}
    (h : a.toBytes = .ok bytes) :
    (∀ e ∈ a.sorted, Fits .classic e) ∧ Classic.layOut a.sorted = .ok bytes := by
  simp only [toBytes, format] at h
  obtain ⟨_, checked, h⟩ := exists_of_bind_eq_ok h
  exact ⟨fits_of_checkFrom checked, h⟩

/-- A classic archive can be read back, as long as its data ends where an offset of four bytes can
point: the reader finds what was added, each entry once and without its attributes, and every code
that was used is listed once. -/
theorem read_classic {entries : List ArchiveEntry} {a : Archive} {bytes : ByteArray}
    (added : entries.foldlM add { format := .classic } = .ok a)
    (small : (entries.map fun e => 4 + e.data.size).sum < 2 ^ 32 - 256)
    (h : a.toBytes = .ok bytes) :
    ∃ found, Classic.read bytes.toList = .ok found ∧
      (found.flatMap (·.2)).Perm (entries.map Classic.kept) ∧
      (found.map (·.1)).Nodup ∧ ∀ code, code ∈ found.map (·.1) ↔ code ∈ entries.map (·.code) := by
  obtain ⟨rfl, codes⟩ := foldlM_add added
  obtain ⟨fits, written⟩ := toBytes_classic rfl h
  rw [List.nil_append] at fits written
  have perm : ({ format := .classic, entries } : Archive).sorted.Perm entries := sorted_perm _
  have ordered := (sorted_pairwise { format := .classic, entries }).imp
    fun le => ArchiveEntry.isLE_code le
  generalize ({ format := .classic, entries } : Archive).sorted = es at *
  obtain ⟨named, laid⟩ := Classic.layOut_eq_ok written
  have data : headerSize + (dataSection 4 es).size < 2 ^ 32 := by
    rw [size_dataSection, (perm.map _).sum_nat, headerSize]
    omega
  have listed : ((Classic.typeGroups es).map fun g => (groupCode g, g.map Classic.kept)).map (·.1) =
      (Classic.typeGroups es).map groupCode := List.map_map ..
  refine ⟨_, laid.read_eq (fun e member => codes e (perm.mem_iff.1 member)) fits data, ?_, ?_, ?_⟩
  · have flat : ((Classic.typeGroups es).map fun g => (groupCode g, g.map Classic.kept)).flatMap
        (·.2) = es.map Classic.kept := by
      rw [List.flatMap_map, ← List.map_flatMap, List.flatMap_id', Classic.typeGroups,
        List.flatten_splitBy]
    rw [flat]
    exact perm.map _
  · rw [listed]
    exact nodup_groupCode ordered
  · intro code
    rw [listed, Classic.mem_groupCode]
    exact (perm.map _).mem_iff

/-- Two types are found again, one with a name and attributes, one with neither and without data. -/
theorem read_classic_sample : ∃ a bytes found,
    [Sample.face, Sample.icon].foldlM add { format := .classic } = .ok a ∧
      ([Sample.face, Sample.icon].map fun e => 4 + e.data.size).sum < 2 ^ 32 - 256 ∧
      a.toBytes = .ok bytes ∧ Classic.read bytes.toList = .ok found ∧
      (found.flatMap (·.2)).Perm [Classic.kept Sample.face, Sample.icon] ∧
      (found.map (·.1)).Nodup ∧ ∀ code, code ∈ found.map (·.1) ↔ code ∈ ["PICT", "ICON"] := by
  have added := Sample.added .classic
  obtain ⟨bytes, written⟩ : ∃ bytes,
      ({ format := .classic, entries := [Sample.face, Sample.icon] } : Archive).toBytes =
        .ok bytes := by
    rw [toBytes, Sample.sorted_eq]
    exact ⟨_, rfl⟩
  have small : ([Sample.face, Sample.icon].map fun e => 4 + e.data.size).sum < 2 ^ 32 - 256 := by
    decide
  obtain ⟨found, result⟩ := read_classic added small written
  exact ⟨_, bytes, found, added, small, written, result⟩

end Rsrc.Archive
