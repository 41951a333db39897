import Rsrc.Proofs.Archive

/-!
# Reading extended archives

A reader for the extended layout, which knows only what the header and the map say, finds every entry
of an archive with its data.
-/

namespace Rsrc.Archive.Extended

open Decoding (Reads)

variable {g : List (ArchiveEntry × Nat)} {es : List ArchiveEntry} {p : ArchiveEntry × Nat}

/-! ### The reader -/

/-- The version, and where the parts are. -/
def readHeader : Decoding Header := do
  let _ ← readNumber 8
  readParts 8

def readAttribute : Decoding (String × String) := do
  let key ← readText
  let value ← readText
  return (key, value)

/-- An id, the offset of the data, and a name. -/
def readResource : Decoding (Int64 × Nat × String) := do
  let id ← readId 8
  let offset ← readNumber 8
  let name ← readText
  return (id, offset, name)

/-- The entries of a group, still without their data, and the offsets of that. -/
def readGroup : Decoding (List (ArchiveEntry × Nat)) := do
  let code ← readCode
  let attributes ← Decoding.times readAttribute (← readNumber 8)
  let resources ← Decoding.times readResource (← readNumber 8)
  return resources.map fun (id, offset, name) =>
    ({ code, id, name, attributes := ⟨attributes⟩ }, offset)

def readMap : Decoding (List (ArchiveEntry × Nat)) := do
  let groups ← Decoding.times readGroup (← readNumber 8)
  return groups.flatten

/-- Gives an entry the data at an offset. -/
def fill (data : List UInt8) (p : ArchiveEntry × Nat) : Except EncodingError ArchiveEntry := do
  return { p.1 with data := ← dataAt 8 data p.2 }

/-- All entries of an archive. -/
def read (bytes : List UInt8) : Except EncodingError (List ArchiveEntry) := do
  let (header, _) ← readHeader.run bytes
  let (listed, _) ← readMap.run (region bytes header.mapOffset header.mapLength)
  listed.mapM (fill (region bytes header.dataOffset header.dataLength))

/-! ### Reading what was laid out -/

theorem reads_header {dataSize mapSize : Nat} (data : headerSize + dataSize < 2 ^ 64)
    (map : mapSize < 2 ^ 64) :
    Reads readHeader (header dataSize mapSize).toList
      { dataOffset := headerSize, mapOffset := headerSize + dataSize, dataLength := dataSize,
        mapLength := mapSize } := by
  have wide : (256 : Nat) ^ 8 = 2 ^ 64 := by norm_num
  simp only [header, toList_append, List.append_assoc]
  refine (reads_number (by decide) (by decide)).bind ?_
  have start : headerSize < 256 ^ 8 := by decide
  have length : dataSize < 256 ^ 8 := by omega
  exact reads_parts (by decide) ⟨headerSize, headerSize + dataSize, dataSize, mapSize⟩ start
    (wide ▸ data) length (wide ▸ map)

theorem reads_attribute {p : String × String} (key : p.1.utf8ByteSize ≤ 255)
    (value : p.2.utf8ByteSize ≤ 255) : Reads readAttribute (attributeBytes p).toList p := by
  rw [attributeBytes, toList_append]
  exact (reads_text key).bind ((reads_text value).map _)

theorem reads_resource (name : p.1.name.utf8ByteSize ≤ 255) (offset : p.2 < 2 ^ 64) :
    Reads readResource (resource p).toList (p.1.id, p.2, p.1.name) := by
  have wide : (256 : Int) ^ 8 = 2 ^ 64 := by norm_num
  have lower := p.1.id.le_toInt
  have upper := p.1.id.toInt_lt
  simp only [resource, toList_append, List.append_assoc]
  refine (reads_id (by decide) (by omega) (by omega)).bind ?_
  refine (reads_number (by decide) (by omega)).bind ?_
  exact (reads_text name).map _

/-- An entry as the map lists it: without its data. -/
def listed (p : ArchiveEntry × Nat) : ArchiveEntry × Nat := ({ p.1 with data := .empty }, p.2)

/-- The groups of a map have entries of one code and the same attributes, which the format can hold,
and numbers that fit. -/
structure Sound (g : List (ArchiveEntry × Nat)) : Prop where
  nonempty : g ≠ []
  chain : g.IsChain fun a b => sameGroup a b = true
  codes : ∀ p ∈ g, p.1.code.utf8ByteSize = 4
  fits : ∀ p ∈ g, Fits .extended p.1
  offsets : ∀ p ∈ g, p.2 < 2 ^ 64
  size : (group g).toList.length < 2 ^ 64

theorem one_le_length_group (nonempty : g ≠ []) : 1 ≤ (group g).toList.length := by
  cases g with
  | nil => exact absurd rfl nonempty
  | cons p rest =>
    rw [group]
    simp only [toList_append, List.length_append, length_toList, size_codeBytes]
    omega

theorem one_le_length_attribute (p : String × String) : 1 ≤ (attributeBytes p).toList.length := by
  have key := one_le_length_counted p.1
  rw [attributeBytes, toList_append, List.length_append]
  omega

theorem one_le_length_resource : 1 ≤ (resource p).toList.length := by
  have name := one_le_length_counted p.1.name
  rw [resource, toList_append, List.length_append]
  omega

theorem eq_of_sameGroup {a b : ArchiveEntry × Nat} (h : sameGroup a b = true) :
    (a.1.code, a.1.attributes.entries) = (b.1.code, b.1.attributes.entries) := by
  simpa [sameGroup, ArchiveEntry.sameAttributes] using h

theorem reads_group (sound : Sound g) : Reads readGroup (group g).toList (g.map listed) := by
  obtain ⟨nonempty, chain, codes, fits, offsets, size⟩ := sound
  cases g with
  | nil => exact absurd rfl nonempty
  | cons p rest =>
    obtain ⟨first, offset⟩ := p
    have code := codes (first, offset) List.mem_cons_self
    have attributes := (fits (first, offset) List.mem_cons_self).attributes rfl
    have wide : (256 : Nat) ^ 8 = 2 ^ 64 := by norm_num
    rw [group] at size ⊢
    simp only [toList_append, toList_concat, List.append_assoc] at size ⊢
    simp only [List.length_append] at size
    -- Neither number is larger than what it counts has bytes.
    have few : first.attributes.entries.length < 256 ^ 8 := by
      have short := length_le_length_flatMap (fun a => (attributeBytes a).toList)
        first.attributes.entries fun p _ => one_le_length_attribute p
      omega
    have fewer : rest.length + 1 < 256 ^ 8 := by
      have short := length_le_length_flatMap (fun a => (resource a).toList)
        ((first, offset) :: rest) fun p _ => one_le_length_resource
      rw [List.length_cons] at short
      omega
    -- The code and the attributes of the first entry are those of all.
    have common : ∀ p ∈ (first, offset) :: rest,
        (p.1.code, p.1.attributes.entries) = (first.code, first.attributes.entries) := by
      intro p member
      rcases List.mem_cons.1 member with rfl | later
      · rfl
      · exact eq_of_isChain (fun p => (p.1.code, p.1.attributes.entries))
          (fun _ _ => eq_of_sameGroup) chain p later
    have entries : (((first, offset) :: rest).map fun p => (p.1.id, p.2, p.1.name)).map
        (fun (id, offset, name) =>
          (({ code := first.code, id, name, attributes := ⟨first.attributes.entries⟩ } :
            ArchiveEntry), offset)) = ((first, offset) :: rest).map listed := by
      rw [List.map_map]
      refine List.map_congr_left fun p member => ?_
      obtain ⟨⟨code, id, name, data, ⟨attributes⟩⟩, offset⟩ := p
      obtain ⟨rfl, rfl⟩ := Prod.mk.inj (common _ member)
      rfl
    have resources : Reads (Decoding.times readResource ((first, offset) :: rest).length) _ _ :=
      Reads.times fun p member => reads_resource (fits p member).name (offsets p member)
    have pairs : Reads (Decoding.times readAttribute first.attributes.entries.length) _ _ :=
      Reads.times fun p member =>
        reads_attribute (attributes p member).1 (attributes p member).2
    rw [List.map_id'] at pairs
    refine (reads_code code).bind ?_
    refine (reads_number (by decide) few).bind ?_
    refine pairs.bind ?_
    refine (reads_number (by decide) fewer).bind ?_
    rw [← entries]
    exact resources.map _

theorem reads_map {offsets : List Nat} (sound : ∀ g ∈ (es.zip offsets).splitBy sameGroup, Sound g)
    (size : (map es offsets).toList.length < 2 ^ 64) :
    Reads readMap (map es offsets).toList ((es.zip offsets).map listed) := by
  have wide : (256 : Nat) ^ 8 = 2 ^ 64 := by norm_num
  rw [map, toList_append, toList_concat] at size ⊢
  have few : ((es.zip offsets).splitBy sameGroup).length < 256 ^ 8 := by
    have short := length_le_length_flatMap (fun g => (group g).toList)
      ((es.zip offsets).splitBy sameGroup) fun g member =>
        one_le_length_group (sound g member).nonempty
    rw [List.length_append] at size
    omega
  have entries : (((es.zip offsets).splitBy sameGroup).map fun g => g.map listed).flatten =
      (es.zip offsets).map listed := by
    rw [← List.map_flatten, List.flatten_splitBy]
  refine (reads_number (by decide) few).bind ?_
  rw [← entries]
  exact (Reads.times fun g member => reads_group (sound g member)).map _

/-! ### Whole archives -/

theorem toList_layOut :
    (layOut es).toList =
      (padded (header (dataSection 8 es).size (map es (dataOffsets 8 0 es)).size)).toList ++
        ((dataSection 8 es).toList ++ (map es (dataOffsets 8 0 es)).toList) := by
  rw [layOut, toList_append, toList_append, List.append_assoc]

theorem length_front (dataSize mapSize : Nat) :
    (padded (header dataSize mapSize)).toList.length = headerSize := by
  refine length_padded ?_
  simp only [header, ByteArray.size_append, size_number]
  decide

theorem size_layOut (es : List ArchiveEntry) :
    (layOut es).size =
      headerSize + (dataSection 8 es).size + (map es (dataOffsets 8 0 es)).size := by
  rw [← length_toList, toList_layOut, List.length_append, length_front, List.length_append,
    length_toList, length_toList, Nat.add_assoc]

/-- The parts of what is laid out: one behind the other. -/
def headerOf (es : List ArchiveEntry) : Header where
  dataOffset := headerSize
  mapOffset := headerSize + (dataSection 8 es).size
  dataLength := (dataSection 8 es).size
  mapLength := (map es (dataOffsets 8 0 es)).size

theorem run_readHeader (small : (layOut es).size < 2 ^ 64) :
    ∃ rest, readHeader.run (layOut es).toList = .ok (headerOf es, rest) := by
  rw [size_layOut] at small
  have data : headerSize + (dataSection 8 es).size < 2 ^ 64 := by omega
  have map : (map es (dataOffsets 8 0 es)).size < 2 ^ 64 := by omega
  rw [toList_layOut, toList_padded, List.append_assoc]
  exact ⟨_, (reads_header data map).all _⟩

/-- What a map says about entries in their order can be read. -/
theorem sound_groups (codes : ∀ e ∈ es, e.code.utf8ByteSize = 4) (fits : ∀ e ∈ es, Fits .extended e)
    (small : (layOut es).size < 2 ^ 64) (h : g ∈ (es.zip (dataOffsets 8 0 es)).splitBy sameGroup) :
    Sound g := by
  have size := size_layOut es
  have inside : ∀ p ∈ g, p ∈ es.zip (dataOffsets 8 0 es) := by
    intro p member
    rw [← List.flatten_splitBy sameGroup (es.zip (dataOffsets 8 0 es))]
    exact List.mem_flatten.2 ⟨g, h, member⟩
  have known : ∀ p ∈ g, p.1 ∈ es := fun p member => (List.of_mem_zip (inside p member)).1
  refine ⟨List.ne_nil_of_mem_splitBy h, List.isChain_of_mem_splitBy h,
    fun p member => codes p.1 (known p member), fun p member => fits p.1 (known p member),
    fun p member => ?_, ?_⟩
  · -- An offset is the size of the data before it.
    obtain ⟨before, rest, split, offset⟩ := exists_block (inside p member)
    have length := congrArg List.length split
    rw [← toList_dataSection, length_toList, List.length_append, List.length_append] at length
    omega
  · have part := length_le_of_mem (f := fun g => (group g).toList) h
    have whole : (map es (dataOffsets 8 0 es)).size =
        8 + (((es.zip (dataOffsets 8 0 es)).splitBy sameGroup).flatMap
          fun g => (group g).toList).length := by
      rw [← length_toList, map, toList_append, List.length_append, length_toList, size_number,
        toList_concat]
    omega

theorem region_data (es : List ArchiveEntry) :
    region (layOut es).toList (headerOf es).dataOffset (headerOf es).dataLength =
      (dataSection 8 es).toList := by
  rw [toList_layOut]
  exact region_eq (length_front ..).symm (length_toList _).symm

theorem region_map (es : List ArchiveEntry) :
    region (layOut es).toList (headerOf es).mapOffset (headerOf es).mapLength =
      (map es (dataOffsets 8 0 es)).toList := by
  have split : (layOut es).toList =
      ((padded (header (dataSection 8 es).size (map es (dataOffsets 8 0 es)).size)).toList ++
        (dataSection 8 es).toList) ++ (map es (dataOffsets 8 0 es)).toList := by
    rw [toList_layOut, List.append_assoc]
  rw [split]
  refine region_end ?_ (length_toList _).symm
  rw [List.length_append, length_front, length_toList]
  rfl

theorem fill_listed (small : (layOut es).size < 2 ^ 64) (h : p ∈ es.zip (dataOffsets 8 0 es)) :
    fill (dataSection 8 es).toList (listed p) = .ok p.1 := by
  have wide : (256 : Nat) ^ 8 = 2 ^ 64 := by norm_num
  have size := size_layOut es
  obtain ⟨before, rest, split, offset⟩ := exists_block h
  have length := congrArg List.length split
  rw [← toList_dataSection, length_toList, List.length_append, List.length_append,
    length_block] at length
  have data : dataAt 8 (dataSection 8 es).toList p.2 = .ok p.1.data := by
    rw [toList_dataSection, split, offset, Nat.zero_add]
    exact dataAt_eq (by decide) (by omega) before rest
  rw [fill, listed, data]
  rfl

/-- What is laid out is found again, in the same order. -/
theorem read_layOut (codes : ∀ e ∈ es, e.code.utf8ByteSize = 4) (fits : ∀ e ∈ es, Fits .extended e)
    (small : (layOut es).size < 2 ^ 64) : read (layOut es).toList = .ok es := by
  have size := size_layOut es
  obtain ⟨rest, head⟩ := run_readHeader small
  have listing := (reads_map (fun g member => sound_groups codes fits small member)
    (by rw [length_toList]; omega)).all []
  rw [List.append_nil] at listing
  have filled : ((es.zip (dataOffsets 8 0 es)).map listed).mapM
      (fill (dataSection 8 es).toList) = .ok es := by
    rw [List.mapM_map]
    refine (mapM_eq_ok fun p member => fill_listed small member).trans ?_
    rw [List.map_fst_zip (by simp)]
  rw [Extended.read, head]
  change (do
    let (listed, _) ← readMap.run (region (layOut es).toList _ _)
    listed.mapM (fill (region (layOut es).toList _ _))) = _
  rw [region_map, region_data, listing]
  exact filled

end Rsrc.Archive.Extended

namespace Rsrc.Archive

theorem toBytes_extended {a : Archive} (format : a.format = .extended) {bytes : ByteArray}
    (h : a.toBytes = .ok bytes) :
    (∀ e ∈ a.sorted, Fits .extended e) ∧ bytes = Extended.layOut a.sorted := by
  simp only [toBytes, format] at h
  obtain ⟨_, checked, h⟩ := exists_of_bind_eq_ok h
  cases h
  exact ⟨fits_of_checkFrom checked, rfl⟩

/-- An extended archive of fewer than 2 ^ 64 bytes, as all that can be held in memory are, can be read
back: the reader finds what was added, each entry once, and the header describes adjacent parts up to
the end. -/
theorem read_extended {entries : List ArchiveEntry} {a : Archive} {bytes : ByteArray}
    (added : entries.foldlM add { format := .extended } = .ok a) (h : a.toBytes = .ok bytes)
    (small : bytes.size < 2 ^ 64) :
    (∃ found, Extended.read bytes.toList = .ok found ∧ found.Perm entries) ∧
    ∃ header rest, Extended.readHeader.run bytes.toList = .ok (header, rest) ∧
      header.mapOffset = header.dataOffset + header.dataLength ∧
      header.mapOffset + header.mapLength = bytes.size := by
  obtain ⟨rfl, codes⟩ := foldlM_add added
  obtain ⟨fits, rfl⟩ := toBytes_extended rfl h
  have perm := sorted_perm { format := .extended, entries := [] ++ entries }
  rw [List.nil_append] at perm
  refine ⟨⟨_, Extended.read_layOut (fun e member => codes e (perm.mem_iff.1 member)) fits small,
    perm⟩, ?_⟩
  obtain ⟨rest, head⟩ := Extended.run_readHeader small
  refine ⟨_, rest, head, rfl, ?_⟩
  rw [Extended.size_layOut]
  rfl

theorem Sample.size_layOut_lt : (Extended.layOut [icon, face]).size < 2 ^ 64 := by
  have groups : ([icon, face].zip (dataOffsets 8 0 [icon, face])).splitBy Extended.sameGroup =
      [[(icon, 0)], [(face, 8)]] := rfl
  have data : (dataSection 8 [icon, face]).size = 19 := by decide
  have map : (Extended.map [icon, face] (dataOffsets 8 0 [icon, face])).size < 2 ^ 16 := by
    have iconName := size_counted_le icon.name
    have faceName := size_counted_le face.name
    have key := size_counted_le "size"
    have value := size_counted_le "9"
    rw [Extended.map, groups]
    simp [concat, Extended.group, Extended.resource, Extended.attributeBytes, ByteArray.size_append,
      size_number, size_codeBytes, idBytes, face, icon] at *
    omega
  rw [Extended.size_layOut, data, headerSize]
  omega

/-- Two types are found again, one with a name and attributes, one with neither and without data. -/
theorem read_extended_sample : ∃ a bytes found,
    [Sample.face, Sample.icon].foldlM add { format := .extended } = .ok a ∧ a.toBytes = .ok bytes ∧
      bytes.size < 2 ^ 64 ∧ Extended.read bytes.toList = .ok found ∧
      found.Perm [Sample.face, Sample.icon] := by
  have added := Sample.added .extended
  have written : ({ format := .extended, entries := [Sample.face, Sample.icon] } : Archive).toBytes =
      .ok (Extended.layOut [Sample.icon, Sample.face]) := by
    rw [toBytes, Sample.sorted_eq]
    rfl
  obtain ⟨⟨found, read, perm⟩, _⟩ := read_extended added written Sample.size_layOut_lt
  exact ⟨_, _, found, added, written, Sample.size_layOut_lt, read, perm⟩

end Rsrc.Archive
