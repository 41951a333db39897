import Mathlib.Data.List.SplitBy
import Rsrc.Archive.Output
import Rsrc.Proofs.Reading

/-!
# What archives hold, and readers for their parts

An archive that was filled by additions holds what was added, and one that can be written holds only
what its format can represent. The parts that all layouts share are read back here: numbers, codes,
counted texts, and the data at an offset.
-/

namespace Rsrc.Archive

open Decoding (Reads)

variable {α β : Type} {a a' : Archive} {e : ArchiveEntry} {text : String} {width : Nat}
  {es : List ArchiveEntry} {items : List α}

/-! ### Filling and checking -/

theorem add_eq_ok (h : a.add e = .ok a') :
    a' = { a with entries := a.entries ++ [e] } ∧ e.code.utf8ByteSize = 4 := by
  rw [add] at h
  split at h
  · cases h
  · rename_i size
    split at h
    · cases h
    · cases h
      exact ⟨rfl, Decidable.not_not.1 size⟩

theorem add_eq_ok_iff :
    a.add e = .ok a' ↔ e.code.utf8ByteSize = 4 ∧ ¬ a.entries.any (·.sameSlot e) = true ∧
      a' = { a with entries := a.entries ++ [e] } := by
  constructor
  · intro h
    obtain ⟨same, size⟩ := add_eq_ok h
    refine ⟨size, fun taken => ?_, same⟩
    rw [add, if_neg (by simp [size]), if_pos taken] at h
    cases h
  · rintro ⟨size, free, rfl⟩
    rw [add, if_neg (by simp [size]), if_neg free]

theorem foldlM_add {entries : List ArchiveEntry} (h : entries.foldlM add a = .ok a') :
    a' = { a with entries := a.entries ++ entries } ∧
      ∀ e ∈ entries, e.code.utf8ByteSize = 4 := by
  induction entries generalizing a with
  | nil =>
    cases h
    exact ⟨by simp, by simp⟩
  | cons e entries ih =>
    rw [List.foldlM_cons] at h
    obtain ⟨next, first, h⟩ := exists_of_bind_eq_ok h
    obtain ⟨rfl, size⟩ := add_eq_ok first
    obtain ⟨rfl, sizes⟩ := ih h
    refine ⟨by simp, fun e' member => ?_⟩
    rcases List.mem_cons.1 member with rfl | later
    · exact size
    · exact sizes e' later

theorem sorted_perm (a : Archive) : a.sorted.Perm a.entries := List.mergeSort_perm ..

/-- An entry that a format can hold. -/
structure Fits (format : Format) (e : ArchiveEntry) : Prop where
  id : format.supportsId e.id = true
  name : e.name.utf8ByteSize ≤ 255
  attributes : format.keepsAttributes = true → ∀ p ∈ e.attributes.entries,
    p.1.utf8ByteSize ≤ 255 ∧ p.2.utf8ByteSize ≤ 255

theorem isTooLong_eq_false (h : isTooLong text = false) : text.utf8ByteSize ≤ 255 := by
  rw [isTooLong, decide_eq_false_iff_not] at h
  exact Nat.le_of_not_lt h

theorem fits_of_checkEntry {format : Format} {before : List ArchiveEntry}
    (h : checkEntry format before e = .ok ()) : Fits format e := by
  simp only [checkEntry] at h
  split at h
  · cases h
  · rename_i id
    split at h
    · cases h
    · rename_i name
      refine ⟨by simpa using id, isTooLong_eq_false (by simpa using name), fun keeps p member => ?_⟩
      rw [if_pos keeps] at h
      split at h
      · cases h
      · rename_i noLong
        have short : ∀ text ∈ e.attributes.entries.flatMap fun p => [p.1, p.2],
            text.utf8ByteSize ≤ 255 := by
          intro text inside
          have none := Option.eq_none_iff_forall_ne_some.2 noLong
          exact isTooLong_eq_false (by simpa using List.find?_eq_none.1 none text inside)
        exact ⟨short p.1 (List.mem_flatMap.2 ⟨p, member, by simp⟩),
          short p.2 (List.mem_flatMap.2 ⟨p, member, by simp⟩)⟩

theorem fits_of_checkFrom {format : Format} {before es : List ArchiveEntry}
    (h : checkFrom format before es = .ok ()) : ∀ e ∈ es, Fits format e := by
  induction es generalizing before with
  | nil => simp
  | cons e es ih =>
    obtain ⟨_, first, h⟩ := exists_of_bind_eq_ok h
    intro e' member
    rcases List.mem_cons.1 member with rfl | later
    · exact fits_of_checkEntry first
    · exact ih h e' later

/-! ### Parts as lists of bytes -/

@[simp] theorem toList_number (width n : Nat) :
    (number width n).toList = ByteOrder.big.write width (Int64.ofNat n) := toList_toByteArray _

@[simp] theorem toList_idBytes (id : Int64) :
    (idBytes width id).toList = ByteOrder.big.write width id := toList_toByteArray _

theorem toList_codeBytes {code : String} (h : code.utf8ByteSize = 4) :
    (codeBytes code).toList = Text.encode code := by
  have length : (Text.encode code).length = 4 := by rw [Text.length_encode, h]
  rw [codeBytes, toList_toByteArray, ← length, List.take_left]

theorem toList_counted (h : text.utf8ByteSize ≤ 255) :
    (counted text).toList =
      ByteOrder.big.write 1 (Int64.ofNat (Text.encode text).length) ++ Text.encode text := by
  have whole : text.toUTF8.extract 0 textLimit = text.toUTF8 := by
    refine ByteArray.ext ?_
    rw [ByteArray.data_extract]
    refine Array.extract_eq_self_of_le ?_
    rw [ByteArray.size_data, String.toUTF8_eq_toByteArray, String.size_toByteArray]
    exact h
  rw [counted, whole, toList_append, toList_number, Text.encode, length_toList]

theorem toList_foldl_append (f : α → ByteArray) (front : ByteArray) :
    (items.foldl (fun bytes item => bytes ++ f item) front).toList =
      front.toList ++ items.flatMap fun a => (f a).toList := by
  induction items generalizing front with
  | nil => simp
  | cons a items ih => simp [ih]

@[simp] theorem toList_concat (f : α → ByteArray) :
    (concat f items).toList = items.flatMap fun a => (f a).toList := by
  rw [concat, toList_foldl_append, toList_empty, List.nil_append]

theorem toList_padded {header : ByteArray} :
    (padded header).toList = header.toList ++ List.replicate (headerSize - header.size) 0 := by
  rw [padded, toList_append, toList_toByteArray]

theorem length_padded {header : ByteArray} (h : header.size ≤ headerSize) :
    (padded header).toList.length = headerSize := by
  rw [toList_padded, List.length_append, length_toList, List.length_replicate]
  omega

/-! ### Data behind its length -/

/-- The data of one entry behind its length. -/
def block (width : Nat) (e : ArchiveEntry) : List UInt8 :=
  ByteOrder.big.write width (Int64.ofNat e.data.size) ++ e.data.toList

@[simp] theorem length_block : (block width e).length = width + e.data.size := by
  simp [block]

theorem toList_dataSection : (dataSection width es).toList = es.flatMap (block width) := by
  have same : dataSection width es =
      es.foldl (fun bytes e => bytes ++ (number width e.data.size ++ e.data)) .empty := by
    simp only [dataSection, ByteArray.append_assoc]
  rw [same, toList_foldl_append, toList_empty, List.nil_append]
  simp only [toList_append, toList_number]
  rfl

theorem size_dataSection :
    (dataSection width es).size = (es.map fun e => width + e.data.size).sum := by
  rw [← length_toList, toList_dataSection, List.length_flatMap]
  simp only [length_block]

@[simp] theorem length_dataOffsets (width start : Nat) :
    (dataOffsets width start es).length = es.length := by
  induction es generalizing start with
  | nil => rfl
  | cons e es ih => simp [dataOffsets, ih]

/-- The block of an entry stands at its offset, with the other blocks around it. -/
theorem exists_block {start : Nat} {p : ArchiveEntry × Nat}
    (h : p ∈ es.zip (dataOffsets width start es)) :
    ∃ before rest, es.flatMap (block width) = before ++ (block width p.1 ++ rest) ∧
      p.2 = start + before.length := by
  induction es generalizing start with
  | nil => simp at h
  | cons e es ih =>
    rw [dataOffsets, List.zip_cons_cons] at h
    rcases List.mem_cons.1 h with rfl | later
    · exact ⟨[], es.flatMap (block width), rfl, rfl⟩
    · obtain ⟨before, rest, split, offset⟩ := ih later
      refine ⟨block width e ++ before, rest, ?_, ?_⟩
      · rw [List.flatMap_cons, split, List.append_assoc]
      · rw [offset, List.length_append, length_block]
        omega

/-- The data at an offset. -/
def dataAt (width : Nat) (data : List UInt8) (offset : Nat) : Except EncodingError ByteArray := do
  let (bytes, _) ← (Decoding.takeCounted .big "data" width).run (data.drop offset)
  return bytes.toByteArray

theorem dataAt_eq (small : width ≤ 8) (fits : e.data.size < 256 ^ width)
    (before rest : List UInt8) :
    dataAt width (before ++ (block width e ++ rest)) before.length = .ok e.data := by
  have read : Reads (Decoding.takeCounted .big "data" width) (block width e) e.data.toList := by
    rw [block, ← length_toList e.data]
    exact Reads.takeCounted small (by rwa [length_toList]) .big "data"
  rw [dataAt, List.drop_left, read.all rest]
  exact congrArg Except.ok (toByteArray_toList e.data)

/-! ### Readers of the parts -/

/-- A number, most significant byte first. -/
def readNumber (width : Nat) : Decoding Nat := do
  return ByteOrder.big.readNat (← Decoding.take "number" width)

theorem reads_number {n : Nat} (small : width ≤ 8) (fits : n < 256 ^ width) :
    Reads (readNumber width) (number width n).toList n := by
  have read := (Reads.take (ByteOrder.length_write .big width (Int64.ofNat n)) "number").map
    ByteOrder.big.readNat
  rw [ByteOrder.readNat_write_ofNat small fits] at read
  rwa [toList_number]

def readId (width : Nat) : Decoding Int64 := Decoding.integer .big "id" width true

theorem reads_id (small : width ≤ 8) {id : Int64} (lower : -(256 ^ width : Int) ≤ 2 * id.toInt)
    (upper : 2 * id.toInt < 256 ^ width) : Reads (readId width) (idBytes width id).toList id := by
  have read := Reads.integer .big "id" width true id
  rwa [ByteOrder.read_write_signed small .big lower upper, ← toList_idBytes] at read

def readCode : Decoding String := do return Text.decodeLossy (← Decoding.take "code" 4)

theorem reads_code {code : String} (h : code.utf8ByteSize = 4) :
    Reads readCode (codeBytes code).toList code := by
  have length : (Text.encode code).length = 4 := by rw [Text.length_encode, h]
  have read := (Reads.take length "code").map Text.decodeLossy
  rw [Text.decodeLossy_encode] at read
  rwa [toList_codeBytes h]

/-- A text behind one byte of length. -/
def readText : Decoding String := do
  return Text.decodeLossy (← Decoding.takeCounted .big "text" 1)

theorem reads_text (h : text.utf8ByteSize ≤ 255) : Reads readText (counted text).toList text := by
  have fits : (Text.encode text).length < 256 ^ 1 := by
    rw [Text.length_encode]
    omega
  have read := (Reads.takeCounted (by decide) fits .big "text").map Text.decodeLossy
  rw [Text.decodeLossy_encode] at read
  rwa [toList_counted h]

/-- The parts of an archive by offset and length. -/
structure Header where
  dataOffset : Nat
  mapOffset : Nat
  dataLength : Nat
  mapLength : Nat

def readParts (width : Nat) : Decoding Header := do
  let dataOffset ← readNumber width
  let mapOffset ← readNumber width
  let dataLength ← readNumber width
  let mapLength ← readNumber width
  return { dataOffset, mapOffset, dataLength, mapLength }

theorem reads_parts (small : width ≤ 8) (h : Header) (dataOffset : h.dataOffset < 256 ^ width)
    (mapOffset : h.mapOffset < 256 ^ width) (dataLength : h.dataLength < 256 ^ width)
    (mapLength : h.mapLength < 256 ^ width) :
    Reads (readParts width) ((number width h.dataOffset).toList ++ ((number width h.mapOffset).toList
      ++ ((number width h.dataLength).toList ++ (number width h.mapLength).toList))) h := by
  refine (reads_number small dataOffset).bind ?_
  refine (reads_number small mapOffset).bind ?_
  refine (reads_number small dataLength).bind ?_
  exact (reads_number small mapLength).map _

/-- The `length` bytes from an offset on. -/
def region (bytes : List UInt8) (offset length : Nat) : List UInt8 :=
  (bytes.drop offset).take length

theorem region_eq {front part back : List UInt8} {offset length : Nat}
    (start : offset = front.length) (size : length = part.length) :
    region (front ++ (part ++ back)) offset length = part := by
  rw [region, start, size, List.drop_left, List.take_left]

theorem region_end {front part : List UInt8} {offset length : Nat}
    (start : offset = front.length) (size : length = part.length) :
    region (front ++ part) offset length = part := by
  rw [region, start, size, List.drop_left, List.take_length]

theorem mapM_eq_ok {ε : Type} {f : α → Except ε β} {g : α → β} (h : ∀ a ∈ items, f a = .ok (g a)) :
    items.mapM f = .ok (items.map g) := by
  induction items with
  | nil => rfl
  | cons a items ih =>
    rw [List.mapM_cons, h a List.mem_cons_self,
      ih fun a' member => h a' (List.mem_cons_of_mem _ member)]
    rfl

/-! ### Sizes and groups -/

theorem length_le_length_flatMap (f : α → List β) (items : List α)
    (h : ∀ a ∈ items, 1 ≤ (f a).length) : items.length ≤ (items.flatMap f).length := by
  induction items with
  | nil => simp
  | cons a items ih =>
    have first := h a List.mem_cons_self
    have rest := ih fun a' member => h a' (List.mem_cons_of_mem _ member)
    rw [List.flatMap_cons, List.length_append, List.length_cons]
    omega

theorem length_le_of_mem {f : α → List β} {a : α} (h : a ∈ items) :
    (f a).length ≤ (items.flatMap f).length := by
  obtain ⟨before, after, rfl⟩ := List.append_of_mem h
  rw [List.flatMap_append, List.flatMap_cons, List.length_append, List.length_append]
  omega

@[simp] theorem size_number (width n : Nat) : (number width n).size = width := by
  rw [← length_toList, toList_number, ByteOrder.length_write]

@[simp] theorem size_idBytes (id : Int64) : (idBytes width id).size = width := by
  rw [← length_toList, toList_idBytes, ByteOrder.length_write]

@[simp] theorem size_codeBytes (code : String) : (codeBytes code).size = 4 := by
  rw [← length_toList, codeBytes, toList_toByteArray]
  simp

theorem size_counted_le (text : String) : (counted text).size ≤ 256 := by
  rw [counted, ByteArray.size_append, size_number, ByteArray.size_extract, textLimit]
  omega

theorem one_le_length_counted (text : String) : 1 ≤ (counted text).toList.length := by
  rw [counted, toList_append, List.length_append, length_toList, size_number]
  exact Nat.le_add_right 1 _

/-- What members of a chain have in common with the first one. -/
theorem eq_of_isChain {κ : Type} (key : α → κ) {r : α → α → Bool}
    (same : ∀ a b, r a b = true → key a = key b) {first : α} {rest : List α}
    (chain : (first :: rest).IsChain fun a b => r a b = true) : ∀ a ∈ rest, key a = key first := by
  induction rest generalizing first with
  | nil => simp
  | cons next rest ih =>
    obtain ⟨step, others⟩ := List.isChain_cons_cons.1 chain
    have link := same first next step
    intro a member
    rcases List.mem_cons.1 member with rfl | later
    · exact link.symm
    · exact (ih others a later).trans link.symm

/-! ### Two entries in one archive -/

namespace Sample

def face : ArchiveEntry where
  code := "PICT"
  id := -5
  name := "face"
  data := ⟨#[1, 2, 3]⟩
  attributes := ⟨[("size", "9")]⟩

def icon : ArchiveEntry where
  code := "ICON"
  id := 700

theorem added (format : Format) :
    [face, icon].foldlM add { format } = .ok { format, entries := [face, icon] } := rfl

theorem sorted_eq (format : Format) :
    ({ format, entries := [face, icon] } : Archive).sorted = [icon, face] := by
  have order : (face.compare icon).isLE = false := by decide
  simp [sorted, List.mergeSort, order]

end Sample

end Rsrc.Archive
