import Rsrc.Proofs.Encoding.Value

/-!
# Reading back cells

Cells regroup the entries of a section without changing their order. Each of them is read back
into the slots of its entries, given that nested types are.
-/

namespace Rsrc

variable {τ : Type}

/-! ### Filling slots -/

namespace Slot

variable {read : Tag → Option Value → Value} {source : Record} {P : Tag → Option Value → Prop}

mutual

/-- Fills a slot of `target` with what `read` makes of the value that `source` has there. -/
def into (read : Tag → Option Value → Value) (source : Record) : Slot → Record → Record
  | value key tag, target => target.set key (read tag (source.get? key))
  | list key owned members, target =>
    target.appendEntries key
      (if owned then (source.list key).map fun element => allInto read element members {} else [])

def allInto (read : Tag → Option Value → Value) (source : Record) : List Slot → Record → Record
  | [], target => target
  | slot :: rest, target => allInto read source rest (slot.into read source target)

end

theorem allInto_eq_foldl (slots : List Slot) (target : Record) :
    allInto read source slots target =
      slots.foldl (fun target slot => slot.into read source target) target := by
  induction slots generalizing target with
  | nil => rfl
  | cons slot slots ih => exact ih _

theorem allInto_flatMap {α : Type} (f : α → List Slot) (items : List α) (target : Record) :
    allInto read source (items.flatMap f) target =
      items.foldl (fun target a => allInto read source (f a) target) target := by
  simp only [allInto_eq_foldl, List.foldl_flatMap]

mutual

/-- Every value that is stored from a record has the property, elements of lists included. -/
def Holds (P : Tag → Option Value → Prop) (source : Record) : Slot → Prop
  | value key tag => P tag (source.get? key)
  | list key owned members => owned = true → ∀ element ∈ source.list key, AllHold P element members

def AllHold (P : Tag → Option Value → Prop) (source : Record) : List Slot → Prop
  | [] => True
  | slot :: rest => slot.Holds P source ∧ AllHold P source rest

end

theorem allHold_iff {slots : List Slot} :
    AllHold P source slots ↔ ∀ slot ∈ slots, slot.Holds P source := by
  induction slots with
  | nil => simp [AllHold]
  | cons slot slots ih => simp [AllHold, ih]

theorem AllHold.of_mem {α : Type} {f : α → List Slot} {items : List α}
    (h : AllHold P source (items.flatMap f)) {a : α} (member : a ∈ items) : AllHold P source (f a) :=
  allHold_iff.2 fun slot inside =>
    allHold_iff.1 h slot (List.mem_flatMap.2 ⟨a, member, inside⟩)

end Slot

/-! ### Cells -/

namespace Cell

def entries : Cell τ → List (Entry τ)
  | bits run => run
  | one e => [e]

/-- A run of one to eight bits, or an entry that is not a bit. -/
def WellFormed : Cell τ → Prop
  | bits run => run ≠ [] ∧ run.length ≤ 8 ∧ ∀ e ∈ run, e.tag = .bit
  | one e => e.tag ≠ .bit

theorem entries_ofRun (run : List (Entry τ)) : (ofRun run).flatMap entries = run := by
  cases run <;> simp [ofRun, entries]

theorem entries_ofEntriesBehind (run es : List (Entry τ)) :
    (ofEntriesBehind run es).flatMap entries = run ++ es := by
  induction es generalizing run with
  | nil => simp [ofEntriesBehind, entries_ofRun]
  | cons e es ih =>
    rw [ofEntriesBehind]
    split
    · split
      · simp [ih]
      · simp [ih, entries]
    · simp [ih, entries, entries_ofRun]

theorem entries_ofEntries (es : List (Entry τ)) : (ofEntries es).flatMap entries = es :=
  entries_ofEntriesBehind [] es

theorem mem_of_mem_ofEntries {es : List (Entry τ)} {c : Cell τ} (h : c ∈ ofEntries es) {e : Entry τ}
    (member : e ∈ c.entries) : e ∈ es := by
  rw [← entries_ofEntries es]
  exact List.mem_flatMap.2 ⟨c, h, member⟩

theorem wellFormed_ofRun {run : List (Entry τ)} (short : run.length ≤ 8)
    (bit : ∀ e ∈ run, e.tag = .bit) : ∀ c ∈ ofRun run, c.WellFormed := by
  intro c member
  cases run with
  | nil => cases member
  | cons e run =>
    obtain rfl : c = .bits (e :: run) := by simpa [ofRun] using member
    exact ⟨by simp, short, bit⟩

theorem wellFormed_ofEntriesBehind {run es : List (Entry τ)} (short : run.length ≤ 7)
    (bit : ∀ e ∈ run, e.tag = .bit) : ∀ c ∈ ofEntriesBehind run es, c.WellFormed := by
  induction es generalizing run with
  | nil => exact wellFormed_ofRun (by omega) bit
  | cons e es ih =>
    intro c member
    rw [ofEntriesBehind] at member
    split at member
    · rename_i isBit
      have bits : ∀ e' ∈ run ++ [e], e'.tag = .bit := by
        intro e' member
        rcases List.mem_append.1 member with old | new
        · exact bit e' old
        · rw [List.mem_singleton.1 new, isBit]
      split at member
      · exact ih (by simp; omega) bits c member
      · rcases List.mem_cons.1 member with rfl | later
        · exact ⟨by simp, by simp; omega, bits⟩
        · exact ih (by simp) (by simp) c later
    · rename_i notBit
      rcases List.mem_append.1 member with old | new
      · exact wellFormed_ofRun (by omega) bit c old
      · rcases List.mem_cons.1 new with rfl | later
        · exact notBit
        · exact ih (by simp) (by simp) c later

theorem wellFormed_ofEntries {es : List (Entry τ)} : ∀ c ∈ ofEntries es, c.WellFormed :=
  wellFormed_ofEntriesBehind (by simp) (by simp)

theorem ofEntriesBehind_concat {e : Entry τ} (h : e.tag ≠ .bit) (run es : List (Entry τ)) :
    ofEntriesBehind run (es ++ [e]) = ofEntriesBehind run es ++ [.one e] := by
  induction es generalizing run with
  | nil => simp [ofEntriesBehind, h, ofRun]
  | cons e' es ih =>
    rw [List.cons_append, ofEntriesBehind, ofEntriesBehind]
    split
    · split <;> simp [ih]
    · simp [ih]

end Cell

/-! ### Bits -/

theorem weighBits_lt (k : Nat) (bits : List Bool) (h : bits.length ≤ k + 1) :
    Encoding.weighBits (2 ^ k) bits < 2 ^ (k + 1) := by
  induction bits generalizing k with
  | nil => exact Nat.two_pow_pos _
  | cons b bits ih =>
    cases k with
    | zero =>
      obtain rfl : bits = [] := by simpa using h
      cases b <;> simp [Encoding.weighBits]
    | succ k =>
      have half : 2 ^ (k + 1) / 2 = 2 ^ k := by rw [pow_succ]; omega
      have rest := ih k (by simpa using h)
      rw [Encoding.weighBits, half, pow_succ]
      split <;> omega

/-- The bits of a byte are those that its low part was made of. -/
theorem unpackBits_eq (byte : UInt8) (k : Nat) (bits : List Bool) (h : bits.length ≤ k + 1)
    (low : byte.toNat % 2 ^ (k + 1) = Encoding.weighBits (2 ^ k) bits) :
    Decoding.unpackBits byte (2 ^ k) bits.length = bits := by
  induction bits generalizing k with
  | nil => rfl
  | cons b bits ih =>
    cases k with
    | zero =>
      obtain rfl : bits = [] := by simpa using h
      cases b <;> simp_all [Encoding.weighBits, Decoding.unpackBits]
    | succ k =>
      -- The first bit is the topmost one of the low part, and the others weigh less than it.
      have half : 2 ^ (k + 1) / 2 = 2 ^ k := by rw [pow_succ]; omega
      have bound := weighBits_lt k bits (by simpa using h)
      rw [Encoding.weighBits, half] at low
      have split := Nat.mod_mul (x := byte.toNat) (a := 2 ^ (k + 1)) (b := 2)
      rw [← pow_succ, low] at split
      have small := Nat.mod_lt byte.toNat (Nat.two_pow_pos (k + 1))
      rw [List.length_cons, Decoding.unpackBits, half]
      cases b with
      | true =>
        have top : byte.toNat / 2 ^ (k + 1) % 2 = 1 := by
          rcases Nat.mod_two_eq_zero_or_one (byte.toNat / 2 ^ (k + 1)) with zero | one
          · simp only [if_true, zero] at split
            omega
          · exact one
        simp only [if_true, top] at split
        rw [ih k (by simpa using h) (by omega), top]
        rfl
      | false =>
        have top : byte.toNat / 2 ^ (k + 1) % 2 = 0 := by
          rcases Nat.mod_two_eq_zero_or_one (byte.toNat / 2 ^ (k + 1)) with zero | one
          · exact zero
          · simp only [Bool.false_eq_true, if_false, one] at split
            omega
        simp only [Bool.false_eq_true, if_false, top] at split
        rw [ih k (by simpa using h) (by omega), top]
        rfl

theorem unpackBits_packBits {bits : List Bool} (h : bits.length ≤ 8) :
    Decoding.unpackBits (Encoding.packBits bits) 128 bits.length = bits := by
  have bound : Encoding.weighBits 128 bits < 2 ^ 8 := weighBits_lt 7 bits h
  refine unpackBits_eq _ 7 bits h ?_
  rw [Encoding.packBits, Text.toNat_ofNat bound]
  exact Nat.mod_eq_of_lt bound

/-! ### Reading cells -/

open Decoding (Reads)

/-- What is read back from the bytes of a value. -/
def Slot.readBack (format : Format) (tag : Tag) (v : Option Value) : Value :=
  asRead (canonicalValue format tag v)

/-- The type behind an entry, if there is one, is read back into its slots. -/
def Entry.Readable (format : Format) (encode : Encoding.Nested τ) (decode : Decoding.Nested τ)
    (slots : τ → String → List Slot) (e : Entry τ) : Prop :=
  ∀ t, e.nested = some t → ∀ source front bytes,
    Slot.AllHold Slot.NulFree source (slots t front) → encode t source front = .ok bytes →
      ∀ target, Reads (decode t target front) bytes
        (Slot.allInto (Slot.readBack format) source (slots t front) target)

section Cells

variable {s : Subject} {format : Format} {order : ByteOrder} {encode : Encoding.Nested τ}
  {decode : Decoding.Nested τ} {slots : τ → String → List Slot} {source : Record}
  {front : String} {bytes : List UInt8}

theorem mapM_booleanOf {run : List (Entry τ)} {bits : List Bool}
    (h : run.mapM (fun e => Encoding.booleanOf s (front ++ e.label)
      (source.get? (front ++ e.label))) = .ok bits) :
    bits = run.map fun e => Slot.booleanOf (source.get? (front ++ e.label)) := by
  induction run generalizing bits with
  | nil => cases h; rfl
  | cons e run ih =>
    rw [List.mapM_cons] at h
    obtain ⟨b, first, h⟩ := exists_of_bind_eq_ok h
    obtain ⟨rest, others, h⟩ := exists_of_bind_eq_ok h
    cases h
    rw [List.map_cons, ← ih others, Slot.eq_booleanOf first]

theorem ofEntry_bit {e : Entry τ} (h : e.tag = .bit) :
    Slot.ofEntry slots front e = [.value (front ++ e.label) .bit] := by
  simp [Slot.ofEntry, h]

theorem foldl_zip_bits (run : List (Entry τ)) (bit : ∀ e ∈ run, e.tag = .bit) (target : Record) :
    (run.zip (run.map fun e => Slot.booleanOf (source.get? (front ++ e.label)))).foldl
        (fun r (e, b) => r.set (front ++ e.label) (.boolean b)) target =
      Slot.allInto (Slot.readBack format) source (run.flatMap (Slot.ofEntry slots front))
        target := by
  induction run generalizing target with
  | nil => rfl
  | cons e run ih =>
    rw [List.flatMap_cons, ofEntry_bit (bit e List.mem_cons_self), List.singleton_append]
    exact ih (fun e' member => bit e' (List.mem_cons_of_mem _ member)) _

theorem reads_bits {run : List (Entry τ)} (nonempty : run ≠ []) (short : run.length ≤ 8)
    (bit : ∀ e ∈ run, e.tag = .bit)
    (h : Encoding.cell s format order encode source front (.bits run) = .ok bytes)
    (target : Record) :
    Reads (Decoding.cell format order decode front target (.bits run)) bytes
      (Slot.allInto (Slot.readBack format) source (run.flatMap (Slot.ofEntry slots front))
        target) := by
  obtain ⟨bits, found, h⟩ := exists_of_bind_eq_ok h
  cases h
  have same := mapM_booleanOf found
  rw [← foldl_zip_bits run bit target, ← same]
  cases run with
  | nil => exact absurd rfl nonempty
  | cons first run =>
    -- One byte holds the whole run.
    have length : bits.length = (first :: run).length := by simp [same]
    have unpacked := unpackBits_packBits (length ▸ short : bits.length ≤ 8)
    rw [length, List.length_cons] at unpacked
    have read := (Reads.takeByte (front ++ first.label) (Encoding.packBits bits)).map fun byte =>
      ((first :: run).zip (Decoding.unpackBits (byte.headD 0) 128 (run.length + 1))).foldl
        (fun r (e, b) => r.set (front ++ e.label) (.boolean b)) target
    rw [List.headD_cons, unpacked] at read
    exact read

theorem reads_sides (key : String) (target : Record)
    (h : Encoding.concat (fun name => Encoding.side s order (key ++ "." ++ name)
      (source.get? (key ++ "." ++ name))) Encoding.rectSides = .ok bytes) :
    Reads (Encoding.rectSides.foldlM (fun (r : Record) name => do
        return r.set (key ++ "." ++ name)
          (.integer (← Decoding.integer order (key ++ "." ++ name) 2 true))) target) bytes
      (Slot.allInto (Slot.readBack format) source
        (Encoding.rectSides.map fun side => .value (key ++ "." ++ side) (.integer .two true))
        target) := by
  obtain ⟨each, rfl⟩ := Encoding.concat_eq_ok h
  rw [Slot.allInto_eq_foldl, List.foldl_map]
  refine Reads.foldlM (fun name member target => ?_) target
  exact (Slot.reads_side (each name member)).map fun n =>
    target.set (key ++ "." ++ name) (.integer n)

/-- An entry that is read back whatever follows it: no list marker, and not data up to the end. -/
def Entry.Closed (e : Entry τ) : Prop := e.tag.isListMarker = false ∧ e.tag ≠ .data

theorem reads_one {e : Entry τ} (notBit : e.tag ≠ .bit) (closed : e.Closed)
    (readable : e.Readable format encode decode slots)
    (free : Slot.AllHold Slot.NulFree source (Slot.ofEntry slots front e))
    (h : Encoding.cell s format order encode source front (.one e) = .ok bytes)
    (target : Record) :
    Reads (Decoding.cell format order decode front target (.one e)) bytes
      (Slot.allInto (Slot.readBack format) source (Slot.ofEntry slots front e) target) := by
  obtain ⟨label, tag, nested, size⟩ := e
  obtain ⟨noMarker, noData⟩ := closed
  -- A value under a tag of its own, where the slot has the same key and tag.
  have single (isClosed : Slot.isClosed tag = true)
      (free : Slot.NulFree tag (source.get? (front ++ label)))
      (h : Encoding.value s format order tag (front ++ label) (source.get? (front ++ label)) =
        .ok bytes) :
      Reads (do
          return target.set (front ++ label)
            (← Decoding.value format order tag (front ++ label))) bytes
        (target.set (front ++ label)
          (Slot.readBack format tag (source.get? (front ++ label)))) :=
    (Slot.reads_value isClosed free h).map (target.set (front ++ label))
  cases tag with
  | rect =>
    cases nested with
    | none => exact reads_sides (front ++ label) target h
    | some t => exact readable t rfl _ _ _ free h target
  | nested name =>
    cases nested with
    | none => exact reads_sides (front ++ label) target h
    | some t => exact readable t rfl _ _ _ free h target
  | bit => exact absurd rfl notBit
  | data => exact absurd rfl noData
  | count | listStart | listEnd => cases noMarker
  | _ => exact single rfl free.1 h

theorem reads_cell {c : Cell τ} (wellFormed : c.WellFormed) (closed : ∀ e ∈ c.entries, e.Closed)
    (readable : ∀ e ∈ c.entries, e.Readable format encode decode slots)
    (free : Slot.AllHold Slot.NulFree source (c.entries.flatMap (Slot.ofEntry slots front)))
    (h : Encoding.cell s format order encode source front c = .ok bytes) (target : Record) :
    Reads (Decoding.cell format order decode front target c) bytes
      (Slot.allInto (Slot.readBack format) source
        (c.entries.flatMap (Slot.ofEntry slots front)) target) := by
  cases c with
  | bits run => exact reads_bits wellFormed.1 wellFormed.2.1 wellFormed.2.2 h target
  | one e =>
    have member : e ∈ (Cell.one e).entries := List.mem_singleton_self e
    have same : (Cell.one e).entries.flatMap (Slot.ofEntry slots front) =
        Slot.ofEntry slots front e := by simp [Cell.entries]
    rw [same] at free ⊢
    exact reads_one wellFormed (closed e member) (readable e member) free h target

/-- Entries are read back into their slots. -/
theorem reads_entries {es : List (Entry τ)} (closed : ∀ e ∈ es, e.Closed)
    (readable : ∀ e ∈ es, e.Readable format encode decode slots)
    (free : Slot.AllHold Slot.NulFree source (es.flatMap (Slot.ofEntry slots front)))
    (h : Encoding.entries s format order encode source front es = .ok bytes) (target : Record) :
    Reads (Decoding.entries format order decode front target es) bytes
      (Slot.allInto (Slot.readBack format) source (es.flatMap (Slot.ofEntry slots front))
        target) := by
  obtain ⟨each, rfl⟩ := Encoding.concat_eq_ok h
  -- The slots of the entries are those of the cells.
  have grouped : es.flatMap (Slot.ofEntry slots front) =
      (Cell.ofEntries es).flatMap fun c => c.entries.flatMap (Slot.ofEntry slots front) := by
    rw [← List.flatMap_assoc, Cell.entries_ofEntries]
  rw [grouped] at free ⊢
  rw [Slot.allInto_flatMap]
  refine Reads.foldlM (fun c member target => ?_) target
  exact reads_cell (Cell.wellFormed_ofEntries c member)
    (fun e here => closed e (Cell.mem_of_mem_ofEntries member here))
    (fun e here => readable e (Cell.mem_of_mem_ofEntries member here)) (free.of_mem member)
    (each c member) target

end Cells

end Rsrc
