import Rsrc.Proofs.Encoding.Cell
import Rsrc.Proofs.Template

/-!
# Reading back whole types

Sections are read back into their slots, and so are types, by induction over what is nested in what.
The types are those whose lists pair up and that hold no data up to the end, at any depth.
-/

namespace Rsrc

open Decoding (Reads)

variable {τ σ : Type} {P : TypeDef → Prop} {d : TypeDef} {nested : σ → String → List Slot}

/-! ### The slots of a template -/

theorem Slot.ofEntry_map (h : τ → σ) (front : String) (e : Entry τ) :
    ofEntry nested front (e.map h) = ofEntry (fun t => nested (h t)) front e := by
  obtain ⟨label, tag, inner, size⟩ := e
  cases tag <;> cases inner <;> rfl

theorem Slot.ofSection_map (fields : List Field) (h : τ → σ) (front : String) (part : Section τ) :
    ofSection fields nested front (part.map h) =
      ofSection fields (fun t => nested (h t)) front part := by
  cases part <;> simp [Section.map, ofSection, List.flatMap_map, ofEntry_map]

/-- The slots over the template itself. -/
theorem TypeDef.slots_eq (front : String) :
    d.slots front =
      d.template.sections.flatMap (Slot.ofSection d.fields TypeDef.slots front) := by
  rw [slots, ← layout_sections, List.flatMap_map]
  simp only [Slot.ofSection_map]
  rfl

/-! ### Reading sections -/

section Sections

variable {s : Subject} {format : Format} {order : ByteOrder} {encode : Encoding.Nested τ}
  {decode : Decoding.Nested τ} {slots : τ → String → List Slot} {source : Record} {front : String}
  {bytes : List UInt8} {fields : List Field}

/-- The elements that are stored for the list with a given count. -/
def Encoding.elements (fields : List Field) (source : Record) (front : String) (count : Entry τ) :
    List Record :=
  ((listOwner? fields count.label).map fun f => source.list (front ++ f.name)).getD []

theorem sectionBytes_list {count : Entry τ} {members : List (Entry τ)}
    (h : Encoding.sectionBytes s format order fields encode source front (.list count members) =
      .ok bytes) :
    ∃ stored, (Encoding.elements fields source front count).length < 256 ^ 2 ∧
      Encoding.concat (fun element => Encoding.entries s format order encode element "" members)
        (Encoding.elements fields source front count) = .ok stored ∧
      bytes = order.write 2 (Int64.ofNat (Encoding.elements fields source front count).length) ++
        stored := by
  simp only [Encoding.sectionBytes] at h
  split at h
  · cases h
  · rename_i within
    simp only [Bool.or_eq_true, decide_eq_true_eq, not_or, not_lt] at within
    obtain ⟨bytes', stored, h⟩ := exists_of_bind_eq_ok h
    cases h
    exact ⟨bytes', Nat.lt_of_le_of_lt within.2 (by decide), stored, rfl⟩

theorem into_list (read : Tag → Option Value → Value) (count : Entry τ) (members : List Slot)
    (target : Record) :
    (Slot.list (front ++ ((listOwner? fields count.label).map (·.name)).getD count.label)
        (listOwner? fields count.label).isSome members).into read source target =
      target.appendEntries
        (front ++ ((listOwner? fields count.label).map (·.name)).getD count.label)
        ((Encoding.elements fields source front count).map fun element =>
          Slot.allInto read element members {}) := by
  rw [Encoding.elements, Slot.into]
  cases listOwner? fields count.label <;> rfl

theorem holds_elements {P : Tag → Option Value → Prop} {count : Entry τ} {members : List Slot}
    (h : (Slot.list (front ++ ((listOwner? fields count.label).map (·.name)).getD count.label)
      (listOwner? fields count.label).isSome members).Holds P source) :
    ∀ element ∈ Encoding.elements fields source front count,
      Slot.AllHold P element members := by
  intro element member
  rw [Encoding.elements] at member
  rw [Slot.Holds] at h
  cases owner : listOwner? fields count.label with
  | none => simp [owner] at member
  | some f =>
    rw [owner] at h member
    exact h rfl element member

theorem reads_section {part : Section τ} (closed : ∀ e ∈ part.entries, e.Closed)
    (readable : ∀ e ∈ part.entries, e.Readable format encode decode slots)
    (free : Slot.AllHold Slot.NulFree source (Slot.ofSection fields slots front part))
    (h : Encoding.sectionBytes s format order fields encode source front part = .ok bytes)
    (target : Record) :
    Reads (Decoding.readSection format order fields decode front target part) bytes
      (Slot.allInto (Slot.readBack format) source (Slot.ofSection fields slots front part)
        target) := by
  cases part with
  | plain es => exact reads_entries closed readable free h target
  | list count members =>
    obtain ⟨stored, fits, elements, rfl⟩ := sectionBytes_list h
    obtain ⟨each, rfl⟩ := Encoding.concat_eq_ok elements
    -- The keys of an element stand behind nothing, and each starts from an empty record.
    have inside := holds_elements free.1
    have read : Reads (Decoding.times (Decoding.entries format order decode "" {} members)
        (Encoding.elements fields source front count).length) _ _ :=
      Reads.times fun element member =>
        reads_entries closed readable (inside element member) (each element member) {}
    rw [Slot.ofSection, Slot.allInto, Slot.allInto, into_list]
    refine (Reads.take (ByteOrder.length_write order 2 _) (front ++ count.label)).bind ?_
    rw [ByteOrder.readNat_write_ofNat (by decide) fits]
    exact read.map (target.appendEntries _)

theorem reads_sections {parts : List (Section τ)}
    (closed : ∀ part ∈ parts, ∀ e ∈ part.entries, e.Closed)
    (readable : ∀ part ∈ parts, ∀ e ∈ part.entries, e.Readable format encode decode slots)
    (free : Slot.AllHold Slot.NulFree source (parts.flatMap (Slot.ofSection fields slots front)))
    (h : Encoding.concat (Encoding.sectionBytes s format order fields encode source front) parts =
      .ok bytes) (target : Record) :
    Reads (parts.foldlM (Decoding.readSection format order fields decode front) target) bytes
      (Slot.allInto (Slot.readBack format) source
        (parts.flatMap (Slot.ofSection fields slots front)) target) := by
  obtain ⟨each, rfl⟩ := Encoding.concat_eq_ok h
  rw [Slot.allInto_flatMap]
  refine Reads.foldlM (fun part member target => ?_) target
  exact reads_section (closed part member) (readable part member) (free.of_mem member)
    (each part member) target

end Sections

/-! ### Reading types -/

/-- A type and everything that is nested in it has the property. -/
inductive TypeDef.Everywhere (P : TypeDef → Prop) : TypeDef → Prop where
  | intro {d : TypeDef} (here : P d)
      (nested : ∀ e ∈ d.template.entries, ∀ t, e.nested = some t → Everywhere P t) :
      Everywhere P d

/-- The template is one that was accepted. -/
def TypeDef.Validated (d : TypeDef) : Prop :=
  ∃ t : Template TypeDef, t.validate = .ok d.template

/-- No entry holds data up to the end. -/
def TypeDef.Delimited (d : TypeDef) : Prop := ∀ e ∈ d.template.entries, e.tag ≠ .data

theorem TypeDef.Everywhere.here (h : d.Everywhere P) : P d := by
  obtain ⟨here, -⟩ := h
  exact here

theorem TypeDef.Everywhere.and {Q : TypeDef → Prop} (h : d.Everywhere P) (h' : d.Everywhere Q) :
    d.Everywhere fun t => P t ∧ Q t := by
  induction h with
  | intro here nested ih =>
    obtain ⟨here', nested'⟩ := h'
    exact .intro ⟨here, here'⟩ fun e member t found =>
      ih e member t found (nested' e member t found)

theorem TypeDef.Everywhere.mono {Q : TypeDef → Prop} (imp : ∀ t, P t → Q t) (h : d.Everywhere P) :
    d.Everywhere Q := by
  induction h with
  | intro here nested ih => exact .intro (imp _ here) ih

theorem TypeDef.Validated.balanced (h : d.Validated) : Template.Balanced d.template.entries := by
  obtain ⟨t, accepted⟩ := h
  exact Template.balanced_of_validate accepted

/-- The entries of a section are entries of the template that hold values. -/
theorem mem_template (balanced : Template.Balanced d.template.entries) {part : Section TypeDef}
    (h : part ∈ d.template.sections) {e : Entry TypeDef} (member : e ∈ part.entries) :
    e ∈ d.template.entries ∧ e.tag.isListMarker = false := by
  rcases Section.mem_entries balanced h member with none | found
  · cases none
  · exact found

/-- A type is read back into its slots. -/
theorem TypeDef.reads_decodeInto (s : Subject) (format : Format)
    (sound : d.Everywhere fun t => Template.Balanced t.template.entries ∧ t.Delimited)
    (source : Record) (front : String) (bytes : List UInt8)
    (free : Slot.AllHold Slot.NulFree source (d.slots front))
    (h : d.encode s format source front = .ok bytes) (target : Record) :
    Reads (d.decodeInto format target front) bytes
      (Slot.allInto (Slot.readBack format) source (d.slots front) target) := by
  induction sound generalizing source front bytes target with
  | @intro d here nested ih =>
    obtain ⟨balanced, delimited⟩ := here
    rw [slots_eq] at free ⊢
    rw [encode_eq] at h
    rw [decodeInto_eq]
    refine reads_sections ?_ ?_ free h target
    · intro part inside e member
      obtain ⟨known, plain⟩ := mem_template balanced inside member
      exact ⟨plain, delimited e known⟩
    · -- What is nested is read back by the hypothesis, behind any key and into any record.
      intro part inside e member t found source front bytes free h target
      have known := (mem_template balanced inside member).1
      exact ih e known t found source front bytes free h target

end Rsrc
