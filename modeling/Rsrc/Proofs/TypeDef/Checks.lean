import Rsrc.Proofs.Encoding.Regular

/-!
# What is known of a field that has been accepted

A field is checked part by part against the template and the fields so far. There is one lemma for each
check that says all that holds when it has passed, and `TypeDef.accepts_of_addField` puts them together.
-/

namespace Rsrc

/-! ### Results of a list of checks -/

section Results

variable {ε α β γ : Type} {f : α → Except ε β} {items : List α} {results : List β}

theorem mapM_cons_eq_ok {a : α} (h : (a :: items).mapM f = .ok results) :
    ∃ b rest, f a = .ok b ∧ items.mapM f = .ok rest ∧ results = b :: rest := by
  rw [List.mapM_cons] at h
  obtain ⟨b, here, h⟩ := exists_of_bind_eq_ok h
  obtain ⟨rest, later, h⟩ := exists_of_bind_eq_ok h
  cases h
  exact ⟨b, rest, here, later, rfl⟩

theorem mem_of_mapM_eq_ok (h : items.mapM f = .ok results) :
    ∀ b ∈ results, ∃ a ∈ items, f a = .ok b := by
  induction items generalizing results with
  | nil =>
    cases h
    simp
  | cons a items ih =>
    obtain ⟨first, rest, here, later, rfl⟩ := mapM_cons_eq_ok h
    intro b member
    rcases List.mem_cons.1 member with rfl | member
    · exact ⟨a, List.mem_cons_self, here⟩
    · obtain ⟨a', known, made⟩ := ih later b member
      exact ⟨a', List.mem_cons_of_mem _ known, made⟩

theorem exists_mapM_eq_ok_iff :
    (∃ results, items.mapM f = .ok results) ↔ ∀ a ∈ items, ∃ b, f a = .ok b := by
  induction items with
  | nil => exact ⟨fun _ => by simp, fun _ => ⟨[], rfl⟩⟩
  | cons a items ih =>
    rw [List.forall_mem_cons, ← ih]
    constructor
    · rintro ⟨results, h⟩
      obtain ⟨first, rest, here, later, -⟩ := mapM_cons_eq_ok h
      exact ⟨⟨first, here⟩, rest, later⟩
    · rintro ⟨⟨first, here⟩, rest, later⟩
      exact ⟨first :: rest, by rw [List.mapM_cons, here, later]; rfl⟩

theorem map_eq_of_mapM_eq_ok {g : β → γ} {g' : α → γ} (h : items.mapM f = .ok results)
    (same : ∀ a b, f a = .ok b → g b = g' a) : results.map g = items.map g' := by
  induction items generalizing results with
  | nil =>
    cases h
    rfl
  | cons a items ih =>
    obtain ⟨first, rest, here, later, rfl⟩ := mapM_cons_eq_ok h
    simp [same a first here, ih later]

end Results

/-! ### Values -/

/-- A descriptor that follows from a tag fits it. -/
theorem Descriptor.accepts_ofTag {tag : Tag} (free : tag.isListMarker = false) :
    (ofTag tag).accepts tag = true := by
  cases tag <;> simp_all [ofTag, accepts, Tag.isListMarker, Tag.isInteger, Tag.integerLayout, Tag.isText]

namespace TypeDef

variable {d : TypeDef} {f : Field}

/-- The value has an entry in the template that holds values of its descriptor. -/
def Storable (d : TypeDef) (v : FieldValue) : Prop :=
  ∃ e, d.template.entry? v.name = some e ∧ e.tag.isListMarker = false ∧
    ∃ descriptor, v.descriptor = some descriptor ∧ descriptor.accepts e.tag = true

theorem fieldOfLabel?_eq_none {label : String} :
    d.fieldOfLabel? label = none ↔ ∀ f ∈ d.fields, label ∉ f.labels := by
  simp [fieldOfLabel?]

theorem checkValue_eq_ok {name : String} {v v' : FieldValue} (h : d.checkValue name v = .ok v') :
    v'.name = v.name ∧ v'.joined = v.joined ∧ d.Storable v' ∧
      (∀ f ∈ d.fields, v.name ∉ f.labels) ∧
      ∀ descriptor, v.descriptor = some descriptor → v'.descriptor = some descriptor := by
  unfold checkValue at h
  cases found : d.template.entry? v.name with
  | none =>
    rw [found] at h
    cases h
  | some e =>
    rw [found] at h
    dsimp only at h
    by_cases marker : e.tag.isListMarker
    · rw [if_pos marker] at h
      cases h
    · rw [if_neg marker] at h
      have plain : e.tag.isListMarker = false := by simpa using marker
      cases claimed : d.fieldOfLabel? v.name with
      | some owner =>
        rw [claimed] at h
        cases h
      | none =>
        rw [claimed] at h
        dsimp only at h
        have unclaimed := fieldOfLabel?_eq_none.1 claimed
        cases written : v.descriptor with
        | none =>
          rw [written] at h
          cases h
          have storable : d.Storable { v with descriptor := some (.ofTag e.tag) } :=
            ⟨e, found, plain, _, rfl, Descriptor.accepts_ofTag plain⟩
          exact ⟨rfl, rfl, storable, unclaimed, by simp⟩
        | some descriptor =>
          rw [written] at h
          dsimp only at h
          by_cases accepted : descriptor.accepts e.tag
          · rw [if_pos accepted] at h
            cases h
            exact ⟨rfl, rfl, ⟨e, found, plain, descriptor, written, accepted⟩, unclaimed,
              fun _ same => written.trans same⟩
          · rw [if_neg accepted] at h
            cases h

/-- All parts of a value have been checked, and but for descriptors they are what they were. -/
theorem checkParts_eq_ok {name : String} {v v' : FieldValue} (h : d.checkParts name v = .ok v') :
    v'.parts.map (·.name) = v.parts.map (·.name) ∧
      v'.joined.map (·.joined) = v.joined.map (·.joined) ∧
      ∀ p ∈ v'.parts, d.Storable p ∧ ∀ f ∈ d.fields, p.name ∉ f.labels := by
  unfold checkParts at h
  obtain ⟨checked, here, h⟩ := exists_of_bind_eq_ok h
  obtain ⟨joined, more, h⟩ := exists_of_bind_eq_ok h
  cases h
  obtain ⟨named, -, storable, unclaimed, -⟩ := checkValue_eq_ok here
  refine ⟨?_, ?_, fun p member => ?_⟩
  · have names := map_eq_of_mapM_eq_ok more fun a b made => (checkValue_eq_ok made).1
    simp [FieldValue.parts, named, names]
  · exact map_eq_of_mapM_eq_ok more fun a b made => (checkValue_eq_ok made).2.1
  · rcases List.mem_cons.1 member with rfl | member
    · exact ⟨storable, by rwa [← named] at unclaimed⟩
    · obtain ⟨q, -, made⟩ := mem_of_mapM_eq_ok more p member
      obtain ⟨named, -, storable, unclaimed, -⟩ := checkValue_eq_ok made
      exact ⟨storable, by rwa [named]⟩

/-! ### Places -/

theorem mem_labels {p : FieldValue} (h : p ∈ f.parts) : p.name ∈ f.labels :=
  List.mem_map_of_mem h

/-- The labels of the field are all outside lists, or all in the list of a count that no other field
has. -/
structure Placed (d : TypeDef) (f : Field) : Prop where
  single : f.repetition = none → ∀ label ∈ f.labels, d.isInList label = false
  repeated : ∀ r, f.repetition = some r → ∃ g, d.template.groupCountedBy? r.count = some g ∧
    (0 ≤ r.lower ∧ r.lower ≤ r.upper) ∧ listOwner? d.fields r.count = none ∧
    ∀ label ∈ f.labels, d.isInGroup g label = true

theorem checkRepetition_eq_ok_iff {r : Repetition} :
    d.checkRepetition f r = .ok () ↔ ∃ g, d.template.groupCountedBy? r.count = some g ∧
      (0 ≤ r.lower ∧ r.lower ≤ r.upper) ∧ listOwner? d.fields r.count = none ∧
      ∀ label ∈ f.labels, d.isInGroup g label = true := by
  constructor
  · intro h
    unfold checkRepetition at h
    cases counted : d.template.groupCountedBy? r.count with
    | none =>
      rw [counted] at h
      cases h
    | some g =>
      rw [counted] at h
      dsimp only at h
      by_cases bounds : r.lower < 0 || r.upper < r.lower
      · rw [if_pos bounds] at h
        cases h
      · rw [if_neg bounds] at h
        have ordered : 0 ≤ r.lower ∧ r.lower ≤ r.upper := by
          simpa [Int64.not_lt] using bounds
        cases owned : d.fields.find? (·.repetition.any (·.count == r.count)) with
        | some other =>
          rw [owned] at h
          cases h
        | none =>
          rw [owned] at h
          dsimp only at h
          cases strayed : f.labels.find? (!d.isInGroup g ·) with
          | some label =>
            rw [strayed] at h
            cases h
          | none =>
            refine ⟨g, rfl, ordered, owned, fun label member => ?_⟩
            simpa using List.find?_eq_none.1 strayed label member
  · rintro ⟨g, counted, ordered, owned, inside⟩
    have bounds : ¬(r.lower < 0 || r.upper < r.lower) := by simpa [Int64.not_lt] using ordered
    have kept : f.labels.find? (!d.isInGroup g ·) = none := by simpa using inside
    unfold listOwner? at owned
    unfold checkRepetition
    rw [counted]
    dsimp only
    rw [if_neg bounds, owned, kept]
    rfl

theorem checkPlacement_eq_ok_iff : d.checkPlacement f = .ok () ↔ d.Placed f := by
  unfold checkPlacement
  cases repeats : f.repetition with
  | some r =>
    dsimp only
    rw [checkRepetition_eq_ok_iff]
    constructor
    · intro h
      refine ⟨fun single => ?_, fun r' same => ?_⟩
      · rw [repeats] at single
        cases single
      · rw [repeats] at same
        cases same
        exact h
    · intro placed
      exact placed.repeated r repeats
  | none =>
    dsimp only
    have outside : f.labels.find? (d.isInList ·) = none ↔
        ∀ label ∈ f.labels, d.isInList label = false := by
      simp
    constructor
    · intro h
      refine ⟨fun _ => outside.1 ?_, fun r same => ?_⟩
      · cases listed : f.labels.find? (d.isInList ·) with
        | some label =>
          rw [listed] at h
          cases h
        | none => rfl
      · rw [repeats] at same
        cases same
    · intro placed
      rw [outside.2 (placed.single repeats)]
      rfl

/-! ### Fields -/

/-- The field can be added: its name is new, its values can be stored under labels that no other field
claims, and these are in the right places. -/
structure Accepts (d : TypeDef) (f : Field) : Prop extends Placed d f where
  fresh : ∀ other ∈ d.fields, other.name ≠ f.name
  storable : ∀ v ∈ f.parts, d.Storable v
  unclaimed : ∀ label ∈ f.labels, ∀ other ∈ d.fields, label ∉ other.labels

/-- The values of a field that have been checked have the labels that they had. -/
theorem labels_of_mapM_checkParts {values : List FieldValue}
    (h : f.values.mapM (d.checkParts f.name) = .ok values) :
    ({ f with values } : Field).labels = f.labels := by
  have names := map_eq_of_mapM_eq_ok h fun a b made => (checkParts_eq_ok made).1
  simp only [Field.labels, Field.parts, List.map_flatMap]
  rw [List.flatMap_def, names, ← List.flatMap_def]

theorem accepts_of_addField {d' : TypeDef} (h : d.addField f = .ok d') :
    ∃ values, f.values.mapM (d.checkParts f.name) = .ok values ∧
      d' = { d with fields := d.fields ++ [{ f with values }] } ∧ d.template.isEmpty = false ∧
      d.Accepts { f with values } := by
  obtain ⟨values, rfl, filled, fresh, checked, placed⟩ := addField_eq_ok h
  have parts : ∀ p ∈ ({ f with values } : Field).parts,
      d.Storable p ∧ ∀ other ∈ d.fields, p.name ∉ other.labels := by
    intro p member
    obtain ⟨v, known, part⟩ := List.mem_flatMap.1 member
    obtain ⟨w, -, made⟩ := mem_of_mapM_eq_ok checked v known
    exact (checkParts_eq_ok made).2.2 p part
  refine ⟨values, checked, rfl, filled, checkPlacement_eq_ok_iff.1 placed, fresh,
    fun p member => (parts p member).1, fun label member => ?_⟩
  obtain ⟨p, part, rfl⟩ := List.mem_map.1 member
  exact (parts p part).2

end TypeDef

end Rsrc
