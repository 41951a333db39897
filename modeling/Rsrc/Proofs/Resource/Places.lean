import Rsrc.Proofs.Invariant
import Rsrc.Proofs.TypeDef.Checks

/-!
# Where values are stored

The places of a type are where values can end up when a resource is declared. They are the slots, which
encoding reads, and strays, which it does not: the label of a nested type, and behind it the names
that constructors of the nested type bind. `Record.Within` says that a record has nothing elsewhere.

Fields have their values in these places: the labels of a field are outside lists or in the list that
the field owns (`TypeDef.Kept`).
-/

namespace Rsrc

variable {τ σ : Type}

/-! ### Names bound by constructors -/

/-- The names behind `this.` that constructors of the type bind. -/
def TypeDef.writes (d : TypeDef) : List String :=
  d.constructors.flatMap fun c =>
    c.routine.boundNames.filterMap (Text.stripFront? Constructor.self)

/-! ### Places -/

namespace Slot

/-- The places of an entry that encoding does not read. -/
def strays (writes : τ → List String) (front : String) (e : Entry τ) : List Slot :=
  let key := front ++ e.label
  match e.tag, e.nested with
  | .rect, some t | .nested _, some t =>
    value key e.tag :: (writes t).map fun name => value (key ++ "." ++ name) e.tag
  | .rect, none | .nested _, none => [value key e.tag]
  | _, _ => []

/-- The places of an entry. -/
def around (nested : τ → String → List Slot) (writes : τ → List String) (front : String)
    (e : Entry τ) : List Slot :=
  ofEntry nested front e ++ strays writes front e

/-- The places of a section, where those of an entry are known. -/
def inSection (fields : List Field) (place : String → Entry τ → List Slot) (front : String) :
    Section τ → List Slot
  | .plain es => es.flatMap (place front)
  | .list count members =>
    let owner := listOwner? fields count.label
    [list (front ++ (owner.map (·.name)).getD count.label) owner.isSome (members.flatMap (place ""))]

end Slot

/-- The places of a type, under keys behind `front`. -/
def TypeDef.places (d : TypeDef) (front : String) : List Slot :=
  d.layout.sections.flatMap
    (Slot.inSection d.fields
      (Slot.around (fun ⟨t, _⟩ front => t.places front) fun t => t.val.writes) front)
termination_by sizeOf d

theorem Slot.inSection_map (fields : List Field) (nested : σ → String → List Slot)
    (writes : σ → List String) (h : τ → σ) (front : String) (part : Section τ) :
    inSection fields (around nested writes) front (part.map h) =
      inSection fields (around (fun t => nested (h t)) fun t => writes (h t)) front part := by
  have entry : ∀ front (e : Entry τ), around nested writes front (e.map h) =
      around (fun t => nested (h t)) (fun t => writes (h t)) front e := by
    intro front e
    obtain ⟨label, tag, inner, size⟩ := e
    cases tag <;> cases inner <;> rfl
  cases part <;> simp [Section.map, inSection, List.flatMap_map, entry]

/-- The places of an entry of a type. -/
def Slot.ofLabel (front : String) (e : Entry TypeDef) : List Slot :=
  around TypeDef.places TypeDef.writes front e

/-- The places over the template itself. -/
theorem TypeDef.places_eq (d : TypeDef) (front : String) :
    d.places front = d.template.sections.flatMap (Slot.inSection d.fields Slot.ofLabel front) := by
  rw [places, ← layout_sections, List.flatMap_map]
  unfold Slot.ofLabel
  simp only [Slot.inSection_map]
  rfl

namespace Slot

variable {e : Entry TypeDef} {front : String}

/-- There is a place for the entry itself. -/
theorem value_mem_ofLabel : ∃ tag, value (front ++ e.label) tag ∈ ofLabel front e := by
  refine ⟨e.tag, ?_⟩
  obtain ⟨label, tag, inner, size⟩ := e
  cases tag <;> cases inner <;> simp [ofLabel, around, ofEntry, strays]

/-- A nested type, of a rectangle or by name, has its places behind the label. -/
def IsNested (tag : Tag) : Prop := tag = .rect ∨ ∃ name, tag = .nested name

theorem ofLabel_of_plain (plain : ¬ IsNested e.tag) :
    ofLabel front e = ofEntry TypeDef.slots front e := by
  obtain ⟨label, tag, inner, size⟩ := e
  cases tag with
  | rect => exact absurd (.inl rfl) plain
  | nested name => exact absurd (.inr ⟨name, rfl⟩) plain
  | _ => rfl

theorem places_subset_ofLabel {t : TypeDef} (found : e.nested = some t) (tagged : IsNested e.tag) :
    t.places (front ++ e.label ++ ".") ⊆ ofLabel front e := by
  obtain ⟨label, tag, inner, size⟩ := e
  subst found
  rcases tagged with rfl | ⟨name, rfl⟩
  all_goals exact List.subset_append_left ..

theorem writes_mem_ofLabel {t : TypeDef} (found : e.nested = some t) (tagged : IsNested e.tag)
    {name : String} (written : name ∈ t.writes) :
    ∃ tag, value (front ++ e.label ++ "." ++ name) tag ∈ ofLabel front e := by
  refine ⟨e.tag, List.mem_append_right _ ?_⟩
  obtain ⟨label, tag, inner, size⟩ := e
  subst found
  rcases tagged with rfl | ⟨other, rfl⟩
  all_goals exact List.mem_cons_of_mem _ (List.mem_map_of_mem written)

/-- The places of the elements of a list. -/
def membersOf (key : String) (slots : List Slot) : List Slot :=
  slots.flatMap fun
    | list k true members => if k = key then members else []
    | _ => []

theorem subset_membersOf {key : String} {members slots : List Slot}
    (h : list key true members ∈ slots) : members ⊆ membersOf key slots := by
  intro slot member
  refine List.mem_flatMap.2 ⟨_, h, ?_⟩
  simpa using member

end Slot

/-! ### Types whose fields fit their templates -/

theorem FieldValue.Simple.of_joined {v v' : FieldValue} (h : v.Simple)
    (same : v'.joined.map (·.joined) = v.joined.map (·.joined)) : v'.Simple := by
  intro part member
  have known : part.joined ∈ v.joined.map (·.joined) := same ▸ List.mem_map_of_mem member
  obtain ⟨part', member', equal⟩ := List.mem_map.1 known
  rw [← equal]
  exact h part' member'

namespace TypeDef

/-- The values of a field have entries in the template, all of them outside lists or all of them in
the list that the field owns. -/
structure Fitting (d : TypeDef) (f : Field) : Prop where
  simple : ∀ v ∈ f.values, v.Simple
  labelled : ∀ p ∈ f.parts, ∃ e, d.template.entry? p.name = some e ∧ e.tag.isListMarker = false
  outside : f.repetition = none → ∀ p ∈ f.parts, d.isInList p.name = false
  inside : ∀ r, f.repetition = some r → ∃ g, d.template.groupCountedBy? r.count = some g ∧
    listOwner? d.fields r.count = some f ∧ ∀ p ∈ f.parts, d.isInGroup g p.name = true

/-- A type with an accepted template, whose fields fit it. -/
structure Kept (d : TypeDef) : Prop where
  validated : d.Validated
  nested : ∀ e ∈ d.template.entries, ∀ t, e.nested = some t → Slot.IsNested e.tag
  filled : d.template.isEmpty → d.fields = []
  fields : ∀ f ∈ d.fields, d.Fitting f

/-- A field that has been added fits, and it owns its list. -/
theorem Fitting.added {d : TypeDef} {f : Field} (simple : ∀ v ∈ f.values, v.Simple)
    (accepted : d.Accepts f) : Fitting { d with fields := d.fields ++ [f] } f := by
  refine ⟨simple, fun p member => ?_, fun single p member => ?_, fun r repeats => ?_⟩
  · obtain ⟨e, found, plain, -⟩ := accepted.storable p member
    exact ⟨e, found, plain⟩
  · exact accepted.single single p.name (mem_labels member)
  · obtain ⟨g, counted, -, unowned, inside⟩ := accepted.repeated r repeats
    refine ⟨g, counted, ?_, fun p member => inside p.name (mem_labels member)⟩
    rw [listOwner?] at unowned ⊢
    rw [List.find?_append, unowned]
    simp [repeats]

/-- A further field does not change how others fit. -/
theorem Fitting.append {d : TypeDef} {f : Field} (h : d.Fitting f) (f' : Field) :
    Fitting { d with fields := d.fields ++ [f'] } f := by
  refine ⟨h.simple, h.labelled, h.outside, fun r repeats => ?_⟩
  obtain ⟨g, counted, owner, inside⟩ := h.inside r repeats
  refine ⟨g, counted, ?_, inside⟩
  rw [listOwner?] at owner ⊢
  rw [List.find?_append, owner]
  rfl

namespace Kept

variable {d d' : TypeDef}

theorem start (name code : String) (decorators : Decorators) (origin : Option Lexeme) :
    Kept { name, code, decorators, origin } where
  validated := ⟨{}, rfl⟩
  nested _ member := by cases member
  filled _ := rfl
  fields _ member := by cases member

theorem setTemplate {t : Template TypeDef} (h : d.Kept)
    (nested : ∀ e ∈ t.entries, ∀ inner, e.nested = some inner → Slot.IsNested e.tag)
    (set : d.setTemplate t = .ok d') : d'.Kept := by
  obtain ⟨empty, t', accepted, rfl⟩ := setTemplate_eq_ok set
  have none : d.fields = [] := h.filled empty
  refine ⟨⟨t, accepted⟩, ?_, fun _ => none, ?_⟩
  · rw [Template.entries_validate accepted]
    exact nested
  · rw [none]
    simp

theorem addConstructor {c : Constructor} (h : d.Kept) (added : d.addConstructor c = .ok d') :
    d'.Kept := by
  obtain ⟨rfl, -⟩ := addConstructor_eq_ok added
  refine ⟨h.validated, h.nested, h.filled, fun f member => ?_⟩
  have fits := h.fields f member
  exact ⟨fits.simple, fits.labelled, fits.outside, fits.inside⟩

theorem addField {f : Field} (h : d.Kept) (simple : ∀ v ∈ f.values, v.Simple)
    (added : d.addField f = .ok d') : d'.Kept := by
  obtain ⟨values, checked, rfl, filled, accepted⟩ := accepts_of_addField added
  refine ⟨h.validated, h.nested, fun empty => ?_, fun g member => ?_⟩
  · rw [filled] at empty
    cases empty
  · rcases List.mem_append.1 member with old | new
    · exact (h.fields g old).append _
    · obtain rfl := List.mem_singleton.1 new
      refine Fitting.added (fun v member => ?_) accepted
      obtain ⟨w, known, made⟩ := mem_of_mapM_eq_ok checked v member
      exact (simple w known).of_joined (checkParts_eq_ok made).2.1

end Kept

end TypeDef

/-! ### Places for the values of a field -/

theorem Template.getElem?_of_entry? {t : Template τ} {label : String} {e : Entry τ}
    (h : t.entry? label = some e) : ∃ i, t.indexOf? label = some i ∧ t.entries[i]? = some e := by
  obtain ⟨same, i, inside, there, before⟩ := List.find?_eq_some_iff_getElem.1 h
  refine ⟨i, List.findIdx?_eq_some_iff_getElem.2 ⟨inside, there ▸ same, fun j lt => ?_⟩, ?_⟩
  · simpa using before j lt
  · rw [← there]
    exact List.getElem?_eq_getElem inside

namespace TypeDef

/-- There are places for a label: for its value, for what a nested type has behind it, and for what
constructors of the nested type bind. -/
structure Houses (d : TypeDef) (front : String) (slots : List Slot) (label : String) : Prop where
  value : ∃ tag, .value (front ++ label) tag ∈ slots
  nested : ∀ t, d.nested? label = some t → t.places (front ++ label ++ ".") ⊆ slots
  writes : ∀ t, d.nested? label = some t → ∀ name ∈ t.writes,
    ∃ tag, .value (front ++ label ++ "." ++ name) tag ∈ slots

/-- Where the values of a field are, if those of its type are in some slots behind a front: there, or
in the elements of the field's list. -/
def room (f : Field) (front : String) (slots : List Slot) : String × List Slot :=
  if f.isRepeatable then ("", Slot.membersOf (front ++ f.name) slots) else (front, slots)

namespace Kept

variable {d : TypeDef} {f : Field} {front : String} {slots : List Slot}

theorem houses_of_entry (kept : d.Kept) {label : String} {e : Entry TypeDef}
    (found : d.template.entry? label = some e) (h : Slot.ofLabel front e ⊆ slots) :
    d.Houses front slots label := by
  have named : e.label = label := by simpa using List.find?_some found
  have member : e ∈ d.template.entries := List.mem_of_find?_eq_some found
  have behind : d.nested? label = e.nested := by rw [nested?, found, Option.bind_some]
  subst named
  refine ⟨?_, fun t nested => ?_, fun t nested name written => ?_⟩
  · obtain ⟨tag, place⟩ := Slot.value_mem_ofLabel
    exact ⟨tag, h place⟩
  · rw [behind] at nested
    exact List.Subset.trans (Slot.places_subset_ofLabel nested (kept.nested e member t nested)) h
  · rw [behind] at nested
    obtain ⟨tag, place⟩ :=
      Slot.writes_mem_ofLabel nested (kept.nested e member t nested) written
    exact ⟨tag, h place⟩

theorem houses_outside (kept : d.Kept) (known : f ∈ d.fields) (single : f.repetition = none)
    (places : d.places front ⊆ slots) {p : FieldValue} (part : p ∈ f.parts) :
    d.Houses front slots p.name := by
  have fits := kept.fields f known
  obtain ⟨e, found, plain⟩ := fits.labelled p part
  refine kept.houses_of_entry found (List.Subset.trans (fun slot place => ?_) places)
  obtain ⟨i, index, there⟩ := Template.getElem?_of_entry? found
  obtain ⟨t, accepted⟩ := kept.validated
  -- no group contains the entry, so it is in a plain section
  have out : ∀ g ∈ d.template.groups, g.contains (0 + i) = false := by
    have free := fits.outside single p part
    simp only [isInList, index, Option.any_some, Template.groupContaining?,
      Option.isSome_eq_false_iff, Option.isNone_iff_eq_none, List.find?_eq_none] at free
    intro g member
    simpa using free g member
  obtain ⟨es, known, member⟩ :=
    Section.mem_plain_of_grouped (Template.grouped_of_validate accepted) there plain out []
  rw [places_eq]
  exact List.mem_flatMap.2 ⟨.plain es, known, List.mem_flatMap.2 ⟨e, member, place⟩⟩

/-- The list of a repeatable field, with places for the values of the field. -/
theorem houses_inside (kept : d.Kept) (known : f ∈ d.fields) {r : Repetition}
    (repeats : f.repetition = some r) (places : d.places front ⊆ slots) :
    (∃ members, .list (front ++ f.name) true members ∈ slots) ∧
      ∀ p ∈ f.parts, d.Houses "" (Slot.membersOf (front ++ f.name) slots) p.name := by
  have fits := kept.fields f known
  obtain ⟨g, counted, owner, inside⟩ := fits.inside r repeats
  obtain ⟨t, accepted⟩ := kept.validated
  obtain ⟨index, named, grouped⟩ := Option.bind_eq_some_iff.1 counted
  obtain ⟨k, count, members, there, position, -, listed, contents⟩ :=
    Section.list_of_grouped (Template.grouped_of_validate accepted)
      (List.mem_of_find?_eq_some grouped) []
  -- the count is found by its name and by its position
  have label : count.label = r.count := by
    have same : g.count = index := by simpa using List.find?_some grouped
    obtain ⟨bound, fits, -⟩ := List.findIdx?_eq_some_iff_getElem.1 named
    obtain rfl : index = k := by omega
    rw [List.getElem?_eq_getElem bound] at there
    rw [Option.some.inj there] at fits
    simpa using fits
  have place : .list (front ++ f.name) true (members.flatMap (Slot.ofLabel "")) ∈ slots := by
    refine places ?_
    rw [places_eq]
    refine List.mem_flatMap.2 ⟨.list count members, listed, ?_⟩
    simp [Slot.inSection, label, owner]
  refine ⟨⟨_, place⟩, fun p part => ?_⟩
  obtain ⟨e, found, plain⟩ := fits.labelled p part
  obtain ⟨i, position, here⟩ := Template.getElem?_of_entry? found
  refine kept.houses_of_entry found (List.Subset.trans ?_ (Slot.subset_membersOf place))
  have within : g.contains (0 + i) := by
    have group := inside p part
    rw [isInGroup, position] at group
    rw [Nat.zero_add]
    exact group
  have member := contents i e here within plain
  exact fun slot known => List.mem_flatMap.2 ⟨e, member, known⟩

theorem houses_room (kept : d.Kept) (known : f ∈ d.fields) (places : d.places front ⊆ slots)
    {p : FieldValue} (part : p ∈ f.parts) :
    d.Houses (room f front slots).1 (room f front slots).2 p.name := by
  cases repeats : f.repetition with
  | none =>
    rw [room, if_neg (by simp [Field.isRepeatable, repeats])]
    exact kept.houses_outside known repeats places part
  | some r =>
    rw [room, if_pos (by simp [Field.isRepeatable, repeats])]
    exact (kept.houses_inside known repeats places).2 p part

theorem list_mem (kept : d.Kept) (known : f ∈ d.fields) (repeats : f.isRepeatable)
    (places : d.places front ⊆ slots) : ∃ members, .list (front ++ f.name) true members ∈ slots := by
  obtain ⟨r, repeats⟩ := Option.isSome_iff_exists.1 repeats
  exact (kept.houses_inside known repeats places).1

end Kept

/-- Without nested types, the places are the slots. -/
theorem Kept.places_of_flat {d : TypeDef} (kept : d.Kept)
    (flat : ∀ e ∈ d.template.entries, ¬ Slot.IsNested e.tag) (front : String) :
    d.places front = d.slots front := by
  have same : ∀ part ∈ d.template.sections, ∀ e ∈ part.entries, ∀ front,
      Slot.ofLabel front e = Slot.ofEntry TypeDef.slots front e := by
    intro part known e member front
    have listed := (mem_template kept.validated.balanced known member).1
    exact Slot.ofLabel_of_plain (flat e listed)
  rw [places_eq, slots_eq]
  refine List.flatMap_congr fun part known => ?_
  have each := same part known
  cases part with
  | plain es => exact List.flatMap_congr fun e member => each e member front
  | list count members =>
    have parts : members.flatMap (Slot.ofLabel "") = members.flatMap (Slot.ofEntry TypeDef.slots "") :=
      List.flatMap_congr fun e member => each e member ""
    simp only [Slot.inSection, Slot.ofSection, parts]

/-- The slot of a value has the key of a label without a nested type, or a key behind a label and a
point. -/
theorem key_of_slot {d : TypeDef} (validated : d.Everywhere Validated) {front key : String} {tag : Tag}
    (h : .value key tag ∈ d.slots front) :
    ∃ e ∈ d.template.entries, (¬ Slot.IsNested e.tag ∧ key = front ++ e.label) ∨
      ∃ rest, key = front ++ e.label ++ "." ++ rest := by
  induction validated generalizing front with
  | @intro d here nested ih =>
    rw [slots_eq] at h
    obtain ⟨part, known, member⟩ := List.mem_flatMap.1 h
    cases part with
    | list count members => simp [Slot.ofSection] at member
    | plain es =>
      obtain ⟨e, listed, slot⟩ := List.mem_flatMap.1 member
      have inside := (mem_template here.balanced known listed).1
      refine ⟨e, inside, ?_⟩
      have behind (t : TypeDef) (found : e.nested = some t)
          (slot : .value key tag ∈ t.slots (front ++ e.label ++ ".")) :
          ∃ rest, key = front ++ e.label ++ "." ++ rest := by
        obtain ⟨e', -, ⟨-, same⟩ | ⟨rest, same⟩⟩ := ih e inside t found slot
        · exact ⟨e'.label, same⟩
        · exact ⟨e'.label ++ "." ++ rest, by simpa only [String.append_assoc] using same⟩
      have side (slot : .value key tag ∈ Encoding.rectSides.map fun side =>
          Slot.value (front ++ e.label ++ "." ++ side) (.integer .two true)) :
          ∃ rest, key = front ++ e.label ++ "." ++ rest := by
        obtain ⟨side, -, same⟩ := List.mem_map.1 slot
        cases same
        exact ⟨side, rfl⟩
      obtain ⟨label, tag', inner, size⟩ := e
      cases tag' with
      | rect =>
        cases inner with
        | none => exact .inr (side slot)
        | some t => exact .inr (behind t rfl slot)
      | nested name =>
        cases inner with
        | none => exact .inr (side slot)
        | some t => exact .inr (behind t rfl slot)
      | _ =>
        refine .inl ⟨by simp [Slot.IsNested], ?_⟩
        cases List.mem_singleton.1 slot
        rfl

end TypeDef

/-! ### Records within places -/

/-- All that a record has is in the places: each value and each list has one, and the elements of a
list are within the places of its members. -/
inductive Record.Within : List Slot → Record → Prop where
  | intro {slots : List Slot} {r : Record}
      (values : ∀ binding ∈ r.values.entries, ∃ tag, Slot.value binding.1 tag ∈ slots)
      (lists : ∀ binding ∈ r.lists.entries, ∃ members, Slot.list binding.1 true members ∈ slots)
      (elements : ∀ binding ∈ r.lists.entries, ∀ element ∈ binding.2,
        Within (Slot.membersOf binding.1 slots) element) : Within slots r

theorem Record.mem_mapElements {f : Value → Value} {all : List Record} {element : Record}
    (h : element ∈ mapElements f all) : ∃ old ∈ all, element = old.mapValues f := by
  induction all with
  | nil => cases h
  | cons first rest ih =>
    rw [mapElements] at h
    rcases List.mem_cons.1 h with rfl | later
    · exact ⟨first, List.mem_cons_self, rfl⟩
    · obtain ⟨old, known, same⟩ := ih later
      exact ⟨old, List.mem_cons_of_mem _ known, same⟩

theorem Record.mem_mapLists {f : Value → Value} {lists : List (String × List Record)}
    {binding : String × List Record} (h : binding ∈ mapLists f lists) :
    ∃ all, (binding.1, all) ∈ lists ∧ binding.2 = mapElements f all := by
  induction lists with
  | nil => cases h
  | cons first rest ih =>
    obtain ⟨key, all⟩ := first
    rw [mapLists] at h
    rcases List.mem_cons.1 h with rfl | later
    · exact ⟨all, List.mem_cons_self, rfl⟩
    · obtain ⟨all', known, same⟩ := ih later
      exact ⟨all', List.mem_cons_of_mem _ known, same⟩

namespace Record.Within

variable {slots : List Slot} {r : Record} {key : String}

theorem empty : Within slots {} :=
  .intro (by simp) (by simp) (by simp)

section

variable (h : Within slots r)
include h

theorem set (place : ∃ tag, Slot.value key tag ∈ slots) (value : Value) :
    Within slots (r.set key value) := by
  obtain ⟨values, lists, elements⟩ := h
  refine .intro (fun binding member => ?_) lists elements
  rcases Dict.mem_put member with rfl | old
  · exact place
  · exact values binding old

theorem list (key : String) :
    ∀ element ∈ r.list key, Within (Slot.membersOf key slots) element := by
  obtain ⟨-, -, elements⟩ := h
  intro element member
  rw [Record.list] at member
  cases found : r.lists.get? key with
  | none => simp [found] at member
  | some all =>
    rw [found] at member
    exact elements (key, all) (Dict.mem_of_find? found) element member

theorem setList {all : List Record} (place : ∃ members, Slot.list key true members ∈ slots)
    (each : ∀ element ∈ all, Within (Slot.membersOf key slots) element) :
    Within slots (r.setList key all) := by
  obtain ⟨values, lists, elements⟩ := h
  refine .intro values (fun binding member => ?_) fun binding member => ?_
  · rcases Dict.mem_put member with rfl | old
    · exact place
    · exact lists binding old
  · rcases Dict.mem_put member with rfl | old
    · exact each
    · exact elements binding old

theorem appendEntries {more : List Record} (place : ∃ members, Slot.list key true members ∈ slots)
    (each : ∀ element ∈ more, Within (Slot.membersOf key slots) element) :
    Within slots (r.appendEntries key more) := by
  refine h.setList place fun element member => ?_
  rcases List.mem_append.1 member with old | new
  · exact h.list key element old
  · exact each element new

theorem modifyLast {f : Record → Record}
    (each : ∀ element, Within (Slot.membersOf key slots) (f element)) :
    Within slots (r.modifyLast key f) := by
  unfold Record.modifyLast
  cases found : r.lists.get? key with
  | none => exact h
  | some all =>
    have here : (key, all) ∈ r.lists.entries := Dict.mem_of_find? found
    obtain ⟨values, lists, elements⟩ := h
    refine (Within.intro values lists elements).setList (lists _ here) fun element member => ?_
    obtain ⟨i, inside, there⟩ := List.getElem_of_mem member
    rw [List.getElem_modify] at there
    split at there
    · rw [← there]
      exact each _
    · rw [← there]
      exact elements _ here _ (List.getElem_mem _)

theorem mapValues (f : Value → Value) : Within slots (r.mapValues f) := by
  induction h with
  | @intro slots r values lists elements ih =>
    obtain ⟨⟨vs⟩, ⟨ls⟩⟩ := r
    rw [Record.mapValues]
    refine .intro (fun binding member => ?_) (fun binding member => ?_) fun binding member element known => ?_
    · obtain ⟨old, found, rfl⟩ := List.mem_map.1 member
      exact values old found
    · obtain ⟨all, found, -⟩ := mem_mapLists member
      exact lists (binding.1, all) found
    · obtain ⟨all, found, same⟩ := mem_mapLists member
      rw [same] at known
      obtain ⟨old, inside, rfl⟩ := mem_mapElements known
      exact ih _ found old inside

end

end Record.Within

end Rsrc
