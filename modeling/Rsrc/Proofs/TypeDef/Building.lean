import Rsrc.Proofs.Keeps
import Rsrc.Proofs.TypeDef.Checks

/-!
# Types that are put together

A type is put together by operations that either succeed or leave it as it was; only where fields are
added for all unclaimed labels, those before a failure stay. Each operation checks what it adds against
what is there. In whatever order they are made, and whichever of them fail, the parts of the type fit
together (`TypeDef.sound_of_operations`).
-/

namespace Rsrc

/-- The tag is of an entry that holds a value, and not of one that tells where a list is. -/
def Tag.HoldsValue (tag : Tag) : Prop := tag ≠ .count ∧ tag ≠ .listStart ∧ tag ≠ .listEnd

theorem Tag.holdsValue_iff {tag : Tag} : tag.HoldsValue ↔ tag.isListMarker = false := by
  cases tag <;> simp [HoldsValue, isListMarker]

/-! ### Positions in a template -/

namespace Template

variable {τ : Type} {t : Template τ}

theorem indexOf?_of_getElem? (labels : (t.entries.map (·.label)).Nodup) {i : Nat} {e : Entry τ}
    (h : t.entries[i]? = some e) : t.indexOf? e.label = some i := by
  obtain ⟨inside, rfl⟩ := List.getElem?_eq_some_iff.1 h
  have distinct := List.pairwise_iff_getElem.1 (List.pairwise_map.1 labels)
  refine List.findIdx?_eq_some_iff_getElem.2 ⟨inside, by simp, fun j before same => ?_⟩
  exact distinct j i (by omega) inside before (by simpa using same)

theorem getElem?_of_indexOf? {label : String} {i : Nat} (h : t.indexOf? label = some i) :
    ∃ e, t.entries[i]? = some e ∧ e.label = label := by
  obtain ⟨inside, same, -⟩ := List.findIdx?_eq_some_iff_getElem.1 h
  exact ⟨t.entries[i], List.getElem?_eq_getElem inside, by simpa using same⟩

theorem of_groupCountedBy? {label : String} {g : ListGroup} (h : t.groupCountedBy? label = some g) :
    g ∈ t.groups ∧ ∃ e, t.entries[g.count]? = some e ∧ e.label = label := by
  obtain ⟨index, found, h⟩ := Option.bind_eq_some_iff.1 h
  have counts : g.count = index := by simpa using List.find?_some h
  exact ⟨List.mem_of_find?_eq_some h, counts ▸ getElem?_of_indexOf? found⟩

end Template

namespace TypeDef

variable {d d' : TypeDef} {I : TypeDef → Prop} {origin : Lexeme} {g : ListGroup} {label : String}
  {e : DefinitionError} {change : TypeDef → Except DefinitionError TypeDef}

/-! ### Operations -/

/-- Changes to a type. A failure keeps the type as it is by then. -/
abbrev Building := EStateM DefinitionError TypeDef

def putTemplate (t : Template TypeDef) : Building Unit := do
  if !(← get).template.isEmpty then throw .duplicateTemplate
  let template ← ofExcept t.validate
  modify fun d => { d with template }

def putConstructor (c : Constructor) : Building Unit := do
  if ((← get).constructor? c.arity).isSome then throw (.duplicateConstructor c.arity)
  modify fun d => { d with constructors := d.constructors ++ [c] }

def putField (f : Field) : Building Unit := do
  let d ← get
  if d.template.isEmpty then throw .missingTemplate
  if (d.field? f.name).isSome then throw (.duplicateField f.name)
  let f := { f with values := ← ofExcept (f.values.mapM (d.checkParts f.name)) }
  ofExcept (d.checkPlacement f)
  modify fun d => { d with fields := d.fields ++ [f] }

/-- Adds a field for each of the labels, one after the other. -/
def fill (origin : Lexeme) : List String → Building Unit
  | [] => pure ()
  | label :: labels => do
    putField (Field.synthesize label origin)
    fill origin labels

/-- Adds a field for each unclaimed label. -/
def fillIn (origin : Lexeme) : Building Unit := fun d => fill origin d.unclaimedLabels d

/-- A change that is made as a whole or not at all. -/
def attempt (change : TypeDef → Except DefinitionError TypeDef) : Building Unit := fun d =>
  match change d with
  | .ok d' => .ok () d'
  | .error e => .error e d

theorem ofExcept_bind {α : Type} (result : Except DefinitionError α) (x : α → Building Unit) :
    (ofExcept result >>= x) d =
      match result with
      | .ok a => x a d
      | .error e => .error e d := by
  cases result <;> rfl

/-- The template is accepted before the type gets it. -/
theorem putTemplate_eq (t : Template TypeDef) : putTemplate t = attempt (·.setTemplate t) := by
  funext d
  rw [putTemplate, get_bind, attempt, setTemplate]
  by_cases empty : d.template.isEmpty
  · cases t.validate <;> simp only [empty] <;> rfl
  · simp only [empty]
    rfl

theorem putConstructor_eq (c : Constructor) : putConstructor c = attempt (·.addConstructor c) := by
  funext d
  rw [putConstructor, get_bind, attempt, addConstructor]
  by_cases taken : (d.constructor? c.arity).isSome <;> simp only [taken] <;> rfl

/-- All parts of a field are checked before the type gets it. -/
theorem putField_eq (f : Field) : putField f = attempt (·.addField f) := by
  funext d
  rw [putField, get_bind, attempt, addField]
  by_cases empty : d.template.isEmpty
  · simp only [empty]
    rfl
  by_cases taken : (d.field? f.name).isSome
  · simp only [empty, taken]
    rfl
  simp only [empty, taken]
  cases f.values.mapM (d.checkParts f.name) with
  | error e => rfl
  | ok values =>
    refine (ofExcept_bind (d.checkPlacement { f with values }) _).trans ?_
    cases placed : d.checkPlacement { f with values } <;> simp only [bind, Except.bind, placed] <;> rfl

theorem foldlM_addField_eq (origin : Lexeme) (labels : List String) (d : TypeDef) :
    labels.foldlM (fun d label => d.addField (Field.synthesize label origin)) d =
      match fill origin labels d with
      | .ok _ d' => .ok d'
      | .error e _ => .error e := by
  induction labels generalizing d with
  | nil => rfl
  | cons label labels ih =>
    rw [List.foldlM_cons, fill]
    cases added : d.addField (Field.synthesize label origin) with
    | ok d' =>
      have made : putField (Field.synthesize label origin) d = .ok () d' := by
        simp [putField_eq, attempt, added]
      rw [bind_of_ok made]
      exact ih d'
    | error e =>
      have failed : putField (Field.synthesize label origin) d = .error e d := by
        simp [putField_eq, attempt, added]
      rw [bind_of_error failed]
      rfl

/-- Filling in is the addition of implicit fields, and tells in addition what a failure leaves. -/
theorem addImplicitFields_eq :
    d.addImplicitFields origin =
      match fillIn origin d with
      | .ok _ d' => .ok d'
      | .error e _ => .error e :=
  foldlM_addField_eq origin d.unclaimedLabels d

/-- The operations by which a type is put together. A template has been filled entry by entry. -/
inductive Operation where
  | setTemplate (t : { t : Template TypeDef // t.Assembled })
  | addField (f : Field)
  | addConstructor (c : Constructor)
  | addImplicitFields (origin : Lexeme)

namespace Operation

def perform : Operation → Building Unit
  | setTemplate t => putTemplate t
  | addField f => putField f
  | addConstructor c => putConstructor c
  | addImplicitFields origin => fillIn origin

theorem perform_eq (operation : Operation) : operation.perform =
    match operation with
    | setTemplate t => attempt (·.setTemplate t)
    | addField f => attempt (·.addField f)
    | addConstructor c => attempt (·.addConstructor c)
    | addImplicitFields origin => fillIn origin := by
  cases operation with
  | setTemplate t => exact putTemplate_eq t
  | addField f => exact putField_eq f
  | addConstructor c => exact putConstructor_eq c
  | addImplicitFields origin => rfl

/-- The type after an operation, also after one that fails. -/
def apply (d : TypeDef) (operation : Operation) : TypeDef :=
  match operation.perform d with
  | .ok _ d' => d'
  | .error _ d' => d'

end Operation

theorem keeps_attempt (step : ∀ {d d'}, I d → change d = .ok d' → I d') :
    Keeps I (attempt change) := by
  intro d kept
  simp only [attempt]
  cases made : change d with
  | ok d' => exact ⟨step kept made, trivial⟩
  | error e => exact kept

/-- What additions of single labels keep is kept when all missing ones are filled in. -/
theorem keeps_fillIn
    (step : ∀ {d d' label}, I d → d.addField (Field.synthesize label origin) = .ok d' → I d') :
    Keeps I (fillIn origin) := by
  have all (labels : List String) : Keeps I (fill origin labels) := by
    induction labels with
    | nil => exact .pure trivial
    | cons label labels ih => exact (putField_eq _ ▸ keeps_attempt step).andThen fun _ => ih
  intro d kept
  exact all d.unclaimedLabels d kept

theorem Operation.keeps_built (operation : Operation) : Keeps Built operation.perform := by
  rw [Operation.perform_eq]
  cases operation with
  | setTemplate t => exact keeps_attempt fun built set => .template built t.2 set
  | addField f => exact keeps_attempt fun built added => .field built added
  | addConstructor c => exact keeps_attempt fun built added => .constructor built added
  | addImplicitFields origin => exact keeps_fillIn fun built added => .field built added

theorem Operation.apply_of_keeps {operation : Operation} (keeps : Keeps I operation.perform)
    (h : I d) : I (operation.apply d) := by
  have kept := keeps d h
  simp only [Operation.apply]
  cases run : operation.perform d with
  | ok _ d' =>
    rw [run] at kept
    exact kept.1
  | error e d' =>
    rw [run] at kept
    exact kept

theorem Built.apply (h : d.Built) (operation : Operation) : (operation.apply d).Built :=
  Operation.apply_of_keeps operation.keeps_built h

theorem Built.foldl_apply (h : d.Built) (operations : List Operation) :
    (operations.foldl Operation.apply d).Built := by
  induction operations generalizing d with
  | nil => exact h
  | cons operation operations ih => exact ih (h.apply operation)

/-! ### Fields of a type -/

theorem Built.fields_eq_nil (h : d.Built) (empty : d.template.isEmpty) : d.fields = [] := by
  induction h with
  | new => rfl
  | template h assembled set ih =>
    obtain ⟨before, _, _, rfl⟩ := setTemplate_eq_ok set
    exact ih before
  | constructor h added ih =>
    obtain ⟨rfl, -⟩ := addConstructor_eq_ok added
    exact ih empty
  | field h added ih =>
    obtain ⟨_, rfl, filled, -⟩ := addField_eq_ok added
    simp [filled] at empty

/-- Every field was accepted for the template that the type still has. -/
theorem Built.accepted (h : d.Built) :
    ∀ f ∈ d.fields, ∃ earlier : TypeDef, earlier.template = d.template ∧ earlier.Accepts f := by
  induction h with
  | new => simp
  | template h assembled set ih =>
    obtain ⟨empty, _, _, rfl⟩ := setTemplate_eq_ok set
    simp [h.fields_eq_nil empty]
  | constructor h added ih =>
    obtain ⟨rfl, -⟩ := addConstructor_eq_ok added
    exact ih
  | @field d d' f h added ih =>
    obtain ⟨values, -, rfl, -, accepted⟩ := accepts_of_addField added
    intro g member
    rcases List.mem_append.1 member with old | new
    · exact ih g old
    · rw [List.mem_singleton.1 new]
      exact ⟨d, rfl, accepted⟩

/-- What holds between a field and those that were there when it was accepted holds between any two. -/
theorem Built.pairwise_fields {R : Field → Field → Prop} (h : d.Built)
    (separate : ∀ {d : TypeDef} {f : Field}, d.Accepts f → ∀ other ∈ d.fields, R other f) :
    d.fields.Pairwise R := by
  induction h with
  | new => exact .nil
  | template h assembled set ih =>
    obtain ⟨-, _, _, rfl⟩ := setTemplate_eq_ok set
    exact ih
  | constructor h added ih =>
    obtain ⟨rfl, -⟩ := addConstructor_eq_ok added
    exact ih
  | field h added ih =>
    obtain ⟨values, -, rfl, -, accepted⟩ := accepts_of_addField added
    refine List.pairwise_append.2 ⟨ih, List.pairwise_singleton .., fun other known f new => ?_⟩
    rw [List.mem_singleton.1 new]
    exact separate accepted other known

theorem Built.arities (h : d.Built) : (d.constructors.map (·.arity)).Nodup := by
  induction h with
  | new => exact List.nodup_nil
  | template h assembled set ih =>
    obtain ⟨-, _, _, rfl⟩ := setTemplate_eq_ok set
    exact ih
  | constructor h added ih =>
    obtain ⟨rfl, fresh⟩ := addConstructor_eq_ok added
    rw [List.map_append, List.map_singleton, List.nodup_append]
    refine ⟨ih, List.nodup_singleton _, ?_⟩
    rintro arity known other new rfl
    obtain ⟨c, member, rfl⟩ := List.mem_map.1 known
    exact fresh c member (List.mem_singleton.1 new)
  | field h added ih =>
    obtain ⟨_, rfl, -⟩ := addField_eq_ok added
    exact ih

/-! ### Types whose parts fit together -/

/-- The group's count is the one that the field is repeated by. -/
def Counts (d : TypeDef) (g : ListGroup) (r : Repetition) : Prop :=
  ∃ e, d.template.entries[g.count]? = some e ∧ e.tag = .count ∧ e.label = r.count

/-- The label is one of those that the group repeats. -/
def Repeats (d : TypeDef) (g : ListGroup) (label : String) : Prop :=
  ∃ i e, d.template.entries[i]? = some e ∧ e.label = label ∧ g.contains i

/-- The parts of a type fit together. -/
structure Sound (d : TypeDef) : Prop where
  labels : (d.template.entries.map (·.label)).Nodup
  groups : Template.Grouped 0 d.template.entries d.template.groups
  names : (d.fields.map (·.name)).Nodup
  arities : (d.constructors.map (·.arity)).Nodup
  /-- Every part of a field has an entry that holds values, and a descriptor that fits it. -/
  parts : ∀ f ∈ d.fields, ∀ v ∈ f.parts, ∃ e ∈ d.template.entries, e.label = v.name ∧
    e.tag.HoldsValue ∧ ∃ descriptor, v.descriptor = some descriptor ∧ descriptor.accepts e.tag
  /-- What a group repeats belongs to a field that is repeated by the group's count. -/
  members : ∀ g ∈ d.template.groups, ∀ label, d.Repeats g label → ∀ f ∈ d.fields, label ∈ f.labels →
    ∃ r, f.repetition = some r ∧ d.Counts g r
  /-- A repeated field has sensible bounds, and all its labels are in one group. -/
  lists : ∀ f ∈ d.fields, ∀ r, f.repetition = some r → (0 ≤ r.lower ∧ r.lower ≤ r.upper) ∧
    ∃ g ∈ d.template.groups, d.Counts g r ∧ ∀ label ∈ f.labels, d.Repeats g label
  /-- No two fields are repeated by one count. -/
  counts : d.fields.Pairwise fun f f' => ∀ r r', f.repetition = some r → f'.repetition = some r' →
    r.count ≠ r'.count

theorem Validated.grouped (h : d.Validated) :
    Template.Grouped 0 d.template.entries d.template.groups := by
  obtain ⟨t, accepted⟩ := h
  exact Template.grouped_of_validate accepted

theorem counts_of_groupCountedBy? (h : d.Validated) {r : Repetition}
    (counted : d.template.groupCountedBy? r.count = some g) :
    g ∈ d.template.groups ∧ d.Counts g r := by
  obtain ⟨member, e, found, label⟩ := Template.of_groupCountedBy? counted
  obtain ⟨k, e', count, -, found', tag⟩ := h.grouped.count_at member
  rw [count, Nat.zero_add, found'] at found
  cases found
  exact ⟨member, e, by rw [count, Nat.zero_add, found'], tag, label⟩

theorem repeats_of_isInGroup (h : d.isInGroup g label) : d.Repeats g label := by
  obtain ⟨i, found, inside⟩ := (Option.any_eq_true _ _).1 h
  obtain ⟨e, there, same⟩ := Template.getElem?_of_indexOf? found
  exact ⟨i, e, there, same, inside⟩

theorem Built.parts (h : d.Built) : ∀ f ∈ d.fields, ∀ v ∈ f.parts, ∃ e ∈ d.template.entries,
    e.label = v.name ∧ e.tag.HoldsValue ∧
      ∃ descriptor, v.descriptor = some descriptor ∧ descriptor.accepts e.tag := by
  intro f known v part
  obtain ⟨earlier, same, accepted⟩ := h.accepted f known
  obtain ⟨e, found, plain, described⟩ := accepted.storable v part
  rw [same] at found
  have label : e.label = v.name := by simpa using List.find?_some found
  exact ⟨e, List.mem_of_find?_eq_some found, label, Tag.holdsValue_iff.2 plain, described⟩

theorem Built.lists (h : d.Built) : ∀ f ∈ d.fields, ∀ r, f.repetition = some r →
    (0 ≤ r.lower ∧ r.lower ≤ r.upper) ∧
      ∃ g ∈ d.template.groups, d.Counts g r ∧ ∀ label ∈ f.labels, d.Repeats g label := by
  intro f known r repeats
  obtain ⟨earlier, same, accepted⟩ := h.accepted f known
  obtain ⟨g, counted, bounds, -, inside⟩ := accepted.repeated r repeats
  rw [same] at counted
  obtain ⟨member, counts⟩ := counts_of_groupCountedBy? h.consistent.validated counted
  refine ⟨bounds, g, member, counts, fun label claimed => ?_⟩
  have within := inside label claimed
  rw [isInGroup, same] at within
  exact repeats_of_isInGroup within

theorem isInList_of_repeats (labels : (d.template.entries.map (·.label)).Nodup)
    (member : g ∈ d.template.groups) (h : d.Repeats g label) : d.isInList label = true := by
  obtain ⟨i, e, found, rfl, inside⟩ := h
  rw [isInList, Template.indexOf?_of_getElem? labels found]
  exact List.find?_isSome.2 ⟨g, member, inside⟩

theorem Built.members (h : d.Built) : ∀ g ∈ d.template.groups, ∀ label, d.Repeats g label →
    ∀ f ∈ d.fields, label ∈ f.labels → ∃ r, f.repetition = some r ∧ d.Counts g r := by
  intro g member label repeated f known claimed
  have labels := h.consistent.labels
  cases repeats : f.repetition with
  | none =>
    obtain ⟨earlier, same, accepted⟩ := h.accepted f known
    have outside := accepted.single repeats label claimed
    rw [isInList, same] at outside
    have inside := isInList_of_repeats labels member repeated
    rw [isInList, outside] at inside
    cases inside
  | some r =>
    obtain ⟨-, g', member', counts, inside⟩ := h.lists f known r repeats
    -- the label stands at one position only, which is in both groups
    obtain ⟨i, e, found, rfl, within⟩ := repeated
    obtain ⟨i', e', found', label', within'⟩ := inside e.label claimed
    have first := Template.indexOf?_of_getElem? labels found
    have second := Template.indexOf?_of_getElem? labels found'
    rw [label', first] at second
    cases second
    have same := h.consistent.validated.grouped.eq_of_contains member member' within within'
    exact ⟨r, rfl, same ▸ counts⟩

theorem Built.counts (h : d.Built) : d.fields.Pairwise fun f f' =>
    ∀ r r', f.repetition = some r → f'.repetition = some r' → r.count ≠ r'.count := by
  apply h.pairwise_fields
  intro d f accepted other known r r' repeats repeats' same
  obtain ⟨g, -, -, unowned, -⟩ := accepted.repeated r' repeats'
  have free := List.find?_eq_none.1 unowned other known
  simp [repeats, same] at free

theorem Built.sound (h : d.Built) : d.Sound where
  labels := h.consistent.labels
  groups := h.consistent.validated.grouped
  names := h.consistent.names
  arities := h.arities
  parts := h.parts
  members := h.members
  lists := h.lists
  counts := h.counts

/-! ### Types in which no label is left -/

/-- Every label that holds a value and that no group repeats is claimed. -/
def Complete (d : TypeDef) : Prop :=
  ∀ e ∈ d.template.entries, e.tag.HoldsValue → (∀ g ∈ d.template.groups, ¬d.Repeats g e.label) →
    ∃ f ∈ d.fields, e.label ∈ f.labels

theorem exists_repeats_of_isInList (h : d.isInList label) :
    ∃ g ∈ d.template.groups, d.Repeats g label := by
  obtain ⟨i, found, listed⟩ := (Option.any_eq_true _ _).1 h
  obtain ⟨e, there, same⟩ := Template.getElem?_of_indexOf? found
  obtain ⟨g, member, inside⟩ := List.find?_isSome.1 listed
  exact ⟨g, member, i, e, there, same, inside⟩

/-- The second type has all that the first one has, and possibly further fields. -/
def Grown (d d' : TypeDef) : Prop := ∃ more, d' = { d with fields := d.fields ++ more }

theorem Grown.refl (d : TypeDef) : Grown d d := by
  -- types occur in the templates of types, so they have no eta rule
  cases d
  exact ⟨[], by simp⟩

theorem Grown.trans {d'' : TypeDef} (h : Grown d d') (h' : Grown d' d'') : Grown d d'' := by
  obtain ⟨more, rfl⟩ := h
  obtain ⟨more', rfl⟩ := h'
  exact ⟨more ++ more', by rw [List.append_assoc]⟩

theorem Grown.of_addField {f : Field} (h : d.addField f = .ok d') : Grown d d' := by
  obtain ⟨values, rfl, -⟩ := addField_eq_ok h
  exact ⟨_, rfl⟩

theorem Grown.mem_fields (h : Grown d d') {f : Field} (known : f ∈ d.fields) : f ∈ d'.fields := by
  obtain ⟨more, rfl⟩ := h
  exact List.mem_append_left _ known

theorem claims_of_addField_synthesize (h : d.addField (Field.synthesize label origin) = .ok d') :
    ∃ f ∈ d'.fields, label ∈ f.labels := by
  obtain ⟨values, checked, rfl, -, -⟩ := accepts_of_addField h
  refine ⟨_, List.mem_append_right _ List.mem_cons_self, ?_⟩
  rw [labels_of_mapM_checkParts checked]
  simp [Field.labels, Field.parts, FieldValue.parts, Field.synthesize]

theorem claimed_of_foldlM_addField {labels : List String}
    (h : labels.foldlM (fun d label => d.addField (Field.synthesize label origin)) d = .ok d') :
    Grown d d' ∧ ∀ label ∈ labels, ∃ f ∈ d'.fields, label ∈ f.labels := by
  induction labels generalizing d with
  | nil =>
    cases h
    exact ⟨.refl _, by simp⟩
  | cons label labels ih =>
    rw [List.foldlM_cons] at h
    obtain ⟨next, added, h⟩ := exists_of_bind_eq_ok h
    obtain ⟨grown, claimed⟩ := ih h
    refine ⟨(Grown.of_addField added).trans grown, fun other member => ?_⟩
    rcases List.mem_cons.1 member with rfl | member
    · obtain ⟨f, known, claims⟩ := claims_of_addField_synthesize added
      exact ⟨f, grown.mem_fields known, claims⟩
    · exact claimed other member

theorem complete_of_addImplicitFields (h : d.addImplicitFields origin = .ok d') : d'.Complete := by
  obtain ⟨⟨more, rfl⟩, claimed⟩ := claimed_of_foldlM_addField h
  intro e member plain outside
  by_cases owned : ∃ f ∈ d.fields, e.label ∈ f.labels
  · obtain ⟨f, known, claims⟩ := owned
    exact ⟨f, List.mem_append_left _ known, claims⟩
  · -- it was among the labels for which a field was added
    apply claimed
    refine List.mem_map.2 ⟨e, List.mem_filter.2 ⟨member, ?_⟩, rfl⟩
    have marker := Tag.holdsValue_iff.1 plain
    have single : d.isInList e.label = false := by
      by_contra listed
      obtain ⟨g, known, repeated⟩ := exists_repeats_of_isInList (by simpa using listed)
      exact outside g known repeated
    have free : d.fieldOfLabel? e.label = none :=
      fieldOfLabel?_eq_none.2 fun f known claims => owned ⟨f, known, claims⟩
    simp [marker, single, free]

/-! ### Whole sequences -/

theorem apply_addImplicitFields (h : d.addImplicitFields origin = .ok d') :
    Operation.apply d (.addImplicitFields origin) = d' := by
  rw [addImplicitFields_eq] at h
  simp only [Operation.apply, Operation.perform]
  cases run : fillIn origin d with
  | ok _ next =>
    rw [run] at h
    cases h
    rfl
  | error e next =>
    rw [run] at h
    cases h

theorem eq_of_attempt_eq_error (h : attempt change d = .error e d') : d' = d := by
  simp only [attempt] at h
  cases made : change d with
  | ok next =>
    rw [made] at h
    cases h
  | error e' =>
    rw [made] at h
    cases h
    rfl

theorem grown_of_fillIn_eq_error (h : fillIn origin d = .error e d') : Grown d d' := by
  have grows : Keeps (Grown d) (fillIn origin) :=
    keeps_fillIn fun grown added => grown.trans (.of_addField added)
  have kept := grows d (.refl d)
  rwa [h] at kept

/-- What a failed operation leaves. -/
theorem Operation.of_perform_eq_error {operation : Operation}
    (h : operation.perform d = .error e d') :
    d' = d ∨ ∃ origin, operation = .addImplicitFields origin ∧ Grown d d' := by
  rw [Operation.perform_eq] at h
  cases operation with
  | setTemplate t => exact .inl (eq_of_attempt_eq_error h)
  | addField f => exact .inl (eq_of_attempt_eq_error h)
  | addConstructor c => exact .inl (eq_of_attempt_eq_error h)
  | addImplicitFields origin => exact .inr ⟨origin, rfl, grown_of_fillIn_eq_error h⟩

/-- After any operations, also failed ones, the parts of a type fit together. A failed operation leaves
the type as it was, or with more fields if it was to fill in the missing ones. When those have been
filled in, no label is left. -/
theorem sound_of_operations (name code : String) (decorators : Decorators) (origin : Option Lexeme)
    (operations : List Operation) :
    let d : TypeDef := operations.foldl Operation.apply { name, code, decorators, origin }
    d.Sound ∧
      (∀ (operation : Operation) (e : DefinitionError) (d' : TypeDef),
        operation.perform d = .error e d' →
          d' = d ∨ ∃ origin, operation = .addImplicitFields origin ∧ Grown d d') ∧
      ∀ (origin : Lexeme) (d' : TypeDef), d.addImplicitFields origin = .ok d' →
        d'.Sound ∧ d'.Complete := by
  intro d
  have built : d.Built := (Built.new name code decorators origin).foldl_apply operations
  -- the type is put together in the same way when the missing fields have been added
  refine ⟨built.sound, fun operation e d' => Operation.of_perform_eq_error, ?_⟩
  intro origin d' filled
  have built' := built.apply (.addImplicitFields origin)
  rw [apply_addImplicitFields filled] at built'
  exact ⟨built'.sound, complete_of_addImplicitFields filled⟩

end TypeDef

namespace Sample

def word (text : String) : Lexeme :=
  { kind := .identifier, text, start := 0, stop := 0, source := default }

/-- A number, a list of amounts and a note. -/
def ledger : { t : Template TypeDef // t.Assembled } :=
  ⟨{ entries := [{ label := "id", tag := .integer .two true }, { label := "count", tag := .count },
      { label := "begin", tag := .listStart }, { label := "amount", tag := .integer .four true },
      { label := "end", tag := .listEnd }, { label := "note", tag := .shortText }] },
    .ofEntries .big (by decide)⟩

def amounts (name : String) : Field where
  name
  values := [{ name := "amount", origin := word "amount" }]
  repetition := some ⟨0, 8, "count"⟩
  origin := word name

/-- The amounts are claimed twice, and in vain the second time. -/
def bookkeeping : List TypeDef.Operation :=
  [.setTemplate ledger, .addField (amounts "amounts"), .addField (amounts "sums")]

end Sample

theorem TypeDef.sound_ledger :
    let d : TypeDef := Sample.bookkeeping.foldl Operation.apply { name := "Ledger", code := "LDGR" }
    d.Sound ∧ ∃ d', d.addImplicitFields (Sample.word "type") = .ok d' ∧ d'.Sound ∧ d'.Complete ∧
      d'.fields.map (·.name) = ["amounts", "id", "note"] := by
  intro d
  obtain ⟨sound, -, filling⟩ := sound_of_operations "Ledger" "LDGR" {} none Sample.bookkeeping
  have filled : ∃ d', d.addImplicitFields (Sample.word "type") = .ok d' ∧
      d'.fields.map (·.name) = ["amounts", "id", "note"] := ⟨_, rfl, rfl⟩
  obtain ⟨d', filled, names⟩ := filled
  obtain ⟨sound', complete⟩ := filling (Sample.word "type") d' filled
  exact ⟨sound, d', filled, sound', complete, names⟩

end Rsrc
