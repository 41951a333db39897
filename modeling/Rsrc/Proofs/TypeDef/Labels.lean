import Mathlib.Data.List.Nodup
import Rsrc.Proofs.TypeDef.Building

/-!
# Labels that are claimed

No label is claimed by two fields of a type: a field that has a label of another one is rejected, and
the error names both. The labels of one field are not compared with each other, so a label that a field
lists twice is claimed twice (`TypeDef.label_listed_twice`). Such fields are the only ones by which a
label occurs more than once (`TypeDef.claimed_of_operations`).
-/

namespace Rsrc

/-! ### The first of many checks that fails -/

section Errors

variable {ε α β γ δ : Type}

theorem exists_eq_ok_iff {x : Except ε α} : (∃ a, x = .ok a) ↔ ∀ e, x ≠ .error e := by
  cases x <;> simp

theorem bind_pure_eq_error_iff {x : Except ε α} {g : α → β} {e : ε} :
    (x >>= fun a => pure (g a)) = .error e ↔ x = .error e := by
  cases x with
  | ok a => exact ⟨fun h => (by cases h), fun h => (by cases h)⟩
  | error e' => exact ⟨fun h => (by cases h; rfl), fun h => (by cases h; rfl)⟩

/-- If an item fails as its pieces do one after the other, then so do all items. -/
theorem mapM_flatMap_eq_error_iff {whole : α → Except ε γ} {piece : β → Except ε δ}
    {pieces : α → List β} (each : ∀ a e, whole a = .error e ↔ (pieces a).mapM piece = .error e)
    (items : List α) (e : ε) :
    items.mapM whole = .error e ↔ (items.flatMap pieces).mapM piece = .error e := by
  induction items with
  | nil => exact ⟨fun h => (by cases h), fun h => (by cases h)⟩
  | cons a items ih =>
    rw [List.mapM_cons, List.flatMap_cons, List.mapM_append]
    cases here : whole a with
    | error e' =>
      rw [(each a e').1 here]
      exact ⟨fun h => (by cases h; rfl), fun h => (by cases h; rfl)⟩
    | ok c =>
      cases inside : (pieces a).mapM piece with
      | error e' =>
        rw [(each a e').2 inside] at here
        cases here
      | ok cs =>
        -- neither side stops here, so both stop where the rest of the items does
        calc
          _ ↔ items.mapM whole = .error e := bind_pure_eq_error_iff
          _ ↔ (items.flatMap pieces).mapM piece = .error e := ih
          _ ↔ _ := bind_pure_eq_error_iff.symm

end Errors

namespace TypeDef

variable {d d' : TypeDef} {v : FieldValue} {f : Field} {label : String} {owner : Field}
  {name : String}

/-- The labels of all values and joined parts of all fields. -/
def claimed (d : TypeDef) : List String := d.fields.flatMap (·.labels)

theorem notMem_claimed_iff : label ∉ d.claimed ↔ d.fieldOfLabel? label = none := by
  rw [fieldOfLabel?_eq_none]
  simp [claimed]

/-! ### Values -/

/-- There is an entry for the value, which holds values of its descriptor if it has one. -/
def Fits (d : TypeDef) (v : FieldValue) : Prop :=
  ∃ e, d.template.entry? v.name = some e ∧ e.tag.HoldsValue ∧
    ∀ descriptor, v.descriptor = some descriptor → descriptor.accepts e.tag = true

theorem checkValue_of_claimed (fits : d.Fits v) (owned : d.fieldOfLabel? v.name = some owner) :
    d.checkValue name v = .error (.labelClaimed v.name owner.name) := by
  obtain ⟨e, found, holds, -⟩ := fits
  have marker : ¬e.tag.isListMarker := by simp [Tag.holdsValue_iff.1 holds]
  unfold checkValue
  rw [found]
  dsimp only
  rw [if_neg marker, owned]
  rfl

theorem exists_checkValue_of_unclaimed (fits : d.Fits v) (free : v.name ∉ d.claimed) :
    ∃ v', d.checkValue name v = .ok v' := by
  obtain ⟨e, found, holds, accepts⟩ := fits
  have marker : ¬e.tag.isListMarker := by simp [Tag.holdsValue_iff.1 holds]
  unfold checkValue
  rw [found]
  dsimp only
  rw [if_neg marker, notMem_claimed_iff.1 free]
  cases written : v.descriptor with
  | none => exact ⟨_, rfl⟩
  | some descriptor =>
    dsimp only
    rw [if_pos (accepts descriptor written)]
    exact ⟨v, rfl⟩

theorem fits_of_checkValue {v' : FieldValue} (h : d.checkValue name v = .ok v') : d.Fits v := by
  obtain ⟨named, -, ⟨e, found, plain, descriptor, settled, accepts⟩, -, kept⟩ := checkValue_eq_ok h
  rw [named] at found
  refine ⟨e, found, Tag.holdsValue_iff.2 plain, fun written same => ?_⟩
  rw [kept written same] at settled
  cases settled
  exact accepts

/-- A value fails as its parts do one after the other. -/
theorem checkParts_eq_error_iff (v : FieldValue) (e : DefinitionError) :
    d.checkParts name v = .error e ↔ v.parts.mapM (d.checkValue name) = .error e := by
  rw [checkParts, FieldValue.parts, List.mapM_cons]
  cases d.checkValue name v with
  | error e' => exact ⟨fun h => (by cases h; rfl), fun h => (by cases h; rfl)⟩
  | ok checked => exact bind_pure_eq_error_iff.trans bind_pure_eq_error_iff.symm

theorem mapM_checkParts_eq_error_iff {e : DefinitionError} :
    f.values.mapM (d.checkParts f.name) = .error e ↔
      f.parts.mapM (d.checkValue f.name) = .error e :=
  mapM_flatMap_eq_error_iff checkParts_eq_error_iff f.values e

/-- Among parts that fit, the first one whose label is claimed makes the check fail. -/
theorem mapM_checkValue_of_claimed {parts : List FieldValue} (fits : ∀ p ∈ parts, d.Fits p)
    (first : (parts.map (·.name)).find? (fun label => label ∈ d.claimed) = some label)
    (owned : d.fieldOfLabel? label = some owner) (name : String) :
    parts.mapM (d.checkValue name) = .error (.labelClaimed label owner.name) := by
  induction parts with
  | nil => cases first
  | cons p parts ih =>
    obtain ⟨here, later⟩ := List.forall_mem_cons.1 fits
    rw [List.mapM_cons]
    by_cases taken : p.name ∈ d.claimed
    · have same : p.name = label := by simpa [taken] using first
      rw [← same] at owned ⊢
      rw [checkValue_of_claimed here owned]
      rfl
    · obtain ⟨checked, passed⟩ := exists_checkValue_of_unclaimed here taken
      rw [passed, ih later (by simpa [taken] using first)]
      rfl

/-! ### Fields -/

/-- The field can be added as long as no other field claims one of its labels. -/
structure Admits (d : TypeDef) (f : Field) : Prop extends Placed d f where
  filled : d.template.isEmpty = false
  fresh : ∀ other ∈ d.fields, other.name ≠ f.name
  fits : ∀ v ∈ f.parts, d.Fits v

theorem Placed.congr {f' : Field} (h : d.Placed f) (labels : f'.labels = f.labels)
    (repetition : f'.repetition = f.repetition) : d.Placed f' := by
  constructor
  · rw [labels, repetition]
    exact h.single
  · rw [labels, repetition]
    exact h.repeated

theorem addField_eq_of_fresh (filled : d.template.isEmpty = false)
    (fresh : ∀ other ∈ d.fields, other.name ≠ f.name) :
    d.addField f = do
      let values ← f.values.mapM (d.checkParts f.name)
      d.checkPlacement { f with values }
      return { d with fields := d.fields ++ [{ f with values }] } := by
  have unknown : d.field? f.name = none := by simpa [field?] using fresh
  rw [addField, if_neg (by simp [filled]), if_neg (by simp [unknown])]

/-- The values of a field pass exactly if each part does. -/
theorem exists_mapM_checkParts_iff : (∃ values, f.values.mapM (d.checkParts f.name) = .ok values) ↔
    ∀ p ∈ f.parts, ∃ p', d.checkValue f.name p = .ok p' := by
  rw [← exists_mapM_eq_ok_iff, exists_eq_ok_iff, exists_eq_ok_iff]
  exact forall_congr' fun e => not_congr mapM_checkParts_eq_error_iff

theorem exists_addField_eq_ok_iff :
    (∃ d', d.addField f = .ok d') ↔ d.Admits f ∧ d.claimed.Disjoint f.labels := by
  constructor
  · rintro ⟨d', h⟩
    obtain ⟨values, checked, -, filled, accepted⟩ := accepts_of_addField h
    -- a check may add a descriptor, but it leaves the labels as they are
    have labels := labels_of_mapM_checkParts checked
    have passed := exists_mapM_checkParts_iff.1 ⟨values, checked⟩
    refine ⟨⟨accepted.toPlaced.congr labels.symm rfl, filled, accepted.fresh, ?_⟩, ?_⟩
    · intro p part
      obtain ⟨p', made⟩ := passed p part
      exact fits_of_checkValue made
    · intro label known own
      obtain ⟨other, member, claims⟩ := List.mem_flatMap.1 known
      exact accepted.unclaimed label (by rwa [labels]) other member claims
  · rintro ⟨admitted, disjoint⟩
    obtain ⟨values, checked⟩ := exists_mapM_checkParts_iff.2 fun p part =>
      exists_checkValue_of_unclaimed (admitted.fits p part) (disjoint · (mem_labels part))
    have placed : d.Placed { f with values } :=
      admitted.toPlaced.congr (labels_of_mapM_checkParts checked) rfl
    refine ⟨{ d with fields := d.fields ++ [{ f with values }] }, ?_⟩
    rw [addField_eq_of_fresh admitted.filled admitted.fresh, checked]
    show (d.checkPlacement { f with values } >>= fun _ => pure _) = _
    rw [checkPlacement_eq_ok_iff.2 placed]
    rfl

theorem exists_first_claimed {labels : List String} (shared : ¬d.claimed.Disjoint labels) :
    ∃ label owner, labels.find? (fun label => label ∈ d.claimed) = some label ∧
      d.fieldOfLabel? label = some owner := by
  cases first : labels.find? (fun label => label ∈ d.claimed) with
  | none =>
    refine absurd (fun label known own => ?_) shared
    exact List.find?_eq_none.1 first label own (by simpa using known)
  | some label =>
    have known : label ∈ d.claimed := by simpa using List.find?_some first
    cases owned : d.fieldOfLabel? label with
    | none => exact absurd known (notMem_claimed_iff.2 owned)
    | some owner => exact ⟨label, owner, rfl, owned⟩

/-- A field that can be added but for its labels is rejected for the first that is claimed. -/
theorem addField_of_claimed (admitted : d.Admits f)
    (first : f.labels.find? (fun label => label ∈ d.claimed) = some label)
    (owned : d.fieldOfLabel? label = some owner) :
    d.addField f = .error (.labelClaimed label owner.name) := by
  have failed := mapM_checkValue_of_claimed admitted.fits first owned f.name
  rw [addField_eq_of_fresh admitted.filled admitted.fresh, mapM_checkParts_eq_error_iff.2 failed]
  rfl

theorem claimed_of_addField (h : d.addField f = .ok d') : d'.claimed = d.claimed ++ f.labels := by
  obtain ⟨values, checked, rfl, -, -⟩ := accepts_of_addField h
  simp [claimed, labels_of_mapM_checkParts checked]

theorem nodup_claimed_of_addField (h : d.addField f = .ok d') (once : f.labels.Nodup)
    (distinct : d.claimed.Nodup) : d'.claimed.Nodup := by
  obtain ⟨-, disjoint⟩ := exists_addField_eq_ok_iff.1 ⟨d', h⟩
  rw [claimed_of_addField h]
  exact distinct.append once disjoint

/-! ### Whole sequences -/

theorem Built.disjoint_labels (h : d.Built) :
    d.fields.Pairwise fun f f' => f.labels.Disjoint f'.labels := by
  apply h.pairwise_fields
  intro d f accepted other known label theirs own
  exact accepted.unclaimed label own other known theirs

theorem Operation.keeps_nodup_claimed {operation : Operation}
    (once : ∀ f, operation = .addField f → f.labels.Nodup) :
    Keeps (fun d => d.claimed.Nodup) operation.perform := by
  rw [perform_eq]
  cases operation with
  | setTemplate t =>
    refine keeps_attempt fun distinct set => ?_
    obtain ⟨-, _, -, rfl⟩ := setTemplate_eq_ok set
    exact distinct
  | addField f =>
    exact keeps_attempt fun distinct added => nodup_claimed_of_addField added (once f rfl) distinct
  | addConstructor c =>
    refine keeps_attempt fun distinct added => ?_
    obtain ⟨rfl, -⟩ := addConstructor_eq_ok added
    exact distinct
  | addImplicitFields origin =>
    -- a field that is filled in has a single label
    refine keeps_fillIn fun distinct added => nodup_claimed_of_addField added ?_ distinct
    simp [Field.labels, Field.parts, FieldValue.parts, Field.synthesize]

theorem nodup_claimed_foldl_apply {operations : List Operation}
    (once : ∀ f, .addField f ∈ operations → f.labels.Nodup) (distinct : d.claimed.Nodup) :
    (operations.foldl Operation.apply d).claimed.Nodup := by
  induction operations generalizing d with
  | nil => exact distinct
  | cons operation operations ih =>
    apply ih
    · intro f member
      exact once f (List.mem_cons_of_mem _ member)
    · refine Operation.apply_of_keeps (Operation.keeps_nodup_claimed ?_) distinct
      rintro f rfl
      exact once f List.mem_cons_self

/-- No label is claimed by two fields, and none is claimed twice unless a field lists it twice. A field
is accepted if it suits the template and the names and lists so far, and none of its labels is claimed;
its own labels may repeat. Where only a claimed label is in its way, the error tells which field has
it. -/
theorem claimed_of_operations (name code : String) (decorators : Decorators) (origin : Option Lexeme)
    (operations : List Operation) :
    let d : TypeDef := operations.foldl Operation.apply { name, code, decorators, origin }
    d.fields.Pairwise (fun f f' => f.labels.Disjoint f'.labels) ∧
      (d.claimed.Nodup ↔ ∀ f ∈ d.fields, f.labels.Nodup) ∧
      ((∀ f, .addField f ∈ operations → f.labels.Nodup) → d.claimed.Nodup) ∧
      ∀ f : Field,
        ((∃ d', d.addField f = .ok d') ↔ d.Admits f ∧ d.claimed.Disjoint f.labels) ∧
        (∀ d', d.addField f = .ok d' → d'.claimed = d.claimed ++ f.labels) ∧
        (d.Admits f → ¬d.claimed.Disjoint f.labels → ∃ label owner,
          f.labels.find? (fun label => label ∈ d.claimed) = some label ∧
          d.fieldOfLabel? label = some owner ∧
          (Operation.addField f).perform d = .error (.labelClaimed label owner.name) d) := by
  intro d
  have built : d.Built := (Built.new name code decorators origin).foldl_apply operations
  have disjoint := built.disjoint_labels
  refine ⟨disjoint, ?_, fun once => nodup_claimed_foldl_apply once List.nodup_nil, fun f =>
    ⟨exists_addField_eq_ok_iff, fun d' => claimed_of_addField, fun admitted shared => ?_⟩⟩
  · rw [claimed, List.nodup_flatMap]
    exact and_iff_left disjoint
  · obtain ⟨label, owner, first, owned⟩ := exists_first_claimed shared
    refine ⟨label, owner, first, owned, ?_⟩
    simp [Operation.perform, putField_eq, attempt, addField_of_claimed admitted first owned]

end TypeDef

namespace Sample

def pair : { t : Template TypeDef // t.Assembled } :=
  ⟨{ entries := [{ label := "a", tag := .integer .two true }, { label := "b", tag := .boolean }] },
    .ofEntries .big (by decide)⟩

def part (name : String) (joined : List FieldValue) : FieldValue :=
  { name, joined, origin := word name }

def listing (name : String) (values : List FieldValue) : Field := { name, values, origin := word name }

/-- A type with a field of these values, if it is accepted. -/
def listed (values : List FieldValue) : TypeDef :=
  [.setTemplate pair, .addField (listing "f" values)].foldl TypeDef.Operation.apply
    { name := "Item", code := "ITEM" }

theorem listing_admitted : (listed [part "a" []]).Admits (listing "g" [part "b" [part "a" []]]) where
  single _ := by decide
  repeated _ h := by cases h
  filled := rfl
  fresh := by decide
  fits := by
    intro v member
    have either : v = part "b" [part "a" []] ∨ v = part "a" [] := by
      simpa [Field.parts, FieldValue.parts, listing, part] using member
    rcases either with rfl | rfl
    · exact ⟨_, rfl, Tag.holdsValue_iff.2 rfl, by simp [part]⟩
    · exact ⟨_, rfl, Tag.holdsValue_iff.2 rfl, by simp [part]⟩

end Sample

/-- A joined part that is a value of another field is found, and the error names that field. -/
theorem TypeDef.joined_label_claimed :
    (Sample.listed [Sample.part "a" []]).claimed.Nodup ∧
      (Operation.addField (Sample.listing "g" [Sample.part "b" [Sample.part "a" []]])).perform
        (Sample.listed [Sample.part "a" []]) =
          .error (.labelClaimed "a" "f") (Sample.listed [Sample.part "a" []]) := by
  obtain ⟨-, once, -, fields⟩ := claimed_of_operations "Item" "ITEM" {} none
    [.setTemplate Sample.pair, .addField (Sample.listing "f" [Sample.part "a" []])]
  obtain ⟨-, -, rejected⟩ := fields (Sample.listing "g" [Sample.part "b" [Sample.part "a" []]])
  have shared : ¬["a"].Disjoint ["b", "a"] := by simp
  obtain ⟨label, owner, first, owned, failed⟩ := rejected Sample.listing_admitted shared
  obtain rfl : "a" = label := Option.some.inj first
  have named : some "f" = some owner.name := congrArg (Option.map Field.name) owned
  rw [← Option.some.inj named] at failed
  exact ⟨once.2 (by decide), failed⟩

/-- One field may list a label twice: as two values, as a value and what is joined to it, or as two
joined parts. -/
theorem TypeDef.label_listed_twice :
    (Sample.listed [Sample.part "a" [], Sample.part "a" []]).claimed = ["a", "a"] ∧
      (Sample.listed [Sample.part "a" [Sample.part "a" []]]).claimed = ["a", "a"] ∧
      (Sample.listed [Sample.part "b" [Sample.part "a" [], Sample.part "a" []]]).claimed =
        ["b", "a", "a"] :=
  ⟨rfl, rfl, rfl⟩

end Rsrc
