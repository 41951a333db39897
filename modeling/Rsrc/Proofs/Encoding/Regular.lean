import Mathlib.Data.List.Induction
import Mathlib.Data.List.Nodup
import Rsrc.Proofs.Encoding.Canonical
import Rsrc.Proofs.Encoding.Section

/-!
# Regular types

A type that was put together by the operations on types has distinct labels and distinct names of
fields. If, besides, no label and no name of a repeatable field has a point in it, then the keys of
different lists differ, those of nested types included.
-/

namespace Rsrc

variable {τ : Type} {t : Template τ}

/-! ### Types as they are put together -/

/-- A template that was filled entry by entry. -/
inductive Template.Assembled : Template τ → Prop where
  | new (order : ByteOrder) : Assembled { order }
  | add {t t' : Template τ} {e : Entry τ} (h : Assembled t) (added : t.addEntry e = .ok t') :
      Assembled t'
  | validate {t t' : Template τ} (h : Assembled t) (accepted : t.validate = .ok t') : Assembled t'

theorem Template.entries_addEntry {t' : Template τ} {e : Entry τ} (h : t.addEntry e = .ok t') :
    t'.entries = t.entries ++ [e] ∧ ∀ e' ∈ t.entries, e'.label ≠ e.label := by
  rw [addEntry] at h
  split at h
  · cases h
  · rename_i unknown
    cases h
    refine ⟨rfl, fun e' member same => unknown ?_⟩
    exact List.find?_isSome.2 ⟨e', member, by simpa using same⟩

theorem Template.entries_validate {t' : Template τ} (h : t.validate = .ok t') :
    t'.entries = t.entries := by
  rw [validate] at h
  split at h
  · cases h
    rfl
  · cases h

theorem Template.Assembled.labels (h : t.Assembled) : (t.entries.map (·.label)).Nodup := by
  induction h with
  | new => exact List.nodup_nil
  | add h added ih =>
    obtain ⟨entries, fresh⟩ := entries_addEntry added
    rw [entries, List.map_append, List.map_singleton, List.nodup_append]
    refine ⟨ih, List.nodup_singleton _, ?_⟩
    rintro label known other new rfl
    obtain ⟨e', member, rfl⟩ := List.mem_map.1 known
    exact fresh e' member (List.mem_singleton.1 new)
  | validate h accepted ih => rwa [entries_validate accepted]

/-- Entries with distinct labels can be put together. -/
theorem Template.Assembled.ofEntries (order : ByteOrder) {es : List (Entry τ)}
    (labels : (es.map (·.label)).Nodup) : Assembled { order, entries := es } := by
  induction es using List.reverseRec with
  | nil => exact .new order
  | append_singleton es e ih =>
    rw [List.map_append, List.nodup_append] at labels
    refine .add (e := e) (ih labels.1) ?_
    rw [addEntry, if_neg]
    intro known
    obtain ⟨e', member, same⟩ := List.find?_isSome.1 known
    exact labels.2.2 e'.label (List.mem_map_of_mem member) e.label (by simp) (by simpa using same)

namespace TypeDef

variable {d d' : TypeDef}

/-- A type that was put together by the operations on types. -/
inductive Built : TypeDef → Prop where
  | new (name code : String) (decorators : Decorators) (origin : Option Lexeme) :
      Built { name, code, decorators, origin }
  | template {d d' : TypeDef} {t : Template TypeDef} (h : Built d) (assembled : t.Assembled)
      (set : d.setTemplate t = .ok d') : Built d'
  | constructor {d d' : TypeDef} {c : Constructor} (h : Built d)
      (added : d.addConstructor c = .ok d') : Built d'
  | field {d d' : TypeDef} {f : Field} (h : Built d) (added : d.addField f = .ok d') : Built d'

theorem setTemplate_eq_ok {t : Template TypeDef} (h : d.setTemplate t = .ok d') :
    d.template.isEmpty ∧ ∃ t', t.validate = .ok t' ∧ d' = { d with template := t' } := by
  simp only [setTemplate] at h
  split at h
  · cases h
  · rename_i empty
    obtain ⟨t', accepted, h⟩ := exists_of_bind_eq_ok h
    cases h
    exact ⟨by simpa using empty, t', accepted, rfl⟩

theorem addConstructor_eq_ok {c : Constructor} (h : d.addConstructor c = .ok d') :
    d' = { d with constructors := d.constructors ++ [c] } ∧
      ∀ other ∈ d.constructors, other.arity ≠ c.arity := by
  simp only [addConstructor] at h
  split at h
  · cases h
  · rename_i unknown
    cases h
    refine ⟨rfl, fun other member same => unknown ?_⟩
    exact List.find?_isSome.2 ⟨other, member, by simpa using same⟩

/-- What has been checked when a field was added. -/
theorem addField_eq_ok {f : Field} (h : d.addField f = .ok d') :
    ∃ values, d' = { d with fields := d.fields ++ [{ f with values }] } ∧
      d.template.isEmpty = false ∧ (∀ other ∈ d.fields, other.name ≠ f.name) ∧
      f.values.mapM (d.checkParts f.name) = .ok values ∧
      d.checkPlacement { f with values } = .ok () := by
  simp only [addField] at h
  split at h
  · cases h
  · rename_i filled
    split at h
    · cases h
    · rename_i unknown
      have fresh : ∀ other ∈ d.fields, other.name ≠ f.name := fun other member same =>
        unknown (List.find?_isSome.2 ⟨other, member, by simpa using same⟩)
      obtain ⟨values, checked, h⟩ := exists_of_bind_eq_ok h
      obtain ⟨_, placed, h⟩ := exists_of_bind_eq_ok h
      cases h
      exact ⟨values, rfl, by simpa using filled, fresh, checked, placed⟩

/-- What holds of every type that was put together by the operations on types. -/
structure Consistent (d : TypeDef) : Prop where
  validated : d.Validated
  labels : (d.template.entries.map (·.label)).Nodup
  names : (d.fields.map (·.name)).Nodup

theorem Built.consistent (h : d.Built) : d.Consistent := by
  induction h with
  | new => exact ⟨⟨{}, rfl⟩, List.nodup_nil, List.nodup_nil⟩
  | @template d d' t h assembled set ih =>
    obtain ⟨-, t', accepted, rfl⟩ := setTemplate_eq_ok set
    refine ⟨⟨t, accepted⟩, ?_, ih.names⟩
    rw [Template.entries_validate accepted]
    exact assembled.labels
  | constructor h added ih =>
    obtain ⟨rfl, -⟩ := addConstructor_eq_ok added
    exact ⟨ih.validated, ih.labels, ih.names⟩
  | field h added ih =>
    obtain ⟨values, rfl, -, fresh, -, -⟩ := addField_eq_ok added
    refine ⟨ih.validated, ih.labels, ?_⟩
    rw [List.map_append, List.map_singleton, List.nodup_append]
    refine ⟨ih.names, List.nodup_singleton _, ?_⟩
    rintro name known other new rfl
    obtain ⟨f, member, rfl⟩ := List.mem_map.1 known
    exact fresh f member (List.mem_singleton.1 new)

/-- A type whose labels and names of lists have no points in them. -/
structure Regular (d : TypeDef) : Prop where
  built : d.Built
  labels : ∀ e ∈ d.template.entries, '.' ∉ e.label.toList
  lists : ∀ f ∈ d.fields, f.isRepeatable → '.' ∉ f.name.toList

end TypeDef

/-! ### Keys with points in them -/

/-- What stands before the first point is determined by the whole. -/
theorem eq_of_append_point {a b : String} (free : '.' ∉ a.toList) (free' : '.' ∉ b.toList)
    {front x y : String} (h : front ++ a ++ "." ++ x = front ++ b ++ "." ++ y) : a = b := by
  have chars := congrArg String.toList h
  simp only [String.toList_append, List.append_assoc, List.append_cancel_left_eq] at chars
  -- Behind the common front, both sides are cut at their first point.
  have before := congrArg (List.takeWhile (· != '.')) chars
  have all : ∀ {text : String}, '.' ∉ text.toList → ∀ c ∈ text.toList, (c != '.') = true := by
    intro text free c member
    rw [bne_iff_ne]
    rintro rfl
    exact free member
  rw [List.takeWhile_append_of_pos (all free), List.takeWhile_append_of_pos (all free')] at before
  exact String.toList_inj.1 (by simpa using before)

theorem append_point_ne {b : String} (free : '.' ∉ b.toList) (front a x : String) :
    front ++ a ++ "." ++ x ≠ front ++ b := by
  intro h
  have chars := congrArg String.toList h
  simp only [String.toList_append, List.append_assoc, List.append_cancel_left_eq] at chars
  exact free (by simp [← chars])

/-! ### Different lists have different keys -/

namespace Slot

variable {fields : List Field} {slots : τ → String → List Slot}

theorem ownedKeys_flatMap {α : Type} (f : α → List Slot) (items : List α) :
    ownedKeys (items.flatMap f) = items.flatMap fun a => ownedKeys (f a) :=
  List.filterMap_flatMap

/-- An entry has the slots of a nested type, or just values. -/
theorem ofEntry_cases (front : String) (e : Entry τ) :
    (∃ t, e.nested = some t ∧ ofEntry slots front e = slots t (front ++ e.label ++ ".")) ∨
      ∀ slot ∈ ofEntry slots front e, ∃ key tag, slot = value key tag := by
  obtain ⟨label, tag, nested, size⟩ := e
  have sides : ∀ slot ∈ Encoding.rectSides.map
      (fun side => value (front ++ label ++ "." ++ side) (.integer .two true)),
      ∃ key tag, slot = value key tag := by
    intro slot member
    obtain ⟨side, _, rfl⟩ := List.mem_map.1 member
    exact ⟨_, _, rfl⟩
  cases tag with
  | rect =>
    cases nested with
    | none => exact .inr sides
    | some t => exact .inl ⟨t, rfl, rfl⟩
  | nested name =>
    cases nested with
    | none => exact .inr sides
    | some t => exact .inl ⟨t, rfl, rfl⟩
  | _ => exact .inr fun slot member => ⟨_, _, List.mem_singleton.1 member⟩

theorem ownedKeys_of_values {slots : List Slot}
    (h : ∀ slot ∈ slots, ∃ key tag, slot = value key tag) : ownedKeys slots = [] := by
  refine List.filterMap_eq_nil_iff.2 fun slot member => ?_
  obtain ⟨key, tag, rfl⟩ := h slot member
  rfl

/-- The lists of a nested type differ from one another, and their keys stand behind what they should
stand behind. -/
def Separate (slots : τ → String → List Slot) (t : τ) : Prop :=
  ∀ front, Distinct (slots t front) ∧ ∀ key ∈ ownedKeys (slots t front), ∃ rest, key = front ++ rest

section Entries

variable {slots : τ → String → List Slot} {es : List (Entry τ)}

theorem mem_ownedKeys_ofEntry {e : Entry τ} (nested : ∀ t, e.nested = some t → Separate slots t)
    {front key : String} (h : key ∈ ownedKeys (ofEntry slots front e)) :
    ∃ rest, key = front ++ e.label ++ "." ++ rest := by
  rcases ofEntry_cases front e with ⟨t, found, same⟩ | values
  · rw [same] at h
    exact (nested t found _).2 key h
  · rw [ownedKeys_of_values values] at h
    cases h

theorem distinct_ofEntry {e : Entry τ} (nested : ∀ t, e.nested = some t → Separate slots t)
    (front : String) : Distinct (ofEntry slots front e) := by
  rcases ofEntry_cases front e with ⟨t, found, same⟩ | values
  · rw [same]
    exact (nested t found _).1
  · refine .intro (by rw [ownedKeys_of_values values]; exact List.nodup_nil) ?_
    intro key owned inner member
    obtain ⟨_, _, impossible⟩ := values _ member
    cases impossible

theorem distinct_entries (labels : (es.map (·.label)).Nodup)
    (points : ∀ e ∈ es, '.' ∉ e.label.toList)
    (nested : ∀ e ∈ es, ∀ t, e.nested = some t → Separate slots t) (front : String) :
    Distinct (es.flatMap (ofEntry slots front)) := by
  have each : ∀ e ∈ es, Distinct (ofEntry slots front e) := fun e member =>
    distinct_ofEntry (nested e member) front
  refine .intro ?_ ?_
  · rw [ownedKeys_flatMap, List.nodup_flatMap]
    refine ⟨fun e member => (each e member).keys, ?_⟩
    -- Keys of one entry start with its label and a point, so two entries share none.
    refine (List.pairwise_map.1 labels).imp_of_mem fun {e e'} member member' differ => ?_
    intro key here there
    obtain ⟨x, rfl⟩ := mem_ownedKeys_ofEntry (nested e member) here
    obtain ⟨y, same⟩ := mem_ownedKeys_ofEntry (nested e' member') there
    exact differ (eq_of_append_point (points e member) (points e' member') same)
  · intro key owned inner member
    obtain ⟨e, known, found⟩ := List.mem_flatMap.1 member
    exact (each e known).members key owned inner found

end Entries

/-! ### Sections and types -/

/-- The key belongs to a list behind an entry: one inside the type that is nested there, or the one
that the entry counts. -/
def KeyOf (fields : List Field) (front : String) (e : Entry τ) (key : String) : Prop :=
  (∃ rest, key = front ++ e.label ++ "." ++ rest) ∨
    ∃ f, listOwner? fields e.label = some f ∧ key = front ++ f.name

theorem listOwner?_eq_some {count : String} {f : Field} (h : listOwner? fields count = some f) :
    f ∈ fields ∧ f.isRepeatable ∧ f.repetition.map (·.count) = some count := by
  have known := List.mem_of_find?_eq_some h
  have counts := List.find?_some h
  cases repeats : f.repetition with
  | none => simp [repeats] at counts
  | some r => exact ⟨known, by simp [Field.isRepeatable, repeats], by simpa [repeats] using counts⟩

/-- A key belongs to entries of one label only. -/
theorem KeyOf.label_eq (names : (fields.map (·.name)).Nodup)
    (lists : ∀ f ∈ fields, f.isRepeatable → '.' ∉ f.name.toList) {front key : String}
    {e e' : Entry τ} (free : '.' ∉ e.label.toList) (free' : '.' ∉ e'.label.toList)
    (h : KeyOf fields front e key) (h' : KeyOf fields front e' key) : e.label = e'.label := by
  rcases h with ⟨x, rfl⟩ | ⟨f, owner, rfl⟩
  · rcases h' with ⟨y, same⟩ | ⟨f', owner', same⟩
    · exact eq_of_append_point free free' same
    · obtain ⟨known', repeats', _⟩ := listOwner?_eq_some owner'
      exact absurd same (append_point_ne (lists f' known' repeats') _ _ _)
  · obtain ⟨known, repeats, counts⟩ := listOwner?_eq_some owner
    rcases h' with ⟨y, same⟩ | ⟨f', owner', same⟩
    · exact absurd same.symm (append_point_ne (lists f known repeats) _ _ _)
    · -- Fields of one name are the same field, and a field has one count.
      obtain ⟨known', _, counts'⟩ := listOwner?_eq_some owner'
      have name : f.name = f'.name := by simpa using same
      obtain rfl := List.inj_on_of_nodup_map names known known' name
      exact Option.some.inj (counts.symm.trans counts')

theorem mem_ownedKeys_ofSection {front key : String} {part : Section τ}
    (nested : ∀ e ∈ part.entries, ∀ t, e.nested = some t → Separate slots t)
    (h : key ∈ ownedKeys (ofSection fields slots front part)) :
    ∃ e ∈ part.heads, KeyOf fields front e key := by
  cases part with
  | plain es =>
    rw [ofSection, ownedKeys_flatMap] at h
    obtain ⟨e, member, found⟩ := List.mem_flatMap.1 h
    exact ⟨e, member, .inl (mem_ownedKeys_ofEntry (nested e member) found)⟩
  | list count members =>
    refine ⟨count, List.mem_singleton_self count, .inr ?_⟩
    cases owner : listOwner? fields count.label with
    | none => simp [ofSection, owner, ownedKeys] at h
    | some f => exact ⟨f, rfl, by simpa [ofSection, owner, ownedKeys] using h⟩

theorem distinct_ofSection (front : String) {part : Section τ}
    (labels : (part.entries.map (·.label)).Nodup) (points : ∀ e ∈ part.entries, '.' ∉ e.label.toList)
    (nested : ∀ e ∈ part.entries, ∀ t, e.nested = some t → Separate slots t) :
    Distinct (ofSection fields slots front part) := by
  cases part with
  | plain es => exact distinct_entries labels points nested front
  | list count members =>
    refine .intro ?_ ?_
    · rw [ofSection]
      cases listOwner? fields count.label with
      | none => exact List.nodup_nil
      | some f => exact List.nodup_singleton _
    · intro key owned inner member
      have same := List.mem_singleton.1 member
      simp only [list.injEq] at same
      rw [same.2.2]
      exact distinct_entries labels points nested ""

end Slot

open Slot in
theorem TypeDef.Regular.separate {d : TypeDef} (h : d.Everywhere Regular) :
    Separate TypeDef.slots d := by
  induction h with
  | @intro d here nested ih =>
    obtain ⟨built, points, lists⟩ := here
    obtain ⟨validated, labels, names⟩ := built.consistent
    have balanced := validated.balanced
    have inside : ∀ part ∈ d.template.sections, ∀ e ∈ part.entries, e ∈ d.template.entries :=
      fun part known e member => (mem_template balanced known member).1
    have separate : ∀ part ∈ d.template.sections, ∀ e ∈ part.entries, ∀ t, e.nested = some t →
        Separate TypeDef.slots t :=
      fun part known e member => ih e (inside part known e member)
    have heads := Section.heads_sublist balanced []
    have headLabels := labels.sublist (heads.map (·.label))
    have headPoints : ∀ part ∈ d.template.sections, ∀ e ∈ part.heads, '.' ∉ e.label.toList :=
      fun part known e member =>
        points e (heads.subset (List.mem_flatMap.2 ⟨part, known, member⟩))
    have each : ∀ front, ∀ part ∈ d.template.sections,
        Distinct (ofSection d.fields TypeDef.slots front part) := fun front part known =>
      distinct_ofSection front
        (labels.sublist (((List.sublist_flatten_of_mem (List.mem_map_of_mem known)).trans
          (Section.entries_sublist balanced [])).map _))
        (fun e member => points e (inside part known e member)) (separate part known)
    intro front
    rw [slots_eq]
    refine ⟨.intro ?_ ?_, ?_⟩
    · -- A key that two sections share would belong to heads of one label, and labels are distinct.
      rw [ownedKeys_flatMap, List.nodup_flatMap]
      refine ⟨fun part known => (each front part known).keys, ?_⟩
      rw [List.map_flatMap, List.nodup_flatMap] at headLabels
      refine headLabels.2.imp_of_mem fun {part part'} known known' differ => ?_
      intro key here there
      obtain ⟨e, member, keyOf⟩ := mem_ownedKeys_ofSection (separate part known) here
      obtain ⟨e', member', keyOf'⟩ := mem_ownedKeys_ofSection (separate part' known') there
      have same := keyOf.label_eq names lists (headPoints part known e member)
        (headPoints part' known' e' member') keyOf'
      exact differ (List.mem_map.2 ⟨e, member, rfl⟩) (List.mem_map.2 ⟨e', member', same.symm⟩)
    · intro key owned inner member
      obtain ⟨part, known, found⟩ := List.mem_flatMap.1 member
      exact (each front part known).members key owned inner found
    · intro key member
      rw [ownedKeys_flatMap] at member
      obtain ⟨part, known, found⟩ := List.mem_flatMap.1 member
      obtain ⟨e, _, ⟨rest, rfl⟩ | ⟨f, _, rfl⟩⟩ :=
        mem_ownedKeys_ofSection (separate part known) found
      · exact ⟨e.label ++ "." ++ rest, by simp [String.append_assoc]⟩
      · exact ⟨f.name, rfl⟩

end Rsrc
