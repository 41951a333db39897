import Mathlib.Computability.Language
import Rsrc.Proofs.TypeDef.Building

/-!
# The grammar of templates

The tags of a template are a word of a regular language: tags outside lists, and lists that are not
inside one another, each behind its count. Validation accepts exactly the words of this language, and
the groups that it records are the positions of the list markers (`Template.check_eq_ok_iff`).
-/

namespace Rsrc

open Computability

/-! ### The language -/

namespace Tag

variable {tags : List Tag}

/-- A tag that is no list marker. -/
def plain : Language Tag := {word | ∃ tag : Tag, tag.HoldsValue ∧ word = [tag]}

/-- A count, the start of a list, the tags of an element and the end of the list. -/
def counted : Language Tag := {[count, listStart]} * plain∗ * {[listEnd]}

/-- Plain tags and counted lists, in any order. -/
def templates : Language Tag := (plain + counted)∗

theorem mem_plain_kstar : tags ∈ plain∗ ↔ ∀ tag ∈ tags, tag.isListMarker = false := by
  rw [Language.mem_kstar]
  constructor
  · rintro ⟨words, rfl, all⟩ tag member
    obtain ⟨word, known, inside⟩ := List.mem_flatten.1 member
    obtain ⟨single, holds, rfl⟩ := all word known
    rw [List.mem_singleton.1 inside]
    exact holdsValue_iff.1 holds
  · intro free
    refine ⟨tags.map fun tag => [tag], by simp [← List.flatMap_def], ?_⟩
    intro word member
    obtain ⟨tag, known, rfl⟩ := List.mem_map.1 member
    exact ⟨tag, holdsValue_iff.2 (free tag known), rfl⟩

theorem mem_counted :
    tags ∈ counted ↔ ∃ members, (∀ tag ∈ members, tag.isListMarker = false) ∧
      tags = count :: listStart :: (members ++ [listEnd]) := by
  simp only [counted, Language.mem_mul]
  constructor
  · rintro ⟨_, ⟨_, rfl, members, free, rfl⟩, _, rfl, rfl⟩
    exact ⟨members, mem_plain_kstar.1 free, rfl⟩
  · rintro ⟨members, free, rfl⟩
    exact ⟨_, ⟨_, rfl, members, mem_plain_kstar.2 free, rfl⟩, _, rfl, rfl⟩

theorem append_mem_templates {word : List Tag} (first : word ∈ plain + counted)
    (rest : tags ∈ templates) : word ++ tags ∈ templates := by
  obtain ⟨words, rfl, all⟩ := Language.mem_kstar.1 rest
  refine Language.mem_kstar.2 ⟨word :: words, rfl, ?_⟩
  rintro word' (_ | ⟨_, later⟩)
  · exact first
  · exact all word' later

end Tag

namespace Template

variable {τ : Type} {es : List (Entry τ)} {groups : List ListGroup} {t : Template τ}

open Tag in
theorem Balanced.mem_templates (h : Balanced es) : es.map (·.tag) ∈ templates := by
  induction h with
  | nil => exact Language.nil_mem_kstar _
  | @plain e es free rest ih =>
    have first : [e.tag] ∈ Tag.plain := ⟨e.tag, holdsValue_iff.2 free, rfl⟩
    exact append_mem_templates (.inl first) ih
  | @list count start stop members es counts starts free stops rest ih =>
    have first : Tag.count :: .listStart :: (members.map (·.tag) ++ [.listEnd]) ∈ counted := by
      refine mem_counted.2 ⟨_, fun tag member => ?_, rfl⟩
      obtain ⟨e, known, rfl⟩ := List.mem_map.1 member
      exact free e known
    simpa [counts, starts, stops] using append_mem_templates (.inr first) ih

open Tag in
theorem balanced_of_mem_templates (h : es.map (·.tag) ∈ templates) : Balanced es := by
  obtain ⟨words, flat, all⟩ := Language.mem_kstar.1 h
  induction words generalizing es with
  | nil =>
    obtain rfl : es = [] := by simpa using flat
    exact .nil
  | cons word words ih =>
    rw [List.flatten_cons] at flat
    -- the entries of the first word, and those of the words behind it
    obtain ⟨front, rest, rfl, rfl, behind⟩ := List.map_eq_append_iff.1 flat
    have others : ∀ y ∈ words, y ∈ Tag.plain + counted :=
      fun y member => all y (List.mem_cons_of_mem _ member)
    have balanced : Balanced rest :=
      ih (Language.mem_kstar.2 ⟨words, behind, others⟩) behind others
    rcases all _ List.mem_cons_self with ⟨tag, holds, single⟩ | whole
    · obtain ⟨e, rfl, rfl⟩ := List.map_eq_singleton_iff.1 single
      exact .plain (holdsValue_iff.1 holds) balanced
    · obtain ⟨members, free, shape⟩ := mem_counted.1 whole
      obtain ⟨count, more, rfl, counts, shape⟩ := List.map_eq_cons_iff.1 shape
      obtain ⟨start, more, rfl, starts, shape⟩ := List.map_eq_cons_iff.1 shape
      obtain ⟨inner, last, rfl, rfl, ends⟩ := List.map_eq_append_iff.1 shape
      obtain ⟨stop, rfl, stops⟩ := List.map_eq_singleton_iff.1 ends
      have frees : ∀ e ∈ inner, e.tag.isListMarker = false :=
        fun e member => free _ (List.mem_map_of_mem member)
      simpa using Balanced.list counts starts frees stops balanced

/-! ### Groups of balanced entries -/

theorem Balanced.exists_grouped (h : Balanced es) (index : Nat) :
    ∃ groups, Grouped index es groups := by
  induction h generalizing index with
  | nil => exact ⟨[], .nil index⟩
  | plain free rest ih =>
    obtain ⟨groups, grouped⟩ := ih (index + 1)
    exact ⟨groups, .plain free grouped⟩
  | @list _ _ _ members _ counts starts free stops rest ih =>
    obtain ⟨groups, grouped⟩ := ih (index + 2 + members.length + 1)
    exact ⟨_, .list counts starts free stops grouped⟩

theorem groupsFrom_plain {e : Entry τ} (free : e.tag.isListMarker = false) (index : Nat)
    (previous : Option Tag) (opened : Option OpenList) :
    groupsFrom index previous opened (e :: es) = groupsFrom (index + 1) (some e.tag) opened es := by
  cases tag : e.tag with
  | count | listStart | listEnd =>
    rw [tag] at free
    cases free
  | _ => simp only [groupsFrom, tag]

/-- Inside a list, the walk goes on to its end. -/
theorem groupsFrom_members {members : List (Entry τ)} {stop : Entry τ}
    (free : ∀ e ∈ members, e.tag.isListMarker = false) (stops : stop.tag = .listEnd) (index : Nat)
    (previous : Option Tag) (o : OpenList) :
    groupsFrom index previous (some o) (members ++ stop :: es) =
      (groupsFrom (index + members.length + 1) (some .listEnd) none es).map
        (⟨o.count, o.start, index + members.length⟩ :: ·) := by
  induction members generalizing index previous with
  | nil =>
    simp only [List.nil_append, groupsFrom, stops, List.length_nil, Nat.add_zero]
    cases groupsFrom (index + 1) (some Tag.listEnd) none es <;> rfl
  | cons e members ih =>
    have length : index + 1 + members.length = index + (e :: members).length := by
      rw [List.length_cons]
      omega
    rw [List.cons_append, groupsFrom_plain (free e List.mem_cons_self),
      ih fun e' member => free e' (List.mem_cons_of_mem _ member), length]

/-- The groups of entries are found, whatever stands before them. -/
theorem Grouped.groupsFrom_eq {index : Nat} (h : Grouped index es groups) (previous : Option Tag) :
    groupsFrom index previous none es = .ok groups := by
  induction h generalizing previous with
  | nil => rfl
  | plain free rest ih => rw [groupsFrom_plain free, ih]
  | @list index count start stop members es groups counts starts free stops rest ih =>
    have opened : groupsFrom index previous none (count :: start :: (members ++ stop :: es)) =
        groupsFrom (index + 2) (some .listStart) (some ⟨index, index + 1, start.label⟩)
          (members ++ stop :: es) := by
      simp only [groupsFrom, counts, starts, List.head?_cons, Option.map_some, Option.isSome_none,
        Bool.false_or, bne_self_eq_false, Bool.false_eq_true, if_false, if_true, Nat.add_sub_cancel]
    rw [opened, groupsFrom_members free stops, ih]
    rfl

/-! ### Positions -/

/-- Groups that are the positions of the list markers, in order. A group is over before the next one
begins. -/
structure Indexes (index : Nat) (tags : List Tag) (groups : List ListGroup) : Prop where
  counts : groups.map (·.count) = tags.idxsOf .count index
  starts : groups.map (·.start) = tags.idxsOf .listStart index
  stops : groups.map (·.stop) = tags.idxsOf .listEnd index
  inside : ∀ g ∈ groups, index ≤ g.count ∧ g.start = g.count + 1 ∧ g.start < g.stop
  apart : groups.Pairwise fun g g' => g.stop < g'.count

theorem idxsOf_of_free {tags : List Tag} (free : ∀ tag ∈ tags, tag.isListMarker = false)
    {marker : Tag} (marks : marker.isListMarker = true) (index : Nat) :
    tags.idxsOf marker index = [] := by
  rw [List.idxsOf_eq_nil_iff]
  intro tag member
  have differs : tag ≠ marker := by
    rintro rfl
    rw [free tag member] at marks
    cases marks
  simpa using differs

theorem Grouped.indexes {index : Nat} (h : Grouped index es groups) :
    Indexes index (es.map (·.tag)) groups := by
  induction h with
  | nil => exact ⟨rfl, rfl, rfl, by simp, .nil⟩
  | @plain index e es groups free rest ih =>
    have passed : ∀ marker : Tag, marker.isListMarker = true →
        ((e :: es).map (·.tag)).idxsOf marker index =
          (es.map (·.tag)).idxsOf marker (index + 1) := by
      intro marker marks
      have differs : e.tag ≠ marker := by
        intro same
        rw [← same, free] at marks
        cases marks
      simp [List.idxsOf_cons, differs]
    refine ⟨?_, ?_, ?_, fun g member => ?_, ih.apart⟩
    · rw [passed _ rfl, ih.counts]
    · rw [passed _ rfl, ih.starts]
    · rw [passed _ rfl, ih.stops]
    · have := ih.inside g member
      omega
  | @list index count start stop members es groups counts starts free stops rest ih =>
    have frees : ∀ tag ∈ members.map (·.tag), tag.isListMarker = false := by
      intro tag member
      obtain ⟨e, known, rfl⟩ := List.mem_map.1 member
      exact free e known
    refine ⟨?_, ?_, ?_, ?_, ?_⟩
    · simp [List.idxsOf_cons, List.idxsOf_append, counts, starts, stops, ih.counts,
        idxsOf_of_free frees (rfl : Tag.count.isListMarker = true)]
    · simp [List.idxsOf_cons, List.idxsOf_append, counts, starts, stops, ih.starts,
        idxsOf_of_free frees (rfl : Tag.listStart.isListMarker = true)]
    · simp [List.idxsOf_cons, List.idxsOf_append, counts, starts, stops, ih.stops,
        idxsOf_of_free frees (rfl : Tag.listEnd.isListMarker = true)]
    · rintro g (_ | ⟨_, later⟩)
      · exact ⟨Nat.le_refl _, rfl, by simp only; omega⟩
      · have := ih.inside g later
        omega
    · refine List.pairwise_cons.2 ⟨fun g later => ?_, ih.apart⟩
      have := ih.inside g later
      simp only
      omega

/-! ### Validation -/

/-- Validation in place. -/
def check : EStateM DefinitionError (Template τ) Unit := do
  match groupsFrom 0 none none (← get).entries with
  | .ok groups => modify fun t => { t with groups }
  | .error fault => throw (.malformedList fault)

/-- A template that is not accepted is left as it was. -/
theorem check_eq : check t =
    match t.validate with
    | .ok t' => .ok () t'
    | .error e => .error e t := by
  rw [check, get_bind, validate]
  cases groupsFrom 0 none none t.entries <;> rfl

theorem check_eq_ok {t' : Template τ} (h : check t = .ok () t') :
    t' = { t with groups := t'.groups } ∧ Grouped 0 t.entries t'.groups := by
  have accepted : t.validate = .ok t' := by
    rw [check_eq] at h
    split at h
    · cases h
      assumption
    · cases h
  have grouped := grouped_of_validate accepted
  rw [entries_validate accepted] at grouped
  refine ⟨?_, grouped⟩
  rw [validate] at accepted
  split at accepted
  · cases accepted
    rfl
  · cases accepted

theorem check_of_grouped (h : Grouped 0 t.entries groups) : check t = .ok () { t with groups } := by
  simp only [check_eq, validate, h.groupsFrom_eq]

theorem eq_of_check_eq_error {t' : Template τ} {e : DefinitionError} (h : check t = .error e t') :
    t' = t := by
  rw [check_eq] at h
  split at h
  · cases h
  · cases h
    rfl

theorem Grouped.groupContaining?_eq_some_iff (h : Grouped 0 t.entries t.groups) (i : Nat)
    (g : ListGroup) : t.groupContaining? i = some g ↔ g ∈ t.groups ∧ g.start < i ∧ i < g.stop := by
  have contains : ∀ g : ListGroup, g.contains i = true ↔ g.start < i ∧ i < g.stop := by
    simp [ListGroup.contains]
  rw [groupContaining?, ← contains]
  constructor
  · intro found
    have inside : (g.contains i) = true := by simpa using List.find?_some found
    exact ⟨List.mem_of_find?_eq_some found, inside⟩
  · rintro ⟨member, inside⟩
    cases found : t.groups.find? (·.contains i) with
    | none => simpa [inside] using List.find?_eq_none.1 found g member
    | some g' =>
      have inside' : (g'.contains i) = true := by simpa using List.find?_some found
      rw [h.eq_of_contains (List.mem_of_find?_eq_some found) member inside' inside]

theorem Grouped.groupCountedBy?_of_count (h : Grouped 0 t.entries t.groups)
    (distinct : (t.entries.map (·.label)).Nodup) {i : Nat} {e : Entry τ}
    (found : t.entries[i]? = some e) (counts : e.tag = .count) :
    ∃ g ∈ t.groups, g.count = i ∧ t.groupCountedBy? e.label = some g := by
  have listed : i ∈ t.groups.map (·.count) := by
    obtain ⟨inside, rfl⟩ := List.getElem?_eq_some_iff.1 found
    rw [h.indexes.counts, List.mem_idxsOf_iff_exists_getElem_pos]
    exact ⟨by simpa using inside, by simpa using counts⟩
  obtain ⟨g, member, same⟩ := List.mem_map.1 listed
  rw [groupCountedBy?, indexOf?_of_getElem? distinct found, Option.bind_some]
  cases first : t.groups.find? (·.count == i) with
  | none => simpa [same] using List.find?_eq_none.1 first g member
  | some g' =>
    have counted : g'.count = i := by simpa using List.find?_some first
    exact ⟨g', List.mem_of_find?_eq_some first, counted, rfl⟩

/-- Validation accepts exactly the templates whose tags follow the grammar. It records the positions of
the list markers and nothing else; each count is then known by its label, and each position inside a
list by the list. If the template is not accepted, it keeps the groups of an earlier validation. -/
theorem check_eq_ok_iff (t : Template τ) (distinct : (t.entries.map (·.label)).Nodup) :
    ((∃ t', check t = .ok () t') ↔ t.entries.map (·.tag) ∈ Tag.templates) ∧
      (∀ t', check t = .ok () t' → t' = { t with groups := t'.groups } ∧
        Indexes 0 (t.entries.map (·.tag)) t'.groups ∧
        (∀ (i : Nat) (e : Entry τ), t.entries[i]? = some e → e.tag = .count →
          ∃ g ∈ t'.groups, g.count = i ∧ t'.groupCountedBy? e.label = some g) ∧
        ∀ i g, t'.groupContaining? i = some g ↔ g ∈ t'.groups ∧ g.start < i ∧ i < g.stop) ∧
      ∀ e t', check t = .error e t' → t' = t := by
  refine ⟨⟨?_, fun member => ?_⟩, fun t' accepted => ?_, fun e t' => eq_of_check_eq_error⟩
  · rintro ⟨t', accepted⟩
    exact (check_eq_ok accepted).2.balanced.mem_templates
  · obtain ⟨groups, grouped⟩ := (balanced_of_mem_templates member).exists_grouped 0
    exact ⟨_, check_of_grouped grouped⟩
  · obtain ⟨same, grouped⟩ := check_eq_ok accepted
    have entries : t'.entries = t.entries := by rw [same]
    have grouped' : Grouped 0 t'.entries t'.groups := by rwa [entries]
    refine ⟨same, grouped.indexes, ?_, grouped'.groupContaining?_eq_some_iff⟩
    rw [← entries] at distinct ⊢
    exact fun i e found counts => grouped'.groupCountedBy?_of_count distinct found counts

end Template

namespace Sample

/-- Two lists, the second of which is empty, and a group that was recorded for other entries. -/
def album : Template Unit where
  entries := [{ label := "year", tag := .integer .two true }, { label := "tracks", tag := .count },
    { label := "first", tag := .listStart }, { label := "title", tag := .shortText },
    { label := "length", tag := .integer .two true }, { label := "last", tag := .listEnd },
    { label := "guests", tag := .count }, { label := "enter", tag := .listStart },
    { label := "leave", tag := .listEnd }]
  groups := [⟨0, 1, 2⟩]

end Sample

theorem Template.check_album :
    Sample.album.entries.map (·.tag) ∈ Tag.templates ∧
      ∃ t', check Sample.album = .ok () t' ∧ t'.groups = [⟨1, 2, 5⟩, ⟨6, 7, 8⟩] ∧
        Indexes 0 (Sample.album.entries.map (·.tag)) t'.groups ∧
        (∃ g ∈ t'.groups, g.count = 6 ∧ t'.groupCountedBy? "guests" = some g) ∧
        t'.groupContaining? 4 = some ⟨1, 2, 5⟩ := by
  obtain ⟨accepts, records, -⟩ := check_eq_ok_iff Sample.album (by decide)
  obtain ⟨t', accepted, groups⟩ : ∃ t', check Sample.album = .ok () t' ∧
      t'.groups = [⟨1, 2, 5⟩, ⟨6, 7, 8⟩] := ⟨_, rfl, rfl⟩
  obtain ⟨-, indexes, counted, containing⟩ := records t' accepted
  refine ⟨accepts.1 ⟨t', accepted⟩, t', accepted, groups, indexes, counted 6 _ rfl rfl, ?_⟩
  exact (containing 4 _).2 ⟨by simp [groups], by decide, by decide⟩

end Rsrc
