import Rsrc.Encoding.Section

/-!
# Templates whose lists pair up

`Template.validate` accepts templates in which every count is followed by the list that it counts, and
no list is inside another one. `Balanced` states that shape, and `outside_list` shows what it means
for the sections: a list section holds just what stands between its start and its end.
-/

namespace Rsrc

variable {τ : Type}

/-- Entries outside lists, and whole lists behind their counts. -/
inductive Template.Balanced : List (Entry τ) → Prop where
  | nil : Balanced []
  | plain {e : Entry τ} {es : List (Entry τ)} (free : e.tag.isListMarker = false)
      (rest : Balanced es) : Balanced (e :: es)
  | list {count start stop : Entry τ} {members es : List (Entry τ)} (counts : count.tag = .count)
      (starts : start.tag = .listStart) (free : ∀ e ∈ members, e.tag.isListMarker = false)
      (stops : stop.tag = .listEnd) (rest : Balanced es) :
      Balanced (count :: start :: (members ++ stop :: es))

/-- Entries from a position on, and the groups of their lists. -/
inductive Template.Grouped : Nat → List (Entry τ) → List ListGroup → Prop where
  | nil (index : Nat) : Grouped index [] []
  | plain {index : Nat} {e : Entry τ} {es : List (Entry τ)} {groups : List ListGroup}
      (free : e.tag.isListMarker = false) (rest : Grouped (index + 1) es groups) :
      Grouped index (e :: es) groups
  | list {index : Nat} {count start stop : Entry τ} {members es : List (Entry τ)}
      {groups : List ListGroup} (counts : count.tag = .count) (starts : start.tag = .listStart)
      (free : ∀ e ∈ members, e.tag.isListMarker = false) (stops : stop.tag = .listEnd)
      (rest : Grouped (index + 2 + members.length + 1) es groups) :
      Grouped index (count :: start :: (members ++ stop :: es))
        (⟨index, index + 1, index + 2 + members.length⟩ :: groups)

namespace Template

variable {index : Nat} {es : List (Entry τ)} {groups : List ListGroup}

theorem Grouped.balanced (h : Grouped index es groups) : Balanced es := by
  induction h with
  | nil => exact .nil
  | plain free rest ih => exact .plain free ih
  | list counts starts free stops rest ih => exact .list counts starts free stops ih

/-- The rest of an opened list, and what follows it. -/
def Closes (o : OpenList) (index : Nat) (es : List (Entry τ)) (groups : List ListGroup) : Prop :=
  ∃ members stop rest groups', es = members ++ stop :: rest ∧
    (∀ e ∈ members, e.tag.isListMarker = false) ∧ stop.tag = .listEnd ∧
    groups = ⟨o.count, o.start, index + members.length⟩ :: groups' ∧
    Grouped (index + members.length + 1) rest groups'

theorem Closes.cons {o : OpenList} {e : Entry τ} (free : e.tag.isListMarker = false)
    (h : Closes o (index + 1) es groups) : Closes o index (e :: es) groups := by
  obtain ⟨members, stop, rest, groups', rfl, frees, stops, rfl, grouped⟩ := h
  have length : index + (e :: members).length = index + 1 + members.length := by
    rw [List.length_cons]
    omega
  refine ⟨e :: members, stop, rest, groups', rfl, ?_, stops, by rw [length], by rwa [length]⟩
  intro e' member
  rcases List.mem_cons.1 member with rfl | later
  · exact free
  · exact frees e' later

/-- What groups are found, for each of the places where a walk over the entries can be: outside lists,
just behind a count, and inside a list. -/
theorem shape_of_groupsFrom :
    (∀ index previous groups, previous ≠ some .count →
      groupsFrom index previous none es = .ok groups → Grouped index es groups) ∧
    (∀ index groups, es.head?.map (·.tag) = some .listStart →
      groupsFrom (index + 1) (some .count) none es = .ok groups →
        ∃ start rest, es = start :: rest ∧ start.tag = .listStart ∧
          Closes ⟨index, index + 1, start.label⟩ (index + 2) rest groups) ∧
    ∀ index previous o groups, groupsFrom index previous (some o) es = .ok groups →
      Closes o index es groups := by
  induction es with
  | nil =>
    refine ⟨fun index _ groups _ h => ?_, fun _ _ h => by simp at h, fun _ _ _ _ h => ?_⟩
    · simp only [groupsFrom] at h
      cases h
      exact .nil index
    · simp [groupsFrom] at h
  | cons e es ih =>
    obtain ⟨outside, counted, inside⟩ := ih
    refine ⟨fun index previous groups differ h => ?_, fun index groups starts h => ?_,
      fun index previous o groups h => ?_⟩
    · cases tag : e.tag with
      | count =>
        simp only [groupsFrom, tag] at h
        split at h
        · cases h
        · rename_i follows
          simp only [Option.isSome_none, Bool.false_or, bne_iff_ne, ne_eq,
            Decidable.not_not] at follows
          obtain ⟨start, rest, rfl, starts, members, stop, more, groups', rfl, free, stops, rfl,
            grouped⟩ := counted _ _ follows h
          exact .list tag starts free stops grouped
      | listStart =>
        simp only [groupsFrom, tag, if_neg differ] at h
        cases h
      | listEnd =>
        simp only [groupsFrom, tag] at h
        cases h
      | _ =>
        simp only [groupsFrom, tag] at h
        exact .plain (by rw [tag]; rfl) (outside _ _ _ (by simp) h)
    · have tag : e.tag = .listStart := by simpa using starts
      simp only [groupsFrom, tag] at h
      exact ⟨e, es, rfl, tag, inside _ _ _ _ h⟩
    · cases tag : e.tag with
      | count =>
        simp only [groupsFrom, tag] at h
        cases h
      | listStart =>
        simp only [groupsFrom, tag] at h
        cases h
      | listEnd =>
        simp only [groupsFrom, tag] at h
        cases more : groupsFrom (index + 1) (some .listEnd) none es with
        | error fault => simp [more, Bind.bind, Except.bind] at h
        | ok groups' =>
          simp only [more, Bind.bind, Except.bind] at h
          cases h
          exact ⟨[], e, es, groups', rfl, by simp, tag, rfl, outside _ _ _ (by simp) more⟩
      | _ =>
        simp only [groupsFrom, tag] at h
        exact (inside _ _ _ _ h).cons (by rw [tag]; rfl)

theorem grouped_of_validate {t t' : Template τ} (h : t.validate = .ok t') :
    Grouped 0 t'.entries t'.groups := by
  rw [validate] at h
  split at h
  · rename_i groups found
    cases h
    exact shape_of_groupsFrom.1 0 none groups (by simp) found
  · cases h

/-- A group stands behind its count. -/
theorem Grouped.count_at (h : Grouped index es groups) {g : ListGroup} (member : g ∈ groups) :
    ∃ k e, g.count = index + k ∧ g.start = g.count + 1 ∧ es[k]? = some e ∧ e.tag = .count := by
  induction h with
  | nil => cases member
  | plain free rest ih =>
    obtain ⟨k, e, counts, starts, found, tag⟩ := ih member
    exact ⟨k + 1, e, by omega, starts, by simpa using found, tag⟩
  | @list index count start stop members es groups counts starts free stops rest ih =>
    rcases List.mem_cons.1 member with rfl | later
    · exact ⟨0, count, rfl, rfl, rfl, counts⟩
    · obtain ⟨k, e, counted, started, found, tag⟩ := ih later
      refine ⟨2 + members.length + 1 + k, e, by omega, started, ?_, tag⟩
      rw [show 2 + members.length + 1 + k = members.length + (k + 1) + 1 + 1 by omega]
      simpa [List.getElem?_append_right] using found

/-- No entry is repeated by two groups. -/
theorem Grouped.eq_of_contains (h : Grouped index es groups) {g g' : ListGroup}
    (member : g ∈ groups) (member' : g' ∈ groups) {i : Nat} (inside : g.contains i)
    (inside' : g'.contains i) : g = g' := by
  induction h with
  | nil => cases member
  | plain free rest ih => exact ih member member'
  | @list index count start stop members es groups counts starts free stops rest ih =>
    -- the first group ends where the entries of the others have not begun
    have behind : ∀ later ∈ groups, later.contains i → index + 2 + members.length < i := by
      intro later known contained
      obtain ⟨k, e, counted, started, -⟩ := rest.count_at known
      simp only [ListGroup.contains, Bool.and_eq_true, decide_eq_true_eq] at contained
      omega
    have before : ∀ first : ListGroup, first = ⟨index, index + 1, index + 2 + members.length⟩ →
        first.contains i → i < index + 2 + members.length := by
      rintro first rfl contained
      simp only [ListGroup.contains, Bool.and_eq_true, decide_eq_true_eq] at contained
      exact contained.2
    rcases List.mem_cons.1 member with first | later
    · rcases List.mem_cons.1 member' with first' | later'
      · rw [first, first']
      · have := before g first inside
        have := behind g' later' inside'
        omega
    · rcases List.mem_cons.1 member' with first' | later'
      · have := behind g later inside
        have := before g' first' inside'
        omega
      · exact ih later later'

theorem balanced_of_validate {t t' : Template τ} (h : t.validate = .ok t') :
    Balanced t'.entries := (grouped_of_validate h).balanced

end Template

/-! ### Sections -/

namespace Section

open Template

variable {e count stop : Entry τ} {members run es : List (Entry τ)} {part : Section τ}
  {groups : List ListGroup}

/-- The entries whose values a section holds. -/
def entries : Section τ → List (Entry τ)
  | plain es => es
  | list _ members => members

/-- The entries by which a section is known outside: those of a plain one, and a count. -/
def heads : Section τ → List (Entry τ)
  | plain es => es
  | list count _ => [count]

theorem outside_plain (free : e.tag.isListMarker = false) (run es : List (Entry τ)) :
    outside run (e :: es) = outside (e :: run) es := by
  rw [outside]
  cases tag : e.tag <;> simp_all [Tag.isListMarker]

theorem inside_members (free : ∀ e ∈ members, e.tag.isListMarker = false)
    (stops : stop.tag = .listEnd) (before es : List (Entry τ)) :
    inside count before (members ++ stop :: es) =
      .list count (before.reverse ++ members) :: outside [] es := by
  induction members generalizing before with
  | nil => simp [inside, stops]
  | cons e members ih =>
    have step : inside count before (e :: (members ++ stop :: es)) =
        inside count (e :: before) (members ++ stop :: es) := by
      have := free e List.mem_cons_self
      rw [inside]
      cases tag : e.tag <;> simp_all [Tag.isListMarker]
    rw [List.cons_append, step, ih fun e' member => free e' (List.mem_cons_of_mem _ member)]
    simp

theorem outside_list {start : Entry τ} (counts : count.tag = .count)
    (starts : start.tag = .listStart) (free : ∀ e ∈ members, e.tag.isListMarker = false)
    (stops : stop.tag = .listEnd) (run es : List (Entry τ)) :
    outside run (count :: start :: (members ++ stop :: es)) =
      ofPlain run ++ .list count members :: outside [] es := by
  have opened : inside count [] (start :: (members ++ stop :: es)) =
      inside count [] (members ++ stop :: es) := by
    rw [inside]
    simp only [starts]
  rw [outside]
  simp only [counts]
  rw [opened, inside_members free stops]
  rfl

theorem mem_ofPlain (h : part ∈ ofPlain run) : part = .plain run.reverse := by
  rw [ofPlain] at h
  split at h
  · cases h
  · simpa using h

/-- The run is at the front of a plain section. -/
theorem mem_of_mem_run (balanced : Balanced es) (h : e ∈ run) :
    ∃ entries, .plain entries ∈ outside run es ∧ e ∈ entries := by
  have here : ∃ entries, .plain entries ∈ ofPlain run ∧ e ∈ entries := by
    refine ⟨run.reverse, ?_, List.mem_reverse.2 h⟩
    rw [ofPlain, if_neg (by simpa using List.ne_nil_of_mem h)]
    exact List.mem_singleton_self _
  induction balanced generalizing run with
  | nil =>
    rw [outside]
    exact here
  | @plain e' es free rest ih =>
    rw [outside_plain free]
    have longer : e ∈ e' :: run := List.mem_cons_of_mem _ h
    refine ih longer ⟨_, ?_, List.mem_reverse.2 longer⟩
    simp [ofPlain]
  | list counts starts free stops rest ih =>
    obtain ⟨entries, known, member⟩ := here
    rw [outside_list counts starts free stops]
    exact ⟨entries, List.mem_append_left _ known, member⟩

/-- Behind the markers of a list, a value is one of its members or stands behind the list. -/
theorem cases_getElem? {start : Entry τ} (counts : count.tag = .count)
    (starts : start.tag = .listStart) (stops : stop.tag = .listEnd) {i : Nat}
    (h : (count :: start :: (members ++ stop :: es))[i]? = some e)
    (free : e.tag.isListMarker = false) :
    (∃ j, i = 2 + j ∧ j < members.length ∧ e ∈ members) ∨
      ∃ j, i = 2 + members.length + 1 + j ∧ es[j]? = some e := by
  have marker : ∀ {e' : Entry τ}, e'.tag.isListMarker = true → some e' = some e → False := by
    rintro e' marked same
    cases same
    rw [free] at marked
    cases marked
  match i with
  | 0 => exact (marker (by rw [counts]; rfl) h).elim
  | 1 => exact (marker (by rw [starts]; rfl) h).elim
  | i + 2 =>
    simp only [List.getElem?_cons_succ] at h
    by_cases inside : i < members.length
    · rw [List.getElem?_append_left inside] at h
      exact .inl ⟨i, by omega, inside, List.mem_of_getElem? h⟩
    · rw [List.getElem?_append_right (by omega)] at h
      cases behind : i - members.length with
      | zero =>
        rw [behind] at h
        exact (marker (by rw [stops]; rfl) h).elim
      | succ j =>
        rw [behind, List.getElem?_cons_succ] at h
        exact .inr ⟨j, by omega, h⟩

/-- An entry outside all groups is in a plain section. -/
theorem mem_plain_of_grouped {index : Nat} (h : Grouped index es groups) {i : Nat}
    (found : es[i]? = some e) (free : e.tag.isListMarker = false)
    (out : ∀ g ∈ groups, g.contains (index + i) = false) (run : List (Entry τ)) :
    ∃ entries, .plain entries ∈ outside run es ∧ e ∈ entries := by
  induction h generalizing i run with
  | nil => simp at found
  | @plain index e' es groups plain rest ih =>
    rw [outside_plain plain]
    cases i with
    | zero =>
      obtain rfl : e' = e := by simpa using found
      exact mem_of_mem_run rest.balanced List.mem_cons_self
    | succ i =>
      refine ih (by simpa using found) (fun g member => ?_) _
      rw [show index + 1 + i = index + (i + 1) by omega]
      exact out g member
  | @list index count start stop members es groups counts starts frees stops rest ih =>
    rw [outside_list counts starts frees stops]
    rcases cases_getElem? counts starts stops found free with ⟨j, rfl, short, _⟩ | ⟨j, rfl, later⟩
    · have inside := out _ List.mem_cons_self
      simp only [ListGroup.contains, Bool.and_eq_false_iff, decide_eq_false_iff_not] at inside
      omega
    · obtain ⟨entries, known, member⟩ := ih later (fun g member => by
        have outside := out g (List.mem_cons_of_mem _ member)
        rwa [← Nat.add_assoc, ← Nat.add_assoc, ← Nat.add_assoc] at outside) []
      exact ⟨entries, by simp [known], member⟩

/-- A group is the list section that its count opens. -/
theorem list_of_grouped {index : Nat} (h : Grouped index es groups) {g : ListGroup}
    (member : g ∈ groups) (run : List (Entry τ)) :
    ∃ k count members, es[k]? = some count ∧ g.count = index + k ∧ g.start = g.count + 1 ∧
      .list count members ∈ outside run es ∧
      ∀ i e, es[i]? = some e → g.contains (index + i) → e.tag.isListMarker = false → e ∈ members := by
  induction h generalizing run with
  | nil => cases member
  | @plain index e' es groups plain rest ih =>
    obtain ⟨k, count, members, found, counts, starts, known, inside⟩ := ih member (e' :: run)
    rw [outside_plain plain]
    refine ⟨k + 1, count, members, by simpa using found, by omega, starts, known, ?_⟩
    intro i e at_ within free
    simp only [ListGroup.contains, Bool.and_eq_true, decide_eq_true_eq] at within inside
    cases i with
    | zero => omega
    | succ i => exact inside i e (by simpa using at_) ⟨by omega, by omega⟩ free
  | @list index count start stop members es groups counts starts frees stops rest ih =>
    rw [outside_list counts starts frees stops]
    rcases List.mem_cons.1 member with rfl | later
    · refine ⟨0, count, members, rfl, rfl, rfl, by simp, fun i e at_ within free => ?_⟩
      simp only [ListGroup.contains, Bool.and_eq_true, decide_eq_true_eq] at within
      rcases cases_getElem? counts starts stops at_ free with ⟨j, _, _, inside⟩ | ⟨j, rfl, _⟩
      · exact inside
      · omega
    · obtain ⟨k, count', members', found, counted, started, known, inside⟩ := ih later []
      refine ⟨2 + members.length + 1 + k, count', members', ?_, by omega, started, by simp [known], ?_⟩
      · rw [show 2 + members.length + 1 + k = members.length + (k + 1) + 1 + 1 by omega]
        simpa [List.getElem?_append_right] using found
      · intro i e at_ within free
        simp only [ListGroup.contains, Bool.and_eq_true, decide_eq_true_eq] at within inside
        rcases cases_getElem? counts starts stops at_ free with ⟨j, rfl, short, _⟩ | ⟨j, rfl, behind⟩
        · omega
        · exact inside j e behind ⟨by omega, by omega⟩ free

/-- Sections hold entries of the template that are no list markers. -/
theorem mem_entries (balanced : Balanced es) (h : part ∈ outside run es)
    (member : e ∈ part.entries) : e ∈ run ∨ e ∈ es ∧ e.tag.isListMarker = false := by
  induction balanced generalizing run with
  | nil =>
    rw [outside] at h
    rw [mem_ofPlain h] at member
    exact .inl (by simpa [entries] using member)
  | @plain e' es free rest ih =>
    rw [outside_plain free] at h
    rcases ih h with old | ⟨later, plain⟩
    · rcases List.mem_cons.1 old with rfl | old
      · exact .inr ⟨List.mem_cons_self, free⟩
      · exact .inl old
    · exact .inr ⟨List.mem_cons_of_mem _ later, plain⟩
  | @list count start stop members es counts starts free stops rest ih =>
    rw [outside_list counts starts free stops] at h
    rcases List.mem_append.1 h with old | new
    · rw [mem_ofPlain old] at member
      exact .inl (by simpa [entries] using member)
    · rcases List.mem_cons.1 new with rfl | later
      · refine .inr ⟨?_, free e member⟩
        have : e ∈ members := member
        simp [this]
      · rcases ih later with none | ⟨later, plain⟩
        · cases none
        · exact .inr ⟨by simp [later], plain⟩

/-- What sections have of the entries stands in the order of the template. -/
theorem flatMap_sublist {part : Section τ → List (Entry τ)} (plain : ∀ es, part (.plain es) = es)
    (list : ∀ count start members, (part (.list count members)).Sublist (count :: start :: members))
    (balanced : Balanced es) (run : List (Entry τ)) :
    ((outside run es).flatMap part).Sublist (run.reverse ++ es) := by
  have alone (run : List (Entry τ)) : (ofPlain run).flatMap part = run.reverse := by
    cases run with
    | nil => rfl
    | cons e run => simp [ofPlain, plain]
  induction balanced generalizing run with
  | nil => simp [outside, alone]
  | @plain e es free rest ih =>
    rw [outside_plain free]
    simpa using ih (e :: run)
  | @list count start stop members es counts starts free stops rest ih =>
    rw [outside_list counts starts free stops, List.flatMap_append, alone, List.flatMap_cons]
    have behind := (list count start members).append ((ih []).trans (List.sublist_cons_self stop es))
    exact (List.Sublist.refl _).append (by simpa using behind)

theorem heads_sublist (balanced : Balanced es) (run : List (Entry τ)) :
    ((outside run es).flatMap heads).Sublist (run.reverse ++ es) :=
  flatMap_sublist (fun _ => rfl) (fun _ _ _ => by simp [heads]) balanced run

theorem entries_sublist (balanced : Balanced es) (run : List (Entry τ)) :
    ((outside run es).flatMap entries).Sublist (run.reverse ++ es) :=
  flatMap_sublist (fun _ => rfl)
    (fun _ _ _ => (List.sublist_cons_self ..).trans (List.sublist_cons_self ..)) balanced run

/-- An entry at the end that is no list marker is at the end of the last section. -/
theorem outside_concat (balanced : Balanced (es ++ [e])) (free : e.tag.isListMarker = false)
    (run : List (Entry τ)) : ∃ parts last, outside run (es ++ [e]) = parts ++ [.plain (last ++ [e])] := by
  generalize whole : es ++ [e] = all at balanced
  induction balanced generalizing es run with
  | nil => simp at whole
  | @plain e' more plain rest ih =>
    rw [outside_plain plain]
    cases es with
    | nil =>
      obtain ⟨rfl, rfl⟩ : e = e' ∧ [] = more := by simpa using whole
      exact ⟨[], run.reverse, by simp [outside, ofPlain]⟩
    | cons first es =>
      obtain ⟨rfl, rfl⟩ : first = e' ∧ es ++ [e] = more := by simpa using whole
      exact ih (first :: run) rfl
  | @list count start stop members more counts starts frees stops rest ih =>
    -- What stands at the end is no list end, so something follows the list.
    rcases List.eq_nil_or_concat more with rfl | ⟨init, final, rfl⟩
    · have flat : es ++ [e] = (count :: start :: members) ++ [stop] := by simpa using whole
      have same : e = stop := by simpa using (List.append_inj' flat rfl).2
      rw [same, stops] at free
      cases free
    · have flat : es ++ [e] = (count :: start :: (members ++ stop :: init)) ++ [final] := by
        simpa using whole
      obtain rfl : e = final := by simpa using (List.append_inj' flat rfl).2
      obtain ⟨parts, last, equal⟩ := ih [] (List.concat_eq_append ..).symm
      rw [outside_list counts starts frees stops, equal]
      exact ⟨ofPlain run ++ .list count members :: parts, last, by simp⟩

/-- The sections before the last entry have the other entries. -/
theorem exists_last (balanced : Balanced (es ++ [e])) (free : e.tag.isListMarker = false) :
    ∃ parts last, outside [] (es ++ [e]) = parts ++ [.plain (last ++ [e])] ∧
      ∀ part ∈ parts ++ [.plain last], ∀ x ∈ part.entries, x ∈ es ∧ x.tag.isListMarker = false := by
  obtain ⟨parts, last, equal⟩ := outside_concat balanced free []
  have whole := entries_sublist balanced []
  rw [equal] at whole
  have others : ((parts ++ [plain last]).flatMap entries).Sublist es := by
    simpa [entries, ← List.append_assoc] using whole
  refine ⟨parts, last, equal, fun part known x member =>
    ⟨others.subset (List.mem_flatMap.2 ⟨part, known, member⟩), ?_⟩⟩
  obtain ⟨there, known, inside⟩ : ∃ there ∈ outside [] (es ++ [e]), x ∈ there.entries := by
    rw [equal]
    rcases List.mem_append.1 known with old | new
    · exact ⟨part, List.mem_append_left _ old, member⟩
    · obtain rfl := List.mem_singleton.1 new
      exact ⟨_, List.mem_append_right _ (List.mem_singleton_self _), List.mem_append_left _ member⟩
  exact ((mem_entries balanced known inside).resolve_left (by simp)).2

end Section

end Rsrc
