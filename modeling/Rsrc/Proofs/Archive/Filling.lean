import Mathlib.Data.List.Nodup
import Rsrc.Proofs.Archive.Order
import Rsrc.Proofs.Keeps

/-!
# Filling an archive

What additions can lead to is described by the entries alone: codes of four bytes, and no slot taken
twice (`Sound`). That does not depend on the order of the entries. And where no slot is taken twice
the order of entries is strict, so that sorting forgets in which order they were added.
-/

namespace Rsrc

namespace ArchiveEntry

/-- What an entry has for itself in an archive. -/
def slot (e : ArchiveEntry) : String × Int64 × Dict String := (e.code, e.id, e.attributes)

theorem sameSlot_iff {e e' : ArchiveEntry} : e.sameSlot e' = true ↔ e.slot = e'.slot := by
  obtain ⟨code, id, name, data, ⟨attributes⟩⟩ := e
  obtain ⟨code', id', name', data', ⟨attributes'⟩⟩ := e'
  simp only [sameSlot, collides, sameAttributes, slot, Bool.and_eq_true, beq_iff_eq, Prod.mk.injEq,
    Dict.mk.injEq]
  tauto

theorem eq_of_compareAttributes {l l' : List (String × String)}
    (h : compareAttributes l l' = .eq) : l = l' := by
  induction l generalizing l' with
  | nil =>
    cases l' with
    | nil => rfl
    | cons p' l' => cases h
  | cons p l ih =>
    cases l' with
    | nil => cases h
    | cons p' l' =>
      obtain ⟨key, value⟩ := p
      obtain ⟨key', value'⟩ := p'
      rw [compareAttributes, Ordering.then_eq_eq, Ordering.then_eq_eq] at h
      obtain ⟨sameKey, sameValue, sameRest⟩ := h
      rw [Std.LawfulEqCmp.eq_of_compare sameKey, Std.LawfulEqCmp.eq_of_compare sameValue,
        ih sameRest]

/-- Only entries for the same slot are equal in the order. -/
theorem slot_eq_of_compare {e e' : ArchiveEntry} (h : e.compare e' = .eq) : e.slot = e'.slot := by
  rw [ArchiveEntry.compare, Ordering.then_eq_eq, Ordering.then_eq_eq] at h
  obtain ⟨code, attributes, id⟩ := h
  rw [slot, slot, Std.LawfulEqCmp.eq_of_compare code,
    Int64.toInt_inj.1 (Std.LawfulEqCmp.eq_of_compare id)]
  have same := eq_of_compareAttributes attributes
  obtain ⟨_, _, _, _, ⟨_⟩⟩ := e
  obtain ⟨_, _, _, _, ⟨_⟩⟩ := e'
  exact congrArg (fun l => (_, _, Dict.mk l)) same

end ArchiveEntry

namespace Archive

open ArchiveEntry (slot)

variable {a a' : Archive} {e : ArchiveEntry}

/-- What additions can lead to: codes of four bytes, and no slot taken twice. -/
structure Sound (entries : List ArchiveEntry) : Prop where
  codes : ∀ e ∈ entries, e.code.utf8ByteSize = 4
  slots : (entries.map slot).Nodup

namespace Sound

variable {es es' : List ArchiveEntry} {e : ArchiveEntry}

theorem nil : Sound [] := ⟨by simp, by simp⟩

theorem perm (h : Sound es) (p : es.Perm es') : Sound es' :=
  ⟨fun e member => h.codes e (p.mem_iff.2 member), ((p.map slot).nodup_iff).1 h.slots⟩

theorem left (h : Sound (es ++ es')) : Sound es := by
  obtain ⟨codes, slots⟩ := h
  rw [List.map_append] at slots
  exact ⟨fun e member => codes e (List.mem_append_left _ member), List.Nodup.of_append_left slots⟩

theorem append_singleton : Sound (es ++ [e]) ↔
    Sound es ∧ e.code.utf8ByteSize = 4 ∧ ∀ x ∈ es, x.slot ≠ e.slot := by
  constructor
  · intro h
    refine ⟨h.left, h.codes e (by simp), fun x member same => ?_⟩
    have apart := h.slots
    rw [List.map_append, List.nodup_append] at apart
    exact apart.2.2 x.slot (List.mem_map_of_mem member) e.slot (by simp) same
  · rintro ⟨⟨codes, slots⟩, code, free⟩
    constructor
    · intro x member
      rcases List.mem_append.1 member with old | new
      · exact codes x old
      · rw [List.mem_singleton.1 new]
        exact code
    · rw [List.map_append, List.nodup_append]
      refine ⟨slots, by simp, fun s old t new => ?_⟩
      obtain ⟨x, member, rfl⟩ := List.mem_map.1 old
      rw [List.mem_singleton.1 new]
      exact free x member

end Sound

theorem Sound.add_iff (sound : Sound a.entries) :
    a.add e = .ok a' ↔ Sound a'.entries ∧ a' = { a with entries := a.entries ++ [e] } := by
  rw [add_eq_ok_iff]
  constructor
  · rintro ⟨code, untaken, rfl⟩
    have free : ∀ x ∈ a.entries, x.slot ≠ e.slot := fun x member same =>
      untaken (List.any_eq_true.2 ⟨x, member, ArchiveEntry.sameSlot_iff.2 same⟩)
    exact ⟨append_singleton.2 ⟨sound, code, free⟩, rfl⟩
  · rintro ⟨after, rfl⟩
    obtain ⟨-, code, free⟩ := append_singleton.1 after
    refine ⟨code, fun taken => ?_, rfl⟩
    obtain ⟨x, member, same⟩ := List.any_eq_true.1 taken
    exact free x member (ArchiveEntry.sameSlot_iff.1 same)

/-- Entries are accepted one after the other exactly if the result is sound. -/
theorem foldlM_add_iff {es : List ArchiveEntry} (sound : Sound a.entries) :
    es.foldlM add a = .ok a' ↔ Sound a'.entries ∧ a' = { a with entries := a.entries ++ es } := by
  induction es generalizing a with
  | nil =>
    rw [List.append_nil]
    constructor
    · rintro ⟨⟩
      exact ⟨sound, rfl⟩
    · rintro ⟨-, rfl⟩
      rfl
  | cons e es ih =>
    rw [List.foldlM_cons]
    constructor
    · intro h
      obtain ⟨next, first, h⟩ := exists_of_bind_eq_ok h
      obtain ⟨after, rfl⟩ := sound.add_iff.1 first
      simpa using (ih after).1 h
    · rintro ⟨after, rfl⟩
      have whole : Sound ((a.entries ++ [e]) ++ es) := by simpa using after
      rw [sound.add_iff.2 ⟨whole.left, rfl⟩]
      exact (ih whole.left).2 ⟨after, by simp⟩

/-- Entries without a common slot are laid out in the same order, in whatever order they come. -/
theorem sorted_eq_of_perm (sound : Sound a.entries) (perm : a.entries.Perm a'.entries) :
    a.sorted = a'.sorted := by
  have perm' : a.sorted.Perm a'.sorted := (sorted_perm a).trans (perm.trans (sorted_perm a').symm)
  refine List.Perm.eq_of_pairwise ?_ (sorted_pairwise a) (sorted_pairwise a') perm'
  intro e e' member member' le ge
  have tie : e.compare e' = .eq := Std.OrientedCmp.isLE_antisymm le ge
  have here := (sorted_perm a).mem_iff.1 member
  have here' := (sorted_perm a).mem_iff.1 (perm'.mem_iff.2 member')
  exact List.inj_on_of_nodup_map sound.slots here here' (ArchiveEntry.slot_eq_of_compare tie)

/-! ### Writers -/

/-- Adds an entry to a writer, which keeps what was done to it before a failure. -/
def put (e : ArchiveEntry) : EStateM ArchiveError Archive Unit := do
  if e.code.utf8ByteSize ≠ 4 then throw (.invalidTypeCode e.code)
  if (← get).entries.any (·.sameSlot e) then throw (.duplicateEntry e.code e.id)
  modify fun a => { a with entries := a.entries ++ [e] }

/-- A writer does what `add` says, and a rejected entry leaves no trace in it. -/
theorem put_eq : put e a =
    match a.add e with
    | .ok a' => .ok () a'
    | .error error => .error error a := by
  rw [put, add]
  by_cases code : e.code.utf8ByteSize = 4
  · rw [if_neg (not_not.2 code), if_neg (not_not.2 code)]
    refine get_bind.trans ?_
    by_cases taken : a.entries.any (·.sameSlot e) <;> simp only [taken] <;> rfl
  · rw [if_pos code, if_pos code]
    rfl

theorem put_eq_ok_iff : put e a = .ok () a' ↔ a.add e = .ok a' := by
  rw [put_eq]
  cases a.add e <;> simp

theorem put_eq_error_iff {error : ArchiveError} :
    put e a = .error error a' ↔ a' = a ∧ a.add e = .error error := by
  rw [put_eq]
  cases a.add e with
  | ok a'' => simp
  | error error' =>
    simp only [EStateM.Result.error.injEq, Except.error.injEq]
    constructor
    · rintro ⟨rfl, rfl⟩
      exact ⟨rfl, rfl⟩
    · rintro ⟨rfl, rfl⟩
      exact ⟨rfl, rfl⟩

/-- The states of a writer to which entries are offered one after the other. -/
inductive Reachable (format : Format) : Archive → Prop
  | new : Reachable format { format }
  | accepted {a a' : Archive} {e : ArchiveEntry} (before : Reachable format a)
    (h : put e a = .ok () a') : Reachable format a'
  | rejected {a a' : Archive} {e : ArchiveEntry} {error : ArchiveError}
    (before : Reachable format a) (h : put e a = .error error a') : Reachable format a'

theorem Sound.put (sound : Sound a.entries) (h : put e a = .ok () a') : Sound a'.entries :=
  (sound.add_iff.1 (put_eq_ok_iff.1 h)).1

theorem Reachable.sound {format : Format} (h : Reachable format a) : Sound a.entries := by
  induction h with
  | new => exact .nil
  | accepted _ h ih => exact ih.put h
  | rejected _ h ih =>
    obtain ⟨rfl, -⟩ := put_eq_error_iff.1 h
    exact ih

theorem Reachable.format_eq {format : Format} (h : Reachable format a) : a.format = format := by
  induction h with
  | new => rfl
  | accepted _ h ih =>
    obtain ⟨rfl, -⟩ := add_eq_ok (put_eq_ok_iff.1 h)
    exact ih
  | rejected _ h ih =>
    obtain ⟨rfl, -⟩ := put_eq_error_iff.1 h
    exact ih

/-- If entries can be added in one order, they can be in every other, and the archive has the same
bytes, or fails to have any for the same reason. The codes of every writer have four bytes, none of
its slots is taken twice, and what is rejected leaves it as it was. -/
theorem toBytes_perm {format : Format} {es es' : List ArchiveEntry} {a : Archive}
    (added : es.foldlM add { format } = .ok a) (perm : es.Perm es') :
    (∃ a', es'.foldlM add { format } = .ok a' ∧ a'.toBytes = a.toBytes) ∧
    ∀ w, Reachable format w →
      (∀ e ∈ w.entries, e.code.utf8ByteSize = 4) ∧ (w.entries.map slot).Nodup ∧
      ∀ e error w', put e w = .error error w' ↔ w' = w ∧ w.add e = .error error := by
  obtain ⟨sound, rfl⟩ := (foldlM_add_iff .nil).1 added
  refine ⟨⟨{ format, entries := es' }, (foldlM_add_iff .nil).2 ⟨sound.perm perm, rfl⟩, ?_⟩, ?_⟩
  · have order : ({ format, entries := es' } : Archive).sorted =
        ({ format, entries := es } : Archive).sorted :=
      sorted_eq_of_perm (sound.perm perm) perm.symm
    rw [toBytes, order]
    rfl
  · intro w reachable
    exact ⟨reachable.sound.codes, reachable.sound.slots, fun e error w' => put_eq_error_iff⟩

/-- The picture of the sample without its attributes. -/
def Sample.plain : ArchiveEntry := { face with attributes := {} }

/-- A writer with both pictures, though its format keeps no attributes. -/
def Sample.pair : Archive := { format := .classic, entries := [face, plain] }

/-- Two entries that differ by their attributes only are accepted in both orders, and what comes of
writing them is the same. A third one for the slot of the first is rejected. -/
theorem toBytes_perm_sample :
    [Sample.face, Sample.plain].foldlM add { format := .classic } = .ok Sample.pair ∧
    [Sample.face, Sample.plain].Perm [Sample.plain, Sample.face] ∧
    (∃ a', [Sample.plain, Sample.face].foldlM add { format := .classic } = .ok a' ∧
      a'.toBytes = Sample.pair.toBytes) ∧
    Reachable .classic Sample.pair ∧ (Sample.pair.entries.map slot).Nodup ∧
    put Sample.face Sample.pair = .error (.duplicateEntry "PICT" (-5)) Sample.pair := by
  have added : [Sample.face, Sample.plain].foldlM add { format := .classic } = .ok Sample.pair :=
    rfl
  have perm : [Sample.face, Sample.plain].Perm [Sample.plain, Sample.face] := .swap ..
  have reachable : Reachable .classic Sample.pair :=
    .accepted (e := Sample.plain) (.accepted (e := Sample.face) .new rfl) rfl
  obtain ⟨same, states⟩ := toBytes_perm added perm
  obtain ⟨-, slots, rejects⟩ := states _ reachable
  exact ⟨added, perm, same, reachable, slots, (rejects ..).2 ⟨rfl, rfl⟩⟩

end Archive

end Rsrc
