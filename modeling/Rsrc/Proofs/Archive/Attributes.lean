import Rsrc.Proofs.Archive.Rez

/-!
# Attributes in formats that drop them

The classic and the rez layout do not look at attributes, but the order in which entries are laid
out does: within one code it goes by attributes before it goes by id. So writers that differ by
attributes only have the same output as long as these put the entries in the same order (`Alike`),
and resources are laid out by id as long as their attributes are in that order too (`InOrder`).
-/

namespace Rsrc.Archive

open Classic (kept)

variable {α β : Type} {format : Format} {e e' : ArchiveEntry} {es : List ArchiveEntry} {a : Archive}
  {before : List ArchiveEntry}

/-! ### Layouts without attributes -/

theorem splitBy_map (f : α → β) (r : β → β → Bool) (items : List α) :
    (items.map f).splitBy r = (items.splitBy fun a b => r (f a) (f b)).map (List.map f) := by
  have loop : ∀ (items : List α) (a : α) (group : List α) (groups : List (List α)),
      List.splitBy.loop r (items.map f) (f a) (group.map f) (groups.map (List.map f)) =
        (List.splitBy.loop (fun a b => r (f a) (f b)) items a group groups).map (List.map f) := by
    intro items
    induction items with
    | nil =>
      intro a group groups
      simp [List.splitBy.loop]
    | cons b items ih =>
      intro a group groups
      rw [List.map_cons, List.splitBy.loop, List.splitBy.loop]
      cases r (f a) (f b) with
      | true => exact ih b (a :: group) groups
      | false => simpa using ih b [] ((a :: group).reverse :: groups)
  cases items with
  | nil => rfl
  | cons a items => exact loop items a [] []

theorem concat_map (f : β → ByteArray) (g : α → β) (items : List α) :
    concat f (items.map g) = concat (fun a => f (g a)) items := by
  rw [concat, concat, List.foldl_map]

theorem dataSection_kept (width : Nat) : dataSection width (es.map kept) = dataSection width es := by
  rw [dataSection, dataSection, List.foldl_map]
  rfl

theorem dataOffsets_kept (width start : Nat) :
    dataOffsets width start (es.map kept) = dataOffsets width start es := by
  induction es generalizing start with
  | nil => rfl
  | cons e es ih => exact congrArg (start :: ·) (ih _)

namespace Classic

theorem checkData_kept (offsets : List Nat) :
    checkData (es.map kept) offsets = checkData es offsets := by
  rw [checkData, checkData, List.zip_map_left, List.all_map]
  rfl

theorem nameOffsets_kept (start : Nat) : nameOffsets start (es.map kept) = nameOffsets start es := by
  induction es generalizing start with
  | nil => rfl
  | cons e es ih =>
    rw [List.map_cons, nameOffsets, nameOffsets, ih, ih]
    rfl

theorem nameList_kept : nameList (es.map kept) = nameList es := by
  rw [nameList, nameList, List.filter_map, concat_map]
  rfl

theorem typeList_kept (start : Nat) (groups : List (List ArchiveEntry)) :
    typeList start (groups.map (List.map kept)) = typeList start groups := by
  induction groups generalizing start with
  | nil => rfl
  | cons group groups ih =>
    have code : ((group.map kept).head?.map (·.code)).getD "" =
        (group.head?.map (·.code)).getD "" := by cases group <;> rfl
    rw [List.map_cons, typeList, typeList, ih, code, List.length_map]

theorem references_kept (offsets : List (Nat × Nat)) :
    concat reference ((es.map kept).zip offsets) = concat reference (es.zip offsets) := by
  rw [List.zip_map_left, concat_map]
  rfl

theorem layOut_kept (es : List ArchiveEntry) : layOut (es.map kept) = layOut es := by
  have groups : (es.map kept).splitBy (fun a b => a.code == b.code) =
      (es.splitBy fun a b => a.code == b.code).map (List.map kept) := splitBy_map ..
  simp only [layOut, groups, dataOffsets_kept, checkData_kept, nameOffsets_kept, nameList_kept,
    typeList_kept, references_kept, dataSection_kept, List.length_map]

end Classic

theorem Rez.layOut_kept (es : List ArchiveEntry) : Rez.layOut (es.map kept) = Rez.layOut es := by
  rw [Rez.layOut, Rez.layOut, List.map_map]
  rfl

theorem check_kept (drops : format.keepsAttributes = false) :
    check format (es.map kept) = check format es := by
  have behind : ∀ before, checkFrom format (before.map kept) (es.map kept) =
      checkFrom format before es := by
    induction es with
    | nil => exact fun _ => rfl
    | cons e es ih =>
      intro before
      have first : checkEntry format (before.map kept) (kept e) = checkEntry format before e := by
        simp only [checkEntry, drops, List.any_map]
        rfl
      rw [List.map_cons, checkFrom, checkFrom, first]
      exact congrArg _ (funext fun _ => ih (e :: before))
  exact behind []

/-- What comes of entries in the order in which they are laid out. -/
def written (format : Format) (es : List ArchiveEntry) : Except ArchiveError ByteArray := do
  check format es
  match format with
  | .extended => return Extended.layOut es
  | .classic => Classic.layOut es
  | .rez => return (Rez.layOut es).toUTF8

theorem toBytes_eq_written : a.toBytes = written a.format a.sorted := rfl

theorem written_kept (drops : format.keepsAttributes = false) :
    written format (es.map kept) = written format es := by
  cases format with
  | extended => cases drops
  | classic => simp only [written, check_kept drops, Classic.layOut_kept]
  | rez => simp only [written, check_kept drops, Rez.layOut_kept]

/-! ### Entries without attributes are told apart by code and id -/

/-- What an entry has for itself where attributes are dropped. -/
def key (e : ArchiveEntry) : String × Int64 := (e.code, e.id)

theorem collides_iff : e.collides e' = true ↔ key e = key e' := by
  simp only [ArchiveEntry.collides, key, Bool.and_eq_true, beq_iff_eq, Prod.mk.injEq]
  tauto

theorem key_ne_of_checkEntry (drops : format.keepsAttributes = false)
    (h : checkEntry format before e = .ok ()) : ∀ b ∈ before, key b ≠ key e := by
  intro b member same
  have taken : before.any (·.collides e) = true :=
    List.any_eq_true.2 ⟨b, member, collides_iff.2 same⟩
  simp only [checkEntry, drops, taken] at h
  split at h
  · cases h
  · split at h <;> cases h

theorem nodup_key_of_checkFrom (drops : format.keepsAttributes = false)
    (h : checkFrom format before es = .ok ()) :
    (es.map key).Nodup ∧ ∀ e ∈ es, ∀ b ∈ before, key b ≠ key e := by
  induction es generalizing before with
  | nil => simp
  | cons e es ih =>
    obtain ⟨_, first, h⟩ := exists_of_bind_eq_ok h
    obtain ⟨distinct, apart⟩ := ih h
    constructor
    · rw [List.map_cons, List.nodup_cons]
      refine ⟨fun member => ?_, distinct⟩
      obtain ⟨x, inside, same⟩ := List.mem_map.1 member
      exact apart x inside e (by simp) same.symm
    · intro x member b old
      rcases List.mem_cons.1 member with rfl | later
      · exact key_ne_of_checkEntry drops first b old
      · exact apart x later b (by simp [old])

theorem nodup_key {bytes : ByteArray} (drops : a.format.keepsAttributes = false)
    (h : a.toBytes = .ok bytes) : (a.entries.map key).Nodup := by
  obtain ⟨_, checked, -⟩ := exists_of_bind_eq_ok h
  exact (((sorted_perm a).map key).nodup_iff).1 (nodup_key_of_checkFrom drops checked).1

theorem eq_of_kept (distinct : (es.map key).Nodup) (member : e ∈ es) (member' : e' ∈ es)
    (h : kept e = kept e') : e = e' := by
  have same : key (kept e) = key (kept e') := congrArg key h
  exact List.inj_on_of_nodup_map distinct member member' same

theorem key_eq_of_compare (h : e.compare e' = .eq) : key e = key e' :=
  congrArg (fun s => (s.1, s.2.1)) (ArchiveEntry.slot_eq_of_compare h)

theorem eq_of_compare (distinct : (es.map key).Nodup) (member : e ∈ es) (member' : e' ∈ es)
    (h : e.compare e' = .eq) : e = e' :=
  List.inj_on_of_nodup_map distinct member member' (key_eq_of_compare h)

theorem sorted_pairwise_key (distinct : (a.entries.map key).Nodup) :
    a.sorted.Pairwise fun e e' => key e ≠ key e' :=
  List.pairwise_map.1 (((sorted_perm a).map key).nodup_iff.2 distinct)

/-- Where code and id tell entries apart, no two of them are equal in the order. -/
theorem sorted_pairwise_lt (distinct : (a.entries.map key).Nodup) :
    a.sorted.Pairwise fun e e' => e.compare e' = .lt := by
  refine ((sorted_pairwise a).and (sorted_pairwise_key distinct)).imp ?_
  rintro e e' ⟨le, apart⟩
  cases order : e.compare e' with
  | lt => rfl
  | eq => exact absurd (key_eq_of_compare order) apart
  | gt =>
    rw [order] at le
    cases le

theorem compare_swap (e e' : ArchiveEntry) : e.compare e' = (e'.compare e).swap :=
  Std.OrientedCmp.eq_swap

theorem compare_self (e : ArchiveEntry) : e.compare e = .eq := Std.ReflCmp.compare_self

/-- What holds of entries one behind the other holds of all that are in this order. -/
theorem rel_of_compare {r : ArchiveEntry → ArchiveEntry → Prop} (h : a.sorted.Pairwise r)
    (member : e ∈ a.sorted) (member' : e' ∈ a.sorted) (order : e.compare e' = .lt) : r e e' := by
  let both (e e' : ArchiveEntry) : Prop :=
    (e.compare e' = .lt → r e e') ∧ (e'.compare e = .lt → r e' e)
  have : Std.Symm both := ⟨fun _ _ h => h.symm⟩
  have all : a.sorted.Pairwise both := by
    refine (h.and (sorted_pairwise a)).imp ?_
    rintro e e' ⟨rel, le⟩
    refine ⟨fun _ => rel, fun less => ?_⟩
    rw [compare_swap, less] at le
    cases le
  have self : ∀ e ∈ a.sorted, both e e := by
    intro e _
    show (e.compare e = .lt → _) ∧ _
    simp [compare_self]
  exact (List.Pairwise.forall_of_forall self all member member').1 order

/-! ### The order of the ids -/

/-- Within one code, attributes are in the order of the ids. -/
def InOrder (es : List ArchiveEntry) : Prop :=
  ∀ e ∈ es, ∀ e' ∈ es, e.code = e'.code → e.id < e'.id →
    (ArchiveEntry.compareAttributes e.attributes.entries e'.attributes.entries).isLE = true

instance (es : List ArchiveEntry) : Decidable (InOrder es) :=
  inferInstanceAs (Decidable (∀ e ∈ es, ∀ e' ∈ es, _))

theorem compare_of_code_eq (code : e.code = e'.code) : e.compare e' =
    (ArchiveEntry.compareAttributes e.attributes.entries e'.attributes.entries).then
      (Ord.compare e.id.toInt e'.id.toInt) := by
  have same : Ord.compare e'.code e'.code = .eq := Std.ReflCmp.compare_self
  rw [ArchiveEntry.compare, code, same]
  rfl

theorem compare_eq_lt_of_isLE (code : e.code = e'.code) (id : e.id < e'.id)
    (attributes : (ArchiveEntry.compareAttributes e.attributes.entries
      e'.attributes.entries).isLE = true) : e.compare e' = .lt := by
  have ids : Ord.compare e.id.toInt e'.id.toInt = .lt :=
    Int.compare_eq_lt.2 (Int64.lt_iff_toInt_lt.1 id)
  rw [compare_of_code_eq code, ids]
  revert attributes
  cases ArchiveEntry.compareAttributes e.attributes.entries e'.attributes.entries <;> decide

/-- Resources of one code are laid out by id exactly if their attributes are in that order. -/
theorem inOrder_iff (distinct : (a.entries.map key).Nodup) :
    InOrder a.entries ↔ a.sorted.Pairwise fun e e' => e.code = e'.code → e.id < e'.id := by
  have inside : ∀ {e}, e ∈ a.sorted ↔ e ∈ a.entries := (sorted_perm a).mem_iff
  constructor
  · intro ordered
    refine List.Pairwise.imp_of_mem ?_
      ((sorted_pairwise_lt distinct).and (sorted_pairwise_key distinct))
    rintro e e' member member' ⟨before, apart⟩ code
    by_contra notLess
    have ne : e.id ≠ e'.id := fun id => apart (Prod.ext code id)
    have less : e'.id < e.id := by
      rw [Int64.lt_iff_toInt_lt] at notLess ⊢
      have := Int64.toInt_inj.not.2 ne
      omega
    have after : e'.compare e = .lt := compare_eq_lt_of_isLE code.symm less
      (ordered e' (inside.1 member') e (inside.1 member) code.symm less)
    rw [compare_swap, after] at before
    cases before
  · intro ordered e member e' member' code id
    have order : e.compare e' ≠ .gt := by
      intro order
      rw [compare_swap, Ordering.swap_eq_gt] at order
      have less := rel_of_compare ordered (inside.2 member') (inside.2 member) order code.symm
      rw [Int64.lt_iff_toInt_lt] at id less
      omega
    rw [compare_of_code_eq code] at order
    revert order
    cases ArchiveEntry.compareAttributes e.attributes.entries e'.attributes.entries <;> simp

/-! ### Two writers that differ by attributes -/

theorem zip_of_map_eq {f : α → β} {l l' : List α} (h : l'.map f = l.map f) :
    (l.zip l').map Prod.fst = l ∧ (l.zip l').map Prod.snd = l' ∧ ∀ p ∈ l.zip l', f p.1 = f p.2 := by
  induction l generalizing l' with
  | nil =>
    obtain rfl := List.map_eq_nil_iff.1 h
    simp
  | cons a l ih =>
    cases l' with
    | nil => cases h
    | cons a' l' =>
      obtain ⟨first, rest⟩ := List.cons.inj h
      obtain ⟨left, right, agree⟩ := ih rest
      refine ⟨congrArg (a :: ·) left, congrArg (a' :: ·) right, fun p member => ?_⟩
      rcases List.mem_cons.1 member with rfl | later
      · exact first.symm
      · exact agree p later

/-- Entries at the same two positions are in the same order in both lists. -/
def Alike (es es' : List ArchiveEntry) : Prop :=
  ∀ p ∈ es.zip es', ∀ q ∈ es.zip es', p.1.compare q.1 = p.2.compare q.2

instance (es es' : List ArchiveEntry) : Decidable (Alike es es') :=
  inferInstanceAs (Decidable (∀ p ∈ es.zip es', ∀ q ∈ es.zip es', _))

section Two

variable {a a' : Archive} (agree : a'.entries.map kept = a.entries.map kept)

include agree

theorem sorted_kept_perm : (a'.sorted.map kept).Perm (a.sorted.map kept) := by
  have perm' := (sorted_perm a').map kept
  rw [agree] at perm'
  exact perm'.trans ((sorted_perm a).map kept).symm

theorem sorted_kept_of_inOrder (distinct : (a.entries.map key).Nodup)
    (distinct' : (a'.entries.map key).Nodup) (ordered : InOrder a.entries)
    (ordered' : InOrder a'.entries) : a'.sorted.map kept = a.sorted.map kept := by
  -- What remains of an entry without its attributes is enough to compare codes and ids.
  have increases : ∀ {w : Archive}, (w.entries.map key).Nodup → InOrder w.entries →
      (w.sorted.map kept).Pairwise fun e e' =>
        (Ord.compare e.code e'.code).isLE = true ∧ (e.code = e'.code → e.id < e'.id) := by
    intro w distinct ordered
    refine List.pairwise_map.2 (List.Pairwise.and ?_ ((inOrder_iff distinct).1 ordered))
    exact (sorted_pairwise w).imp fun le => ArchiveEntry.isLE_code le
  refine List.Perm.eq_of_pairwise ?_ (increases distinct' ordered') (increases distinct ordered)
    (sorted_kept_perm agree)
  rintro e e' - - ⟨le, less⟩ ⟨ge, more⟩
  have code : e.code = e'.code :=
    Std.LawfulEqCmp.eq_of_compare (Std.OrientedCmp.isLE_antisymm le ge)
  have less := less code
  have more := more code.symm
  rw [Int64.lt_iff_toInt_lt] at less more
  omega

theorem sorted_kept_of_alike (distinct : (a.entries.map key).Nodup)
    (alike : Alike a.entries a'.entries) : a'.sorted.map kept = a.sorted.map kept := by
  obtain ⟨left, right, same⟩ := zip_of_map_eq agree
  rw [Alike] at alike
  generalize a.entries.zip a'.entries = pairs at left right same alike
  -- Both lists are in the order that the first writer gives to what remains of the entries.
  let le (x y : ArchiveEntry) : Prop := ∃ p ∈ pairs, ∃ q ∈ pairs,
    kept p.1 = x ∧ kept q.1 = y ∧ (p.1.compare q.1).isLE = true
  have ordered : (a.sorted.map kept).Pairwise le := by
    refine List.pairwise_map.2 (List.Pairwise.imp_of_mem ?_ (sorted_pairwise a))
    intro e e' member member' below
    rw [(sorted_perm a).mem_iff, ← left] at member member'
    obtain ⟨p, hp, rfl⟩ := List.mem_map.1 member
    obtain ⟨q, hq, rfl⟩ := List.mem_map.1 member'
    exact ⟨p, hp, q, hq, rfl, rfl, below⟩
  have ordered' : (a'.sorted.map kept).Pairwise le := by
    refine List.pairwise_map.2 (List.Pairwise.imp_of_mem ?_ (sorted_pairwise a'))
    intro e e' member member' below
    rw [(sorted_perm a').mem_iff, ← right] at member member'
    obtain ⟨p, hp, rfl⟩ := List.mem_map.1 member
    obtain ⟨q, hq, rfl⟩ := List.mem_map.1 member'
    rw [← alike p hp q hq] at below
    exact ⟨p, hp, q, hq, same p hp, same q hq, below⟩
  refine List.Perm.eq_of_pairwise ?_ ordered' ordered (sorted_kept_perm agree)
  rintro _ _ - - ⟨p, hp, q, hq, rfl, rfl, below⟩ ⟨q', hq', p', hp', sameQ, sameP, above⟩
  have inside : ∀ p ∈ pairs, p.1 ∈ a.entries := by
    intro p hp
    rw [← left]
    exact List.mem_map_of_mem hp
  rw [eq_of_kept distinct (inside q' hq') (inside q hq) sameQ,
    eq_of_kept distinct (inside p' hp') (inside p hp) sameP] at above
  have tie : p.1.compare q.1 = .eq := Std.OrientedCmp.isLE_antisymm below above
  rw [eq_of_compare distinct (inside p hp) (inside q hq) tie]

theorem alike_of_sorted_kept (distinct : (a.entries.map key).Nodup)
    (distinct' : (a'.entries.map key).Nodup) (h : a'.sorted.map kept = a.sorted.map kept) :
    Alike a.entries a'.entries := by
  obtain ⟨-, -, same⟩ := zip_of_map_eq agree
  obtain ⟨left, right, sameSorted⟩ := zip_of_map_eq h
  -- The pairs of the writers are those of the sorted lists, as code and id tell entries apart.
  have paired : ∀ p ∈ a.entries.zip a'.entries, p ∈ a.sorted.zip a'.sorted := by
    rintro ⟨e, e'⟩ member
    obtain ⟨here, here'⟩ := List.of_mem_zip member
    have sorted : e ∈ (a.sorted.zip a'.sorted).map Prod.fst := by
      rwa [left, (sorted_perm a).mem_iff]
    obtain ⟨⟨_, x⟩, found, rfl⟩ := List.mem_map.1 sorted
    have there := (sorted_perm a').mem_iff.1 (List.of_mem_zip found).2
    rwa [eq_of_kept distinct' here' there ((same _ member).symm.trans (sameSorted _ found))]
  let agrees (p q : ArchiveEntry × ArchiveEntry) : Prop := p.1.compare q.1 = p.2.compare q.2
  have : Std.Symm agrees := ⟨fun p q h => by
    show q.1.compare p.1 = q.2.compare p.2
    rw [compare_swap q.1, compare_swap q.2]
    exact congrArg _ h⟩
  have strict := sorted_pairwise_lt distinct
  have strict' := sorted_pairwise_lt distinct'
  rw [← left, List.pairwise_map] at strict
  rw [← right, List.pairwise_map] at strict'
  have all : (a.sorted.zip a'.sorted).Pairwise agrees :=
    (strict.and strict').imp fun ⟨less, less'⟩ => less.trans less'.symm
  have self : ∀ p ∈ a.sorted.zip a'.sorted, agrees p p := fun p _ =>
    (compare_self p.1).trans (compare_self p.2).symm
  intro p hp q hq
  exact List.Pairwise.forall_of_forall self all (paired p hp) (paired q hq)

end Two

/-! ### What the output shows -/

/-- The entries that a reader finds in the output of a format that drops attributes. -/
def shown : Format → List UInt8 → Option (List ArchiveEntry)
  | .extended, _ => none
  | .classic, bytes => (Classic.read bytes).toOption.map fun found => found.flatMap (·.2)
  | .rez, bytes => Rez.read bytes

theorem shown_toBytes (drops : format.keepsAttributes = false) (reachable : Reachable format a)
    (small : (a.entries.map fun e => 4 + e.data.size).sum < 2 ^ 32 - 256) {bytes : ByteArray}
    (h : a.toBytes = .ok bytes) : shown format bytes.toList = some (a.sorted.map kept) := by
  have perm := sorted_perm a
  have codes : ∀ e ∈ a.sorted, e.code.utf8ByteSize = 4 := fun e member =>
    reachable.sound.codes e (perm.mem_iff.1 member)
  cases format with
  | extended => cases drops
  | classic =>
    obtain ⟨fits, laidOut⟩ := toBytes_classic reachable.format_eq h
    obtain ⟨named, laid⟩ := Classic.layOut_eq_ok laidOut
    have data : headerSize + (dataSection 4 a.sorted).size < 2 ^ 32 := by
      rw [size_dataSection, (perm.map _).sum_nat, headerSize]
      omega
    rw [shown, laid.read_eq codes fits data]
    show some (((Classic.typeGroups a.sorted).map fun g => (groupCode g, g.map kept)).flatMap
      (·.2)) = _
    rw [List.flatMap_map, ← List.map_flatMap, List.flatMap_id', Classic.typeGroups,
      List.flatten_splitBy]
  | rez => exact Rez.read_toBytes reachable h

/-- A format that drops attributes lays out what remains of the entries in an order that the
attributes have a part in. So writers that agree but for attributes have the same output if both put
their entries in the same order, and only then; and the resources of a code are laid out by id
exactly if their attributes are in that order too. -/
theorem toBytes_attributes {format : Format} (drops : format.keepsAttributes = false)
    {a a' : Archive} (reachable : Reachable format a) (reachable' : Reachable format a')
    (agree : a'.entries.map kept = a.entries.map kept) {bytes bytes' : ByteArray}
    (h : a.toBytes = .ok bytes) (h' : a'.toBytes = .ok bytes') :
    written format (a.sorted.map kept) = .ok bytes ∧
    (Alike a.entries a'.entries → bytes' = bytes) ∧
    ((a.entries.map fun e => 4 + e.data.size).sum < 2 ^ 32 - 256 → bytes' = bytes →
      Alike a.entries a'.entries) ∧
    (InOrder a.entries ↔ a.sorted.Pairwise fun e e' => e.code = e'.code → e.id < e'.id) ∧
    (InOrder a.entries → InOrder a'.entries → bytes' = bytes) := by
  have distinct := nodup_key (reachable.format_eq ▸ drops) h
  have distinct' := nodup_key (reachable'.format_eq ▸ drops) h'
  have laidOut : written format (a.sorted.map kept) = .ok bytes := by
    rw [written_kept drops, ← h, toBytes_eq_written, reachable.format_eq]
  have laidOut' : written format (a'.sorted.map kept) = .ok bytes' := by
    rw [written_kept drops, ← h', toBytes_eq_written, reachable'.format_eq]
  have same : a'.sorted.map kept = a.sorted.map kept → bytes' = bytes := by
    intro sorted
    rw [sorted] at laidOut'
    exact Except.ok.inj (laidOut'.symm.trans laidOut)
  refine ⟨laidOut, fun alike => ?_, fun small equal => ?_, inOrder_iff distinct,
    fun ordered ordered' => ?_⟩
  · exact same (sorted_kept_of_alike agree distinct alike)
  · subst equal
    have small' : (a'.entries.map fun e => 4 + e.data.size).sum < 2 ^ 32 - 256 := by
      have sizes := congrArg (List.map fun e => 4 + e.data.size) agree
      rw [List.map_map, List.map_map] at sizes
      exact (congrArg List.sum sizes).trans_lt small
    have found := (shown_toBytes drops reachable' small' h').symm.trans
      (shown_toBytes drops reachable small h)
    exact alike_of_sorted_kept agree distinct distinct' (Option.some.inj found)
  · exact same (sorted_kept_of_inOrder agree distinct distinct' ordered ordered')

namespace Sample

def item (id : Int64) (byte : UInt8) (attributes : List (String × String)) : ArchiveEntry where
  code := "ITEM"
  id
  data := ⟨#[byte]⟩
  attributes := ⟨attributes⟩

/-- Two items with the given attributes, the one with the larger id first. -/
def items (second first : List (String × String)) : Archive where
  format := .rez
  entries := [item 2 2 second, item 1 1 first]

theorem reachable_items (second first : List (String × String)) :
    Reachable .rez (items second first) :=
  .accepted (e := item 1 1 first) (.accepted (e := item 2 2 second) .new rfl) rfl

theorem exists_toBytes_items (second first : List (String × String)) :
    ∃ bytes, (items second first).toBytes = .ok bytes := by
  rw [toBytes, items, sorted_pair]
  split
  · exact ⟨_, rfl⟩
  · exact ⟨_, rfl⟩

end Sample

/-- Attributes against the order of the ids put the second item first, so that the text is another
one than without attributes. Attributes in that order make no difference. -/
theorem toBytes_attributes_items : ∃ bytes bytes',
    let crossed := Sample.items [("a", "x")] [("b", "y")]
    let plain := Sample.items [] []
    let straight := Sample.items [("b", "y")] [("a", "x")]
    Format.rez.keepsAttributes = false ∧
    Reachable .rez crossed ∧ Reachable .rez plain ∧ Reachable .rez straight ∧
    plain.entries.map kept = crossed.entries.map kept ∧
    straight.entries.map kept = plain.entries.map kept ∧
    crossed.toBytes = .ok bytes ∧ plain.toBytes = .ok bytes' ∧ bytes' ≠ bytes ∧
    ¬ (crossed.sorted.Pairwise fun e e' => e.code = e'.code → e.id < e'.id) ∧
    straight.toBytes = .ok bytes' := by
  have crossed := Sample.reachable_items [("a", "x")] [("b", "y")]
  have plain := Sample.reachable_items [] []
  have straight := Sample.reachable_items [("b", "y")] [("a", "x")]
  obtain ⟨bytes, h⟩ := Sample.exists_toBytes_items [("a", "x")] [("b", "y")]
  obtain ⟨bytes', h'⟩ := Sample.exists_toBytes_items [] []
  obtain ⟨bytes'', h''⟩ := Sample.exists_toBytes_items [("b", "y")] [("a", "x")]
  obtain ⟨-, -, differ, ordered, -⟩ := toBytes_attributes rfl crossed plain rfl h h'
  obtain ⟨-, -, -, -, same⟩ := toBytes_attributes rfl plain straight rfl h' h''
  obtain rfl := same (by decide) (by decide)
  refine ⟨bytes, bytes'', rfl, crossed, plain, straight, rfl, rfl, h, h', fun equal => ?_, ?_, h''⟩
  · exact absurd (differ (by decide) equal) (by decide)
  · rw [← ordered]
    decide

end Rsrc.Archive
