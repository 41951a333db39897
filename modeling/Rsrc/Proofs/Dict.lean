import Mathlib.Data.String.Basic
import Rsrc.Dict

/-!
# Dictionaries are determined by what they hold

Insertion keeps the bindings sorted, so every dictionary that is built by insertions is. Two sorted
dictionaries with the same look-ups are the same.
-/

namespace Rsrc.Dict

variable {α : Type} {key : String} {entries : List (String × α)} {d : Dict α}
  {bindings : List (String × α)} {binding : String × α}

/-- The keys increase. -/
def Sorted (d : Dict α) : Prop := d.entries.Pairwise fun a b => a.1 < b.1

theorem mem_put {value : α} (h : binding ∈ put key value entries) :
    binding = (key, value) ∨ binding ∈ entries := by
  induction entries with
  | nil => simpa [put] using h
  | cons head rest ih =>
    obtain ⟨k, v⟩ := head
    simp only [put] at h
    split at h
    · rcases List.mem_cons.1 h with same | later
      · exact .inl same
      · exact .inr (List.mem_cons_of_mem _ later)
    · split at h
      · rcases List.mem_cons.1 h with same | later
        · exact .inl same
        · exact .inr later
      · rcases List.mem_cons.1 h with same | later
        · exact .inr (same ▸ List.mem_cons_self)
        · rcases ih later with same | older
          · exact .inl same
          · exact .inr (List.mem_cons_of_mem _ older)

theorem mem_of_find? {value : α} (h : find? key entries = some value) : (key, value) ∈ entries := by
  induction entries with
  | nil => cases h
  | cons head rest ih =>
    obtain ⟨k, v⟩ := head
    by_cases same : k = key
    · obtain rfl : v = value := by simpa [find?, same] using h
      exact same ▸ List.mem_cons_self
    · rw [find?, if_neg same] at h
      exact List.mem_cons_of_mem _ (ih h)

theorem mem_foldl_insert
    (h : binding ∈ (bindings.foldl (fun d (key, value) => d.insert key value) d).entries) :
    binding ∈ bindings ∨ binding ∈ d.entries := by
  induction bindings generalizing d with
  | nil => exact .inr h
  | cons head rest ih =>
    rcases ih h with later | before
    · exact .inl (List.mem_cons_of_mem _ later)
    · rcases mem_put before with same | older
      · exact .inl (same ▸ List.mem_cons_self)
      · exact .inr older

theorem pairwise_put (value : α) (h : entries.Pairwise fun a b => a.1 < b.1) :
    (put key value entries).Pairwise fun a b => a.1 < b.1 := by
  induction entries with
  | nil => simp [put]
  | cons head rest ih =>
    obtain ⟨k, v⟩ := head
    obtain ⟨below, sorted⟩ := List.pairwise_cons.1 h
    simp only [put]
    split
    · rename_i same
      subst same
      exact List.pairwise_cons.2 ⟨below, sorted⟩
    · rename_i differ
      split
      · rename_i before
        refine List.pairwise_cons.2 ⟨fun binding member => ?_, h⟩
        rcases List.mem_cons.1 member with rfl | later
        · exact before
        · exact lt_trans before (below binding later)
      · rename_i notBefore
        have after : k < key := lt_of_le_of_ne (not_lt.1 notBefore) (Ne.symm differ)
        refine List.pairwise_cons.2 ⟨fun binding member => ?_, ih sorted⟩
        rcases mem_put member with rfl | older
        · exact after
        · exact below binding older

theorem Sorted.empty : Sorted (empty : Dict α) := List.Pairwise.nil

theorem Sorted.insert (h : d.Sorted) (key : String) (value : α) :
    (d.insert key value).Sorted := pairwise_put value h

theorem find?_eq_none_of_lt (h : ∀ binding ∈ entries, key < binding.1) :
    find? key entries = none := by
  induction entries with
  | nil => rfl
  | cons head rest ih =>
    obtain ⟨k, v⟩ := head
    have differ : k ≠ key := ne_of_gt (h (k, v) List.mem_cons_self)
    rw [find?, if_neg differ]
    exact ih fun binding member => h binding (List.mem_cons_of_mem _ member)

theorem le_of_find?_ne_none {k : String} {v : α} {rest : List (String × α)}
    (sorted : ((k, v) :: rest).Pairwise fun a b => a.1 < b.1)
    (found : find? key ((k, v) :: rest) ≠ none) : k ≤ key := by
  by_contra before
  refine found (find?_eq_none_of_lt fun binding member => ?_)
  rcases List.mem_cons.1 member with rfl | later
  · exact not_le.1 before
  · exact lt_trans (not_le.1 before) ((List.pairwise_cons.1 sorted).1 binding later)

theorem eq_of_find?_eq {entries' : List (String × α)}
    (sorted : entries.Pairwise fun a b => a.1 < b.1)
    (sorted' : entries'.Pairwise fun a b => a.1 < b.1)
    (same : ∀ key, find? key entries = find? key entries') : entries = entries' := by
  induction entries generalizing entries' with
  | nil =>
    cases entries' with
    | nil => rfl
    | cons head rest => simpa [find?] using same head.1
  | cons head rest ih =>
    obtain ⟨k, v⟩ := head
    cases entries' with
    | nil => simpa [find?] using same k
    | cons head' rest' =>
      obtain ⟨k', v'⟩ := head'
      -- Each first key is found on the other side, so neither is the smaller one.
      have keys : k = k' := by
        apply le_antisymm
        · exact le_of_find?_ne_none sorted (by rw [same k']; simp [find?])
        · exact le_of_find?_ne_none sorted' (by rw [← same k]; simp [find?])
      subst keys
      have values : v = v' := by simpa [find?] using same k
      subst values
      obtain ⟨below, ordered⟩ := List.pairwise_cons.1 sorted
      obtain ⟨below', ordered'⟩ := List.pairwise_cons.1 sorted'
      have rests : rest = rest' := by
        refine ih ordered ordered' fun key => ?_
        by_cases h : k = key
        · subst h
          rw [find?_eq_none_of_lt below, find?_eq_none_of_lt below']
        · simpa [find?, h] using same key
      rw [rests]

theorem Sorted.ext {d' : Dict α} (h : d.Sorted) (h' : d'.Sorted)
    (same : ∀ key, d.get? key = d'.get? key) : d = d' := by
  obtain ⟨entries⟩ := d
  obtain ⟨entries'⟩ := d'
  congr
  exact eq_of_find?_eq h h' same

/-! ### Many bindings -/

theorem Sorted.foldl_insert (h : d.Sorted) (bindings : List (String × α)) :
    (bindings.foldl (fun d (key, value) => d.insert key value) d).Sorted := by
  induction bindings generalizing d with
  | nil => exact h
  | cons binding bindings ih => exact ih (h.insert binding.1 binding.2)

theorem Sorted.ofList (bindings : List (String × α)) : (ofList bindings).Sorted :=
  Sorted.empty.foldl_insert bindings

/-- Bindings of different keys can be put in either order. -/
theorem put_comm {key key' : String} (differ : key ≠ key') (value value' : α) :
    put key value (put key' value' entries) = put key' value' (put key value entries) := by
  induction entries with
  | nil => grind [put]
  | cons binding rest ih => grind [put]

theorem find?_append (front back : List (String × α)) :
    find? key (front ++ back) = (find? key front).or (find? key back) := by
  induction front with
  | nil => rfl
  | cons head rest ih =>
    obtain ⟨k, v⟩ := head
    rw [List.cons_append, find?, find?]
    split
    · rfl
    · exact ih

theorem find?_map {β : Type} (f : α → β) :
    find? key (entries.map fun binding => (binding.1, f binding.2)) = (find? key entries).map f := by
  induction entries with
  | nil => rfl
  | cons head rest ih =>
    obtain ⟨k, v⟩ := head
    rw [List.map_cons, find?, find?]
    split
    · rfl
    · exact ih

/-- Later bindings win. -/
theorem get?_foldl_insert :
    (bindings.foldl (fun d (key, value) => d.insert key value) d).get? key =
      (find? key bindings.reverse).or (d.get? key) := by
  induction bindings generalizing d with
  | nil => rfl
  | cons binding bindings ih =>
    obtain ⟨k, v⟩ := binding
    rw [List.foldl_cons, ih, List.reverse_cons, find?_append, Option.or_assoc]
    congr 1
    rw [find?]
    by_cases same : k = key
    · rw [if_pos same, same, get?_insert_self]
      rfl
    · rw [if_neg same, get?_insert_of_ne d (Ne.symm same)]
      rfl

theorem get?_ofList : (ofList bindings).get? key = find? key bindings.reverse := by
  rw [ofList, get?_foldl_insert]
  exact Option.or_none

theorem find?_eq_none_iff : find? key entries = none ↔ key ∉ entries.map (·.1) := by
  induction entries with
  | nil => simp [find?]
  | cons head rest ih =>
    obtain ⟨k, v⟩ := head
    by_cases same : k = key
    · simp [find?, same]
    · simp [find?, same, ih, Ne.symm same]

theorem find?_of_forall_eq {v : α} (same : ∀ binding ∈ entries, binding.2 = v) :
    find? key entries = if key ∈ entries.map (·.1) then some v else none := by
  induction entries with
  | nil => rfl
  | cons head rest ih =>
    obtain ⟨k, w⟩ := head
    obtain rfl : w = v := same (k, w) List.mem_cons_self
    have others := ih fun binding member => same binding (List.mem_cons_of_mem _ member)
    by_cases here : k = key
    · simp [find?, here]
    · have moved : key ∈ ((k, w) :: rest).map (·.1) ↔ key ∈ rest.map (·.1) := by
        rw [List.map_cons, List.mem_cons]
        exact or_iff_right (Ne.symm here)
      rw [find?, if_neg here, others]
      exact if_congr moved.symm rfl rfl

/-- The order of bindings with different keys does not matter. -/
theorem find?_reverse (distinct : (entries.map (·.1)).Nodup) :
    find? key entries.reverse = find? key entries := by
  induction entries with
  | nil => rfl
  | cons head rest ih =>
    obtain ⟨k, v⟩ := head
    obtain ⟨fresh, others⟩ := List.nodup_cons.1 distinct
    rw [List.reverse_cons, find?_append, ih others]
    by_cases same : k = key
    · subst same
      rw [find?_eq_none_iff.2 fresh]
      simp [find?]
    · simp [find?, same]

theorem Sorted.nodup_keys (h : d.Sorted) : (d.entries.map (·.1)).Nodup :=
  List.pairwise_map.2 (h.imp fun before => ne_of_lt before)

theorem find?_filter (p : String → Bool) :
    find? key (entries.filter (p ·.1)) = if p key then find? key entries else none := by
  induction entries with
  | nil => simp [find?]
  | cons head rest ih =>
    obtain ⟨k, v⟩ := head
    by_cases same : k = key
    · subst same
      by_cases chosen : p k
      · simp [find?, chosen]
      · simp [chosen, ih]
    · by_cases chosen : p k
      · simp [find?, chosen, same, ih]
      · simp [find?, chosen, same, ih]

end Rsrc.Dict
