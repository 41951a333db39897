import Rsrc.Proofs.Dict
import Rsrc.Proofs.Encoding.Cell

/-!
# Filling slots gives the canonical record

Decoding fills the slots of a type one after another, and puts the elements of a list behind those
that are there. When no two lists that hold something have the same key, the order does not matter
and the result is the canonical record.
-/

namespace Rsrc

variable {slots : List Slot} {elements : List Record} {r : Record}

attribute [ext] Record

theorem Record.get?_appendEntries_self (key : String) :
    (r.appendEntries key elements).lists.get? key = some (r.list key ++ elements) :=
  Dict.get?_insert_self ..

theorem Record.get?_appendEntries_of_ne {key other : String} (h : other ≠ key) :
    (r.appendEntries key elements).lists.get? other = r.lists.get? other :=
  Dict.get?_insert_of_ne _ h _

theorem Record.list_appendEntries_self (key : String) :
    (r.appendEntries key elements).list key = r.list key ++ elements := by
  rw [list, get?_appendEntries_self]
  rfl

theorem Record.list_appendEntries_of_ne {key other : String} (h : other ≠ key) :
    (r.appendEntries key elements).list other = r.list other := by
  rw [list, get?_appendEntries_of_ne h]
  rfl

namespace Slot

/-! ### Values that are read back as they are -/

mutual

theorem into_congr {P : Tag → Option Value → Prop} {read read' : Tag → Option Value → Value}
    (same : ∀ tag v, P tag v → read tag v = read' tag v) (source : Record) (target : Record) :
    (slot : Slot) → slot.Holds P source → slot.into read source target = slot.into read' source target
  | value key tag, h => by rw [into, into, same tag _ h]
  | list key owned members, h => by
    rw [into, into]
    cases owned with
    | false => rfl
    | true =>
      have elements : ((source.list key).map fun element => allInto read element members {}) =
          (source.list key).map fun element => allInto read' element members {} :=
        List.map_congr_left fun element member =>
          allInto_congr same element {} members (h rfl element member)
      rw [if_pos rfl, if_pos rfl, elements]

theorem allInto_congr {P : Tag → Option Value → Prop} {read read' : Tag → Option Value → Value}
    (same : ∀ tag v, P tag v → read tag v = read' tag v) (source : Record) (target : Record) :
    (slots : List Slot) → AllHold P source slots →
      allInto read source slots target = allInto read' source slots target
  | [], _ => rfl
  | slot :: rest, h => by
    rw [allInto, allInto, into_congr same source target slot h.1,
      allInto_congr same source _ rest h.2]

end

/-! ### Distinct lists -/

/-- The keys of the lists that fields own. -/
def ownedKeys (slots : List Slot) : List String :=
  slots.filterMap fun
    | list key true _ => some key
    | _ => none

/-- No two lists with an owner share a key, at any depth. -/
inductive Distinct : List Slot → Prop where
  | intro {slots : List Slot} (keys : (ownedKeys slots).Nodup)
      (members : ∀ key owned inner, list key owned inner ∈ slots → Distinct inner) :
      Distinct slots

theorem Distinct.keys (h : Distinct slots) : (ownedKeys slots).Nodup := by
  obtain ⟨keys, _⟩ := h
  exact keys

theorem Distinct.members (h : Distinct slots) (key : String) (owned : Bool) (inner : List Slot)
    (member : list key owned inner ∈ slots) : Distinct inner := by
  obtain ⟨_, members⟩ := h
  exact members key owned inner member

variable (format : Format) (source : Record)

theorem keys_allOwned : (allOwned format source slots).map (·.1) = ownedKeys slots := by
  induction slots with
  | nil => rfl
  | cons slot slots ih =>
    rw [allOwned, List.map_append, ih]
    match slot with
    | value .. => rfl
    | list key true members => rfl
    | list key false members => rfl

theorem allOwned_list (key : String) (members rest : List Slot) :
    allOwned format source (list key true members :: rest) =
      (key, (source.list key).map fun element => canonical format element members) ::
        allOwned format source rest := rfl

theorem unowned_cons (slot : Slot) (rest : List Slot) :
    unowned (slot :: rest) = unowned [slot] ++ unowned rest := by
  rw [unowned, unowned, unowned, ← List.filterMap_append, List.singleton_append]

/-! ### Values -/

theorem values_allInto (target : Record) :
    (allInto (canonicalValue format) source slots target).values =
      (bindings format source slots).foldl (fun d (key, v) => d.insert key v) target.values := by
  induction slots generalizing target with
  | nil => rfl
  | cons slot slots ih =>
    rw [allInto, ih]
    cases slot <;> rfl

/-! ### Lists -/

/-- What a list holds once the slots are filled: the elements of its owner behind those that were
there. A list without an owner exists afterwards, and has got nothing. -/
theorem get?_lists_allInto (distinct : (ownedKeys slots).Nodup)
    (inner : ∀ key members, list key true members ∈ slots → ∀ element,
      allInto (canonicalValue format) element members {} = canonical format element members)
    (target : Record) (key : String) :
    (allInto (canonicalValue format) source slots target).lists.get? key =
      match Dict.find? key (allOwned format source slots) with
      | some elements => some (target.list key ++ elements)
      | none =>
        if key ∈ (unowned slots).map (·.1) then some (target.list key)
        else target.lists.get? key := by
  induction slots generalizing target with
  | nil => rfl
  | cons slot slots ih =>
    -- The later slots are filled last, so what the first one adds is already in their target.
    have later := ih (distinct.sublist ((List.sublist_cons_self slot slots).filterMap _))
      (fun key members member => inner key members (List.mem_cons_of_mem _ member))
    rw [allInto, later]
    match slot with
    | value k tag => rfl
    | list k true members =>
      have elements : ((source.list k).map fun element =>
            allInto (canonicalValue format) element members {}) =
          (source.list k).map fun element => canonical format element members :=
        List.map_congr_left fun element _ => inner k members List.mem_cons_self element
      have fresh : Dict.find? k (allOwned format source slots) = none := by
        rw [Dict.find?_eq_none_iff, keys_allOwned]
        exact (List.nodup_cons.1 distinct).1
      rw [into, if_pos rfl, elements, allOwned_list]
      by_cases same : k = key
      · subst same
        rw [fresh, Record.list_appendEntries_self, Record.get?_appendEntries_self, ite_self]
        simp [Dict.find?]
      · rw [Record.list_appendEntries_of_ne (Ne.symm same),
          Record.get?_appendEntries_of_ne (Ne.symm same), Dict.find?, if_neg same]
        rfl
    | list k false members =>
      have none : allOwned format source (list k false members :: slots) =
          allOwned format source slots := rfl
      rw [into, none, if_neg (by simp)]
      by_cases same : k = key
      · subst same
        rw [Record.list_appendEntries_self, Record.get?_appendEntries_self, List.append_nil,
          ite_self, if_pos (by simp [unowned])]
      · have moved : key ∈ (unowned (list k false members :: slots)).map (·.1) ↔
            key ∈ (unowned slots).map (·.1) := by
          rw [unowned_cons, List.map_append, List.mem_append]
          exact or_iff_right (by simpa [unowned] using Ne.symm same)
        rw [Record.list_appendEntries_of_ne (Ne.symm same),
          Record.get?_appendEntries_of_ne (Ne.symm same), if_congr moved rfl rfl]

theorem lists_allInto (target : Record) (h : target.lists.Sorted) :
    (allInto (canonicalValue format) source slots target).lists.Sorted := by
  induction slots generalizing target with
  | nil => exact h
  | cons slot slots ih =>
    rw [allInto]
    refine ih _ ?_
    cases slot with
    | value key tag => exact h
    | list key owned members => exact h.insert ..

theorem mem_unowned {binding : String × List Record} (h : binding ∈ unowned slots) :
    binding.2 = [] := by
  obtain ⟨slot, _, found⟩ := List.mem_filterMap.1 h
  match slot with
  | list key false members => cases found; rfl

/-- Filling the slots of an empty record gives the canonical one. -/
theorem allInto_empty (distinct : Distinct slots) (source : Record) :
    allInto (canonicalValue format) source slots {} = canonical format source slots := by
  induction distinct generalizing source with
  | @intro slots keys members ih =>
    have values : (allInto (canonicalValue format) source slots {}).values =
        (canonical format source slots).values := values_allInto format source {}
    have lists : (allInto (canonicalValue format) source slots {}).lists =
        (canonical format source slots).lists := by
      refine (lists_allInto format source {} Dict.Sorted.empty).ext
        (Dict.Sorted.ofList _) fun key => ?_
      have empty : ∀ binding ∈ (unowned slots).reverse, binding.2 = [] := fun binding member =>
        mem_unowned (List.mem_reverse.1 member)
      have nodup : ((allOwned format source slots).map (·.1)).Nodup := by rwa [keys_allOwned]
      rw [get?_lists_allInto format source keys
        (fun key inner member => ih key true inner member), canonical, Dict.get?_ofList,
        List.reverse_append, Dict.find?_append, Dict.find?_reverse nodup,
        Dict.find?_of_forall_eq empty]
      cases Dict.find? key (allOwned format source slots) with
      | some elements => rfl
      | none =>
        have moved : key ∈ (unowned slots).reverse.map (·.1) ↔ key ∈ (unowned slots).map (·.1) := by
          rw [List.map_reverse, List.mem_reverse]
        exact if_congr moved.symm rfl rfl
    exact Record.ext values lists

end Slot

end Rsrc
