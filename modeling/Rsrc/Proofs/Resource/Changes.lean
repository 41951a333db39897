import Rsrc.Proofs.Resource.Accepted

/-!
# What an assignment changes

A place of a record is a key, or a place inside an element of a list. An assignment targets some of the
places (`TypeDef.Targets`): those of the values that its path stands for, in the record or in the last
element of a list, or an element that is appended. All other places are as before, lists only get
longer, and at most one of them changes (`TypeDef.ensures_assign`).
-/

namespace Rsrc

/-- Where a record can have a value: under a key, or inside an element of a list. -/
inductive Place where
  | value (key : String)
  | element (list : String) (index : Nat) (inside : Place)

/-- The place of a key, or of a key that goes on behind it. -/
def Place.Under (key : String) : Place → Prop
  | value other => other = key ∨ ∃ rest, other = key ++ "." ++ rest
  | element .. => False

namespace Record

variable {r r' r'' : Record} {T T' : Place → Prop} {L L' : String → Prop} {elements : List Record}

/-- The value in a place, if there is one. -/
def at? (r : Record) : Place → Option Value
  | .value key => r.get? key
  | .element list index inside => (r.list list)[index]?.bind (at? · inside)

theorem get?_set_of_ne {key other : String} (h : other ≠ key) (value : Value) :
    (r.set key value).get? other = r.get? other := Dict.get?_insert_of_ne _ h value

theorem list_setList_of_ne {key other : String} (h : other ≠ key) :
    (r.setList key elements).list other = r.list other := by
  rw [list, list, setList, Dict.get?_insert_of_ne _ h]

variable (f : Value → Value)

theorem get?_mapValues (r : Record) (key : String) : (r.mapValues f).get? key = (r.get? key).map f := by
  obtain ⟨⟨values⟩, ⟨lists⟩⟩ := r
  exact Dict.find?_map f

theorem mapElements_eq_map : mapElements f elements = elements.map (mapValues f) := by
  induction elements with
  | nil => rfl
  | cons element elements ih => rw [mapElements, ih, List.map_cons]

theorem list_mapValues (r : Record) (key : String) :
    (r.mapValues f).list key = (r.list key).map (mapValues f) := by
  obtain ⟨⟨values⟩, ⟨lists⟩⟩ := r
  change (Dict.find? key (mapLists f lists)).getD [] = ((Dict.find? key lists).getD []).map _
  induction lists with
  | nil => rfl
  | cons binding lists ih =>
    obtain ⟨k, elements⟩ := binding
    rw [mapLists, Dict.find?, Dict.find?]
    split
    · exact mapElements_eq_map f
    · exact ih

theorem at?_mapValues (r : Record) (place : Place) :
    (r.mapValues f).at? place = (r.at? place).map f := by
  induction place generalizing r with
  | value key => exact get?_mapValues f r key
  | element list index inside ih =>
    rw [at?, at?, list_mapValues, List.getElem?_map]
    cases (r.list list)[index]? with
    | none => rfl
    | some entry => exact ih entry

/-- The second record differs from the first one in places of `T` at most, and it has the same lists
but for those of `L`. No list is shorter. -/
structure Changes (T : Place → Prop) (L : String → Prop) (r r' : Record) : Prop where
  places : ∀ place, ¬ T place → r'.at? place = r.at? place
  lists : ∀ key, ¬ L key → r'.list key = r.list key
  longer : ∀ key, (r.list key).length ≤ (r'.list key).length

namespace Changes

theorem refl (r : Record) : Changes T L r r := ⟨fun _ _ => rfl, fun _ _ => rfl, fun _ => Nat.le_refl _⟩

theorem trans (first : Changes T L r r') (second : Changes T L r' r'') : Changes T L r r'' where
  places place untouched := (second.places place untouched).trans (first.places place untouched)
  lists key other := (second.lists key other).trans (first.lists key other)
  longer key := Nat.le_trans (first.longer key) (second.longer key)

theorem mono (h : Changes T L r r') (places : ∀ place, T place → T' place)
    (lists : ∀ key, L key → L' key) : Changes T' L' r r' where
  places place untouched := h.places place fun touched => untouched (places place touched)
  lists key other := h.lists key fun same => other (lists key same)
  longer := h.longer

theorem set {key : String} (target : T (.value key)) (value : Value) :
    Changes T L r (r.set key value) where
  places place untouched := by
    cases place with
    | value other =>
      have differs : other ≠ key := fun same => untouched (same ▸ target)
      exact get?_set_of_ne differs value
    | element list index inside => rfl
  lists _ _ := rfl
  longer _ := Nat.le_refl _

/-- Several changes can be made one after another. -/
theorem foldl {α : Type} {items : List α} {step : Record → α → Record}
    (each : ∀ a ∈ items, ∀ r, Changes T L r (step r a)) (r : Record) :
    Changes T L r (items.foldl step r) := by
  induction items generalizing r with
  | nil => exact refl r
  | cons a items ih =>
    have first : Changes T L r (step r a) := each a List.mem_cons_self r
    exact first.trans (ih (fun b member => each b (List.mem_cons_of_mem _ member)) _)

/-- Values under keys that are all targeted can be set one after another. -/
theorem foldl_set {α : Type} {items : List α} {key : α → String} {value : α → Value}
    (target : ∀ a ∈ items, T (.value (key a))) :
    Changes T L r (items.foldl (fun r a => r.set (key a) (value a)) r) :=
  foldl (fun a member _ => set (target a member) _) r

theorem setList {key : String} {elements : List Record} (listed : L key)
    (longer : (r.list key).length ≤ elements.length)
    (same : ∀ index inside, ¬ T (.element key index inside) →
      elements[index]?.bind (at? · inside) = (r.list key)[index]?.bind (at? · inside)) :
    Changes T L r (r.setList key elements) where
  places place untouched := by
    cases place with
    | value other => rfl
    | element list index inside =>
      by_cases here : list = key
      · subst here
        rw [at?, at?, list_setList]
        exact same index inside untouched
      · rw [at?, at?, list_setList_of_ne here]
  lists other untouched := by
    have differs : other ≠ key := fun here => untouched (by rwa [here])
    exact list_setList_of_ne differs
  longer other := by
    by_cases here : other = key
    · rwa [here, list_setList]
    · rw [list_setList_of_ne here]

/-- Elements are appended to a list. -/
theorem appendEntries {key : String} (listed : L key)
    (target : ∀ index inside, (r.list key).length ≤ index → T (.element key index inside))
    (elements : List Record) : Changes T L r (r.appendEntries key elements) := by
  refine setList listed (by simp) fun index inside untouched => ?_
  have before : index < (r.list key).length := by
    by_contra after
    exact untouched (target index inside (Nat.le_of_not_lt after))
  rw [List.getElem?_append_left before]

/-- The last element of a list is changed. -/
theorem last {key : String} {entry entry' : Record} {init : List Record} (listed : L key)
    (list : r.list key = init ++ [entry]) (inner : Changes T' L' entry entry')
    (target : ∀ inside, T' inside → T (.element key init.length inside)) :
    Changes T L r (r.setList key (init ++ [entry'])) := by
  refine setList listed (by simp [list]) fun index inside untouched => ?_
  rw [list]
  rcases Nat.lt_trichotomy index init.length with before | here | behind
  · rw [List.getElem?_append_left before, List.getElem?_append_left before]
  · subst here
    have same := inner.places inside fun touched => untouched (target inside touched)
    simpa using same
  · rw [List.getElem?_eq_none (by simp; omega), List.getElem?_eq_none (by simp; omega)]

end Changes

end Record

/-! ### The results of updates -/

/-- If the update has a result, it is in `Q`. -/
abbrev Update.Ensures {α : Type} (u : Update α) (Q : α → Prop) : Prop :=
  Keeps (fun _ : Session => True) u Q

theorem Update.ensures_any {α : Type} (u : Update α) : u.Ensures fun _ => True := by
  intro s _
  cases u s with
  | ok a t => exact ⟨trivial, trivial⟩
  | error e t => trivial

/-- The places of a value and of what is joined to it, under keys that start with `front`. -/
def FieldValue.Places (v : FieldValue) (front : String) (place : Place) : Prop :=
  ∃ part ∈ v.parts, place.Under (front ++ part.name)

/-- The places of the first values of a field in a record, or those of an element to come. -/
def Field.Places (f : Field) (count : Nat) (r : Record) (front : String) (place : Place) : Prop :=
  if f.isRepeatable then
    ∃ inside, place = .element (front ++ f.name) (r.list (front ++ f.name)).length inside
  else ∃ v ∈ f.values.take count, v.Places front place

namespace TypeDef

open Record (Changes)

variable {scope : ScopeId} {r : Record} {T : Place → Prop} {L : String → Prop}

/-! ### Values -/

theorem ensures_constructInto (nested : TypeDef) (key : String) (origin : Lexeme)
    (arguments : List Expr) :
    (nested.constructInto scope key r origin arguments).Ensures
      (Changes (Place.Under key) (fun _ => False) r) := by
  refine (Update.ensures_any _).andThen fun values => (Update.ensures_any _).andThen fun written => ?_
  exact .pure (Changes.foldl_set (fun binding _ => .inr ⟨binding.1, rfl⟩))

variable (d : TypeDef)

theorem ensures_assignExpr (v : FieldValue) (key : String) (operand : Operand) :
    (d.assignExpr scope v key r operand).Ensures
      (Changes (Place.Under key) (fun _ => False) r) := by
  rcases d.assignExpr_cases scope key with ⟨t, arguments, -, -, run⟩ | ⟨-, run⟩
  · rw [run]
    exact ensures_constructInto _ key _ _
  · rw [run]
    exact (Update.ensures_any _).andThen fun value => .pure (.set (.inl rfl) _)

theorem ensures_assignValue (v : FieldValue) (front : String) (operand : Operand) :
    (d.assignValue scope v front r operand).Ensures
      (Changes (v.Places front) (fun _ => False) r) := by
  refine .ite (fun _ => ?_) fun _ => ?_
  · refine (d.ensures_assignExpr v (front ++ v.name) operand).mono fun r' changes => ?_
    exact changes.mono (fun place under => ⟨v, List.mem_cons_self, under⟩) fun _ => id
  · refine Stays.foldlM (fun part used r' before => ?_) (.refl r)
    have member : part ∈ v.parts := List.mem_of_mem_filter used
    exact (Update.ensures_any _).andThen fun value =>
      .pure (before.trans (.set ⟨part, member, .inl rfl⟩ _))

theorem ensures_assignValues (front : String) (values : List FieldValue) (operands : List Operand) :
    (d.assignValues scope front r values operands).Ensures
      (Changes (fun place => ∃ v ∈ values.take operands.length, v.Places front place)
        (fun _ => False) r) := by
  refine Stays.foldlM (fun pair member r' before => ?_) (.refl r)
  obtain ⟨v, operand⟩ := pair
  have given : v ∈ values.take operands.length := by
    rw [List.zip_eq_zip_take_min] at member
    exact List.take_subset_take_left values (Nat.min_le_right ..) (List.of_mem_zip member).1
  refine (d.ensures_assignValue v front operand).mono fun r'' changes => before.trans ?_
  exact changes.mono (fun place there => ⟨v, given, there⟩) fun _ => id

/-! ### The last element of a list -/

theorem ensures_updateLast (field : Field) (key : String)
    {update : Record → Update Record} {inner : Record → Place → Prop}
    (each : ∀ entry, (update entry).Ensures (Changes (inner entry) (fun _ => True) entry)) :
    (d.updateLast scope field key r update).Ensures
      (Changes (fun place => ∃ inside, place = .element key ((r.list key).length - 1) inside ∧
        ∀ entry ∈ (r.list key).getLast?, inner entry inside) (· = key) r) := by
  unfold updateLast ensureEntry
  by_cases empty : r.list key = []
  · -- every place of the element that is made is targeted
    have none : r.lastEntry? key = .none := by rw [Record.lastEntry?, empty]; rfl
    rw [none]
    simp only [Option.isSome_none, Bool.false_eq_true, if_false, bind_assoc]
    refine (Update.ensures_any _).andThen fun fresh => ?_
    rw [pure_bind]
    have pushed : (r.pushEntry key fresh).list key = [fresh] := by
      simp [Record.pushEntry, Record.appendEntries, empty]
    have found : Record.lastEntry? (r.pushEntry key fresh) key = some fresh := by
      rw [Record.lastEntry?, pushed]
      rfl
    rw [found]
    refine (Update.ensures_any _).andThen fun entry => .pure ?_
    rw [Record.modifyLast_eq (by simp [pushed]), pushed]
    have covered : (r.pushEntry key fresh).setList key ([fresh].dropLast ++ [entry]) =
        r.setList key [entry] := by simp [Record.pushEntry, Record.appendEntries]
    rw [covered]
    refine .setList rfl (by simp [empty]) fun index inside untouched => ?_
    cases index with
    | zero => exact absurd ⟨inside, by simp [empty], by simp [empty]⟩ untouched
    | succ index => simp [empty]
  · have some : (r.lastEntry? key).isSome := by simp [Record.lastEntry?, empty]
    obtain ⟨init, entry, split⟩ := (List.eq_nil_or_concat (r.list key)).resolve_left empty
    rw [List.concat_eq_append] at split
    rw [if_pos some, pure_bind]
    have found : r.lastEntry? key = .some entry := by simp [Record.lastEntry?, split]
    rw [found]
    refine (each entry).bind fun entry' changes => .pure ?_
    rw [Record.modifyLast_eq empty, split, List.dropLast_concat]
    refine .last rfl split changes fun inside touched => ⟨inside, by simp, fun e last => ?_⟩
    obtain rfl : e = entry := by simpa [split] using last.symm
    exact touched

/-! ### Assignments -/

/-- The places that an assignment of `count` operands along a path targets in a record, where keys
start with `front`. -/
inductive Targets (count : Nat) : TypeDef → Record → String → List String → Place → Prop
  /-- The values of a field, as many as there are operands. -/
  | values {d : TypeDef} {r : Record} {front : String} {path : List String} {target : Target}
    {v : FieldValue} {place : Place} (found : d.targetOf? path = some target)
    (ends : target.inner = []) (whole : target.value = none)
    (single : target.field.isRepeatable = false) (given : v ∈ target.field.values.take count)
    (there : v.Places front place) : Targets count d r front path place
  /-- All of a new element. -/
  | appended {d : TypeDef} {r : Record} {front : String} {path : List String} {target : Target}
    {inside : Place} (found : d.targetOf? path = some target) (ends : target.inner = [])
    (whole : target.value = none) (repeats : target.field.isRepeatable = true) :
    Targets count d r front path (.element (front ++ target.field.name)
      (r.list (front ++ target.field.name)).length inside)
  /-- One value. -/
  | value {d : TypeDef} {r : Record} {front : String} {path : List String} {target : Target}
    {v : FieldValue} {place : Place} (found : d.targetOf? path = some target)
    (ends : target.inner = []) (value : target.value = some v)
    (single : target.field.isRepeatable = false) (there : v.Places front place) :
    Targets count d r front path place
  /-- One value in the last element of a list, or all of that element if it has to be made. -/
  | valueInLast {d : TypeDef} {r : Record} {front : String} {path : List String} {target : Target}
    {v : FieldValue} {inside : Place} (found : d.targetOf? path = some target)
    (ends : target.inner = []) (value : target.value = some v)
    (repeats : target.field.isRepeatable = true)
    (there : ∀ entry ∈ (r.list (front ++ target.field.name)).getLast?,
      v.Places "" inside) :
    Targets count d r front path (.element (front ++ target.field.name)
      ((r.list (front ++ target.field.name)).length - 1) inside)
  /-- What is targeted in a nested type. -/
  | nested {d t : TypeDef} {r : Record} {front : String} {path : List String} {target : Target}
    {v : FieldValue} {place : Place} (found : d.targetOf? path = some target)
    (goesOn : target.inner ≠ []) (value : target.container? = some v)
    (inner : d.nested? v.name = some t) (single : target.field.isRepeatable = false)
    (there : Targets count t r (front ++ v.name ++ ".") target.inner place) :
    Targets count d r front path place
  /-- What is targeted in a nested type in the last element of a list, or all of that element. -/
  | nestedInLast {d t : TypeDef} {r : Record} {front : String} {path : List String}
    {target : Target} {v : FieldValue} {inside : Place} (found : d.targetOf? path = some target)
    (goesOn : target.inner ≠ []) (value : target.container? = some v)
    (inner : d.nested? v.name = some t) (repeats : target.field.isRepeatable = true)
    (there : ∀ entry ∈ (r.list (front ++ target.field.name)).getLast?,
      Targets count t entry (v.name ++ ".") target.inner inside) :
    Targets count d r front path (.element (front ++ target.field.name)
      ((r.list (front ++ target.field.name)).length - 1) inside)

/-- The key of the list that an assignment along a path changes, if there is one. -/
def listOf? (d : TypeDef) (front : String) (path : List String) : Option String :=
  match h : d.targetOf? path with
  | none => none
  | some target =>
    if target.field.isRepeatable then some (front ++ target.field.name)
    else if target.inner.isEmpty then none
    else do
      have : target.inner.length < path.length := length_inner_lt h
      let v ← target.container?
      let nested ← d.nested? v.name
      nested.listOf? (front ++ v.name ++ ".") target.inner
termination_by path.length

theorem listOf?_of_repeats {d : TypeDef} {path : List String} {target : Target}
    (found : d.targetOf? path = some target) (repeats : target.field.isRepeatable = true)
    (front : String) : d.listOf? front path = some (front ++ target.field.name) := by
  rw [listOf?]
  split
  · simp_all
  · rename_i target' found'
    obtain rfl : target' = target := by simpa [found'] using found
    rw [if_pos repeats]

theorem listOf?_of_goesOn {d t : TypeDef} {path : List String} {target : Target} {v : FieldValue}
    (found : d.targetOf? path = some target) (single : target.field.isRepeatable = false)
    (goesOn : target.inner ≠ []) (value : target.container? = some v)
    (nested : d.nested? v.name = some t) (front : String) :
    d.listOf? front path = t.listOf? (front ++ v.name ++ ".") target.inner := by
  rw [listOf?]
  split
  · simp_all
  · rename_i target' found'
    obtain rfl : target' = target := by simpa [found'] using found
    simp [single, goesOn, value, nested]

theorem ensures_assignField (field : Field) (front : String) (operands : List Operand) :
    (d.assignField scope front r field operands).Ensures
      (Changes (field.Places operands.length r front)
        (fun key => field.isRepeatable = true ∧ key = front ++ field.name) r) := by
  have body : (if field.isRepeatable = true then do
        let entry ← d.defaultEntry scope field
        let entry ← d.assignValues scope "" entry field.values operands
        return r.pushEntry (front ++ field.name) entry
      else d.assignValues scope front r field.values operands : Update Record).Ensures
      (Changes (field.Places operands.length r front)
        (fun key => field.isRepeatable = true ∧ key = front ++ field.name) r) := by
    refine .ite (fun repeats => ?_) fun single => ?_
    · refine (Update.ensures_any _).andThen fun _ => (Update.ensures_any _).andThen fun entry => .pure ?_
      refine .setList ⟨repeats, rfl⟩ (by simp) fun index inside untouched => ?_
      have other : index ≠ (r.list (front ++ field.name)).length := by
        rintro rfl
        exact untouched (by rw [Field.Places, if_pos repeats]; exact ⟨inside, rfl⟩)
      rw [List.getElem?_append]
      split
      · rfl
      · rename_i behind
        rw [List.getElem?_eq_none (by simp; omega), List.getElem?_eq_none (by omega)]
    · refine (d.ensures_assignValues front field.values operands).mono fun r' changes => ?_
      exact changes.mono (fun place there => by rwa [Field.Places, if_neg single]) fun _ => False.elim
  unfold assignField
  dsimp only
  split
  · exact Stays.andThen (.throw _) fun _ => body
  · exact body

/-- An assignment changes what it targets, and no list but one. -/
theorem ensures_assign (scope : ScopeId) (origin : Lexeme) (operands : List Operand) (d : TypeDef)
    (r : Record) (front : String) (path : List String) :
    (d.assign scope origin operands r front path).Ensures
      (Changes (Targets operands.length d r front path) (fun key => d.listOf? front path = some key) r) := by
  rw [assign]
  split
  · exact .throw _
  · rename_i target found
    -- the only list that an assignment can change is that of the field it goes to first
    have listed (repeats : target.field.isRepeatable = true) (key : String)
        (same : key = front ++ target.field.name) : d.listOf? front path = some key := by
      rw [same, listOf?_of_repeats found repeats]
    refine (Update.ensures_any _).andThen fun _ => .ite (fun ended => ?_) fun going => ?_
    · have ends : target.inner = [] := by simpa using ended
      cases value : target.value with
      | some v =>
        refine (Update.ensures_any _).andThen fun operand => .ite (fun repeats => ?_) fun single => ?_
        · refine (d.ensures_updateLast target.field _ fun entry =>
            (d.ensures_assignValue v "" operand).mono fun _ changes =>
              changes.mono (fun _ => id) fun _ => False.elim).mono fun r' changes => ?_
          refine changes.mono ?_ (listed repeats)
          rintro _ ⟨inside, rfl, there⟩
          exact .valueInLast found ends value repeats there
        · refine (d.ensures_assignValue v front operand).mono fun r' changes => ?_
          exact changes.mono (fun place there => .value found ends value (by simpa using single) there)
            fun _ => False.elim
      | none =>
        refine (d.ensures_assignField target.field front operands).mono fun r' changes => ?_
        refine changes.mono (fun place there => ?_) fun key same => listed same.1 key same.2
        unfold Field.Places at there
        split at there
        · rename_i repeats
          obtain ⟨inside, rfl⟩ := there
          exact .appended found ends value repeats
        · rename_i single
          obtain ⟨v, given, there⟩ := there
          exact .values found ends value (by simpa using single) given there
    · have goesOn : target.inner ≠ [] := by simpa using going
      have shorter : target.inner.length < path.length := length_inner_lt found
      split
      · rename_i v value
        split
        · rename_i t nested
          refine .ite (fun repeats => ?_) fun single => ?_
          · refine (d.ensures_updateLast target.field _ fun entry =>
              (ensures_assign scope origin operands t entry (v.name ++ ".") target.inner).mono
                fun _ changes => changes.mono (fun _ => id) fun _ _ => trivial).mono fun r' changes => ?_
            refine changes.mono ?_ (listed repeats)
            rintro _ ⟨inside, rfl, there⟩
            exact .nestedInLast found goesOn value nested repeats there
          · have single : target.field.isRepeatable = false := by simpa using single
            have inner := ensures_assign scope origin operands t r (front ++ v.name ++ ".") target.inner
            rw [← listOf?_of_goesOn found single goesOn value nested] at inner
            exact inner.mono fun r' changes => changes.mono
              (fun place there => .nested found goesOn value nested single there) fun _ => id
        · exact .throw _
      · exact .throw _
termination_by path.length

end TypeDef

end Rsrc
