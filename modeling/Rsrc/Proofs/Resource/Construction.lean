import Mathlib.Data.String.Basic
import Rsrc.Proofs.Resource.Settled

/-!
# Construction in place

A value of a nested type can be assigned by a call of one of the type's constructors. What the
constructor binds is stored under the key of the value and the bound name. Where that name is a path
of labels, this is what assignments of the bound values to the longer paths leave as well
(`assign_construction`).
-/

namespace Rsrc

/-! ### Points in names -/

section Points

open String

/-- Splitting takes up the characters `m`, which stand behind the last point, and goes on with `r`. -/
theorem splitOnAux_point (l m r : List Char) (acc : List String) :
    splitOnAux (ofList (l ++ m ++ r)) "." ⟨utf8Len l⟩ ⟨utf8Len l + utf8Len m⟩ 0 acc =
      acc.reverse ++ (List.splitOnPPrepend (· == '.') r m.reverse).map ofList := by
  have point : Pos.Raw.get "." 0 = '.' := rfl
  have next : Pos.Raw.next "." 0 = ⟨1⟩ := rfl
  have ended : Pos.Raw.atEnd "." ⟨1⟩ = true := rfl
  induction r generalizing l m acc with
  | nil =>
    have ended := (atEnd_of_valid (l ++ m) []).2 rfl
    have taken := extract_of_valid l m []
    rw [utf8Len_append] at ended
    rw [splitOnAux, if_pos ended, taken]
    simp
  | cons c r ih =>
    have more : ¬ Pos.Raw.atEnd (ofList (l ++ m ++ c :: r)) ⟨utf8Len l + utf8Len m⟩ := by
      rw [← utf8Len_append, atEnd_of_valid]
      simp
    have char : Pos.Raw.get (ofList (l ++ m ++ c :: r)) ⟨utf8Len l + utf8Len m⟩ = c := by
      rw [← utf8Len_append, get_of_valid]
      rfl
    have after : Pos.Raw.next (ofList (l ++ m ++ c :: r)) ⟨utf8Len l + utf8Len m⟩ =
        ⟨utf8Len l + utf8Len m + c.utf8Size⟩ := by
      rw [← utf8Len_append, next_of_valid]
    rw [splitOnAux, if_neg more, char, point]
    by_cases same : c = '.'
    · -- the characters so far make a segment, and the next one starts behind the point
      subst same
      have size : Char.utf8Size '.' = 1 := rfl
      have back : (⟨utf8Len l + utf8Len m + 1⟩ : Pos.Raw).unoffsetBy ⟨1⟩ =
          ⟨utf8Len l + utf8Len m⟩ := rfl
      have taken := extract_of_valid l m ('.' :: r)
      have rest := ih (l ++ m ++ ['.']) [] (ofList m :: acc)
      rw [if_pos (beq_self_eq_true _)]
      simp only [after, next, ended, size, back, taken, if_true]
      simp only [utf8Len_append, utf8Len_cons, utf8Len_nil, List.append_nil, size, Nat.zero_add,
        Nat.add_zero, List.append_assoc, List.cons_append, List.nil_append, ← Nat.add_assoc]
        at rest ⊢
      rw [rest]
      simp [List.splitOnPPrepend_cons_eq_if]
    · have other : (c == '.') = false := by simpa using same
      have back : (⟨utf8Len l + utf8Len m⟩ : Pos.Raw).unoffsetBy 0 = ⟨utf8Len l + utf8Len m⟩ := rfl
      have rest := ih l (m ++ [c]) acc
      rw [other, if_neg (by decide), back, after]
      simp only [utf8Len_append, utf8Len_cons, utf8Len_nil, Nat.zero_add, List.append_assoc,
        List.cons_append, List.nil_append, ← Nat.add_assoc] at rest ⊢
      rw [rest]
      simp [List.splitOnPPrepend_cons_eq_if, other]

theorem splitOn_point (text : String) : text.splitOn "." = (text.toList.splitOn '.').map ofList := by
  have run := splitOnAux_point [] [] text.toList []
  have start : text.splitOn "." = splitOnAux text "." 0 0 0 [] := rfl
  rw [start, List.splitOn]
  simpa using run

theorem intercalate_splitOn_point (text : String) : ".".intercalate (text.splitOn ".") = text := by
  apply String.toList_injective
  rw [splitOn_point, String.toList_intercalate, List.map_map]
  simp [Function.comp_def]

end Points

/-! ### The last element of a list -/

theorem Dict.insert_insert {α : Type} (d : Dict α) (key : String) (value value' : α) :
    (d.insert key value).insert key value' = d.insert key value' := by
  obtain ⟨entries⟩ := d
  unfold insert
  congr 1
  induction entries with
  | nil => simp [put]
  | cons head rest ih =>
    obtain ⟨k, v⟩ := head
    simp only [put]
    split
    · simp [put]
    · split
      · simp [put]
      · simp [put, *]

namespace Record

variable {key : String} {r : Record}

/-- The elements of a list, or a fresh one if there are none. -/
def someElements (fresh : Except Failure Record) (key : String) (r : Record) :
    Except Failure (List Record) :=
  match r.list key with
  | [] => fresh.map fun entry => [entry]
  | elements => .ok elements

/-- Changes the last element of a list, which is first made from `fresh` if there is none. -/
def focusLast (fresh : Except Failure Record) (key : String)
    (change : Record → Except Failure Record) (r : Record) : Except Failure Record := do
  let elements ← r.someElements fresh key
  let entry ← change (elements.getLastD {})
  return r.setList key (elements.dropLast ++ [entry])

@[simp] theorem list_setList (elements : List Record) :
    (r.setList key elements).list key = elements := by simp [list, setList]

@[simp] theorem setList_setList (elements elements' : List Record) :
    (r.setList key elements).setList key elements' = r.setList key elements' := by
  simp [setList, Dict.insert_insert]

theorem someElements_of_ne_nil (some : r.list key ≠ []) (fresh : Except Failure Record) :
    r.someElements fresh key = .ok (r.list key) := by
  unfold someElements
  split
  · exact absurd ‹_› some
  · rfl

/-- One change after another is one change of both. -/
theorem focusLast_bind (fresh : Except Failure Record) (key : String)
    (first second : Record → Except Failure Record) (r : Record) :
    focusLast fresh key first r >>= focusLast fresh key second =
      focusLast fresh key (fun entry => first entry >>= second) r := by
  have again : ∀ elements entry,
      focusLast fresh key second (r.setList key (elements ++ [entry])) = (do
        let entry ← second entry
        return r.setList key (elements ++ [entry])) := by
    intro elements entry
    have some : (r.setList key (elements ++ [entry])).list key ≠ [] := by simp
    rw [focusLast, someElements_of_ne_nil some]
    simp [bind, Except.bind]
  unfold focusLast at again ⊢
  rw [bind_assoc]
  refine bind_congr fun elements => ?_
  rw [bind_assoc, bind_assoc]
  refine bind_congr fun entry => ?_
  rw [pure_bind]
  exact again ..

theorem modifyLast_eq (some : r.list key ≠ []) (entry : Record) :
    r.modifyLast key (fun _ => entry) = r.setList key ((r.list key).dropLast ++ [entry]) := by
  unfold modifyLast list at *
  cases found : r.lists.get? key with
  | none => simp [found] at some
  | some elements =>
    simp only [found, Option.getD_some] at some ⊢
    congr 1
    have split := List.dropLast_append_getLast some
    rw [← split]
    simp [List.modify_eq_take_cons_drop]

end Record

/-- The last entry of a list that has one is changed in place. -/
theorem TypeDef.yields_lastEntry {scopes : Scopes} {update : Record → Update Record}
    {change : Record → Except Failure Record}
    (inner : ∀ entry, Update.Yields scopes (update entry) (change entry)) {key : String} {r : Record}
    (filled : r.list key ≠ []) :
    Update.Yields scopes (match r.lastEntry? key with
      | none => pure r
      | some entry => do
        let entry ← update entry
        return r.modifyLast key fun _ => entry)
      (do
        let entry ← change ((r.list key).getLastD {})
        return r.setList key ((r.list key).dropLast ++ [entry])) := by
  have found : r.lastEntry? key = some ((r.list key).getLastD {}) := by
    rw [Record.lastEntry?, List.getLast?_eq_some_getLast filled]
    simp [List.getLastD_eq_getLast?, List.getLast?_eq_some_getLast filled]
  rw [found]
  refine (inner _).bind fun entry => ?_
  rw [Record.modifyLast_eq filled]
  exact .pure _

theorem TypeDef.yields_updateLast {scopes : Scopes} {d : TypeDef} {scope : ScopeId} {field : Field}
    {fresh : Except Failure Record} {update : Record → Update Record}
    {change : Record → Except Failure Record}
    (entry : Update.Yields scopes (d.defaultEntry scope field) fresh)
    (inner : ∀ entry, Update.Yields scopes (update entry) (change entry)) (key : String) (r : Record) :
    Update.Yields scopes (d.updateLast scope field key r update) (r.focusLast fresh key change) := by
  -- the list is the one of `r`, or the fresh element alone
  unfold updateLast ensureEntry Record.focusLast
  by_cases empty : r.list key = []
  · have none : r.lastEntry? key = .none := by rw [Record.lastEntry?, empty]; rfl
    have made : r.someElements fresh key = fresh >>= fun entry => .ok [entry] := by
      rw [Record.someElements, empty]
      cases fresh <;> rfl
    rw [none, made, bind_assoc]
    simp only [Option.isSome_none, Bool.false_eq_true, if_false, bind_assoc]
    refine entry.bind fun e => ?_
    have pushed : (r.pushEntry key e).list key = [e] := by
      simp [Record.pushEntry, Record.appendEntries, empty]
    have covered : ∀ elements, (r.pushEntry key e).setList key elements = r.setList key elements := by
      simp [Record.pushEntry, Record.appendEntries]
    have filled : (r.pushEntry key e).list key ≠ [] := by simp [pushed]
    have run := yields_lastEntry inner filled
    rw [pushed] at run
    simp only [covered] at run
    exact run
  · have some : (r.lastEntry? key).isSome := by simp [Record.lastEntry?, empty]
    rw [if_pos some, Record.someElements_of_ne_nil empty]
    exact yields_lastEntry inner empty

/-! ### Operands that stand for a value -/

/-- Wherever it is evaluated, the operand is worth the value: it reads no names and calls nothing. -/
structure Operand.Denotes (operand : Operand) (value : Value) : Prop where
  nameless : operand.expr.names = []
  uncalled : operand.expr.called? = none
  evaluates : ∀ (scope : ScopeId) (s : Scopes), operand.expr.eval scope s = .ok value s

theorem Operand.denotes_literal (value : Value) (origin : Lexeme) :
    Operand.Denotes ⟨.literal value, origin⟩ value := ⟨rfl, rfl, fun _ _ => rfl⟩

namespace TypeDef

variable {d t : TypeDef} {name : String} {target : Target} {v : FieldValue} {path : List String}
  {scope : ScopeId}

/-! ### Where paths lead -/

/-- A path leads to a value of the type, or of a type that is nested in it. The flag tells if a list
is passed on the way. -/
inductive Leads : TypeDef → List String → TypeDef → Target → Bool → Prop
  | here {d : TypeDef} {path : List String} {target : Target} (found : d.targetOf? path = some target)
      (ends : target.inner = []) (single : target.field.isRepeatable → target.value.isSome) :
      Leads d path d target target.field.isRepeatable
  | into {d t holder : TypeDef} {path : List String} {via target : Target} {v : FieldValue}
      {listed : Bool} (found : d.targetOf? path = some via) (goesOn : via.inner ≠ [])
      (value : via.container? = some v) (nested : d.nested? v.name = some t)
      (rest : Leads t via.inner holder target listed) :
      Leads d path holder target (via.field.isRepeatable || listed)

/-- Segments can follow a path that ends at the target: they do not name a value of its field. -/
def Target.IsClearOf (target : Target) (path : List String) : Prop :=
  target.value = none → ∀ next ∈ path.head?, target.field.part? next = none

/-- A segment that does not name a value of the field goes on into the nested type. -/
theorem resolve?_of_isClearOf {first : String} {tail : List String}
    (start : d.target? first = some target) (clear : target.IsClearOf (name :: tail))
    (value : target.container? = some v) (nested : d.nested? v.name = some t)
    (onward : (t.resolve? name tail).isSome) :
    d.resolve? first (name :: tail) =
      some { field := target.field, value := some v, inner := name :: tail } := by
  obtain ⟨_, found⟩ := Option.isSome_iff_exists.1 onward
  unfold resolve?
  rw [start]
  cases held : target.value with
  | some w => simp [held, value, nested, found]
  | none => simp [held, value, nested, found, clear held name rfl]

/-- A segment that names a value of the field is followed by segments of the type nested there. -/
theorem resolve?_of_part {first next : String} {more : List String}
    (start : d.target? first = some target) (whole : target.value = none)
    (part : target.field.part? name = some v) (nested : d.nested? v.name = some t)
    (onward : (t.resolve? next more).isSome) :
    d.resolve? first (name :: next :: more) =
      some { field := target.field, value := some v, inner := next :: more } := by
  obtain ⟨_, found⟩ := Option.isSome_iff_exists.1 onward
  unfold resolve?
  simp [start, whole, part, nested, found]

/-- What follows a path is left to the type that is nested where the path ends. -/
theorem targetOf?_append {path' : List String} (found : d.targetOf? path = some target)
    (value : target.container? = some v) (nested : d.nested? v.name = some t) (goesOn : path' ≠ [])
    (onward : (t.targetOf? (target.inner ++ path')).isSome)
    (clear : target.inner = [] → target.IsClearOf path') :
    d.targetOf? (path ++ path') =
      some { field := target.field, value := some v, inner := target.inner ++ path' } := by
  obtain ⟨next, more, rfl⟩ := List.exists_cons_of_ne_nil goesOn
  cases path with
  | nil => cases found
  | cons first rest =>
    cases rest with
    | nil =>
      have inner : target.inner = [] := inner_of_target? found
      rw [inner] at onward ⊢
      exact resolve?_of_isClearOf found (clear inner) value nested onward
    | cons name tail =>
      simp only [targetOf?, resolve?, Option.bind_eq_bind, Option.bind_eq_some_iff,
        Option.pure_def] at found
      obtain ⟨start, known, found⟩ := found
      split at found
      · rename_i w whole part
        cases tail with
        | nil =>
          cases found
          cases value
          have longer := resolve?_of_part known whole part nested onward
          exact longer
        | cons next' more' =>
          simp only [Option.bind_eq_some_iff, Option.some.injEq] at found
          obtain ⟨_, _, _, _, rfl⟩ := found
          cases value
          have longer := resolve?_of_part known whole part nested onward
          exact longer
      · rename_i held
        simp only [Option.bind_eq_some_iff, Option.some.injEq] at found
        obtain ⟨w, container, _, _, _, _, rfl⟩ := found
        cases value
        have free : start.IsClearOf (name :: (tail ++ next :: more)) := by
          intro whole _ same
          cases same
          exact Option.eq_none_iff_forall_ne_some.2 fun w part => held w whole part
        have longer := resolve?_of_isClearOf known free container nested onward
        exact longer

/-! ### Assignments along a path -/

section Assignments

variable {scope : ScopeId} {origin : Lexeme} {d t : TypeDef} {path : List String} {target : Target}
  {v : FieldValue} {r : Record} {front : String}

/-- Makes a change where the values of a field are: in the record, or in the last element of the
field's list. The change is told what the keys there start with. -/
def changeAt (d : TypeDef) (scope : ScopeId) (field : Field) (front : String)
    (change : String → Record → Update Record) (r : Record) : Update Record :=
  if field.isRepeatable then d.updateLast scope field (front ++ field.name) r (change "")
  else change front r

theorem assign_of_ends (found : d.targetOf? path = some target) (ends : target.inner = [])
    (single : target.field.isRepeatable → target.value.isSome) (value : target.container? = some v)
    (operand : Operand) :
    d.assign scope origin [operand] r front path = (do
      warnDeprecated target.field origin
      d.changeAt scope target.field front (fun front r => d.assignValue scope v front r operand) r) := by
  rw [assign]
  split
  · simp_all
  · rename_i target' found'
    obtain rfl : target' = target := by simpa [found'] using found
    refine bind_congr fun _ => ?_
    rw [if_pos (by simp [ends])]
    cases held : target'.value with
    | some w =>
      obtain rfl : w = v := by simpa [Target.container?, held] using value
      rfl
    | none =>
      -- the whole field, which has a single value
      have plain : target'.field.isRepeatable = false := by simpa [held] using single
      have values : target'.field.values = [v] := by
        unfold Target.container? at value
        rw [held] at value
        split at value
        · contradiction
        · cases value
          assumption
        · cases value
      simp [assignField, assignValues, changeAt, plain, values]

theorem assign_of_goesOn (found : d.targetOf? path = some target) (goesOn : target.inner ≠ [])
    (value : target.container? = some v) (nested : d.nested? v.name = some t)
    (operands : List Operand) :
    d.assign scope origin operands r front path = (do
      warnDeprecated target.field origin
      d.changeAt scope target.field front
        (fun front r => t.assign scope origin operands r (front ++ v.name ++ ".") target.inner) r) := by
  rw [assign]
  split
  · simp_all
  · rename_i target' found'
    obtain rfl : target' = target := by simpa [found'] using found
    refine bind_congr fun _ => ?_
    rw [if_neg (by simpa using goesOn)]
    simp [value, nested, changeAt]

end Assignments

/-- A warning does not change an answer. -/
theorem yields_warned {scopes : Scopes} {α : Type} {u : Update α} {a : Except Failure α}
    {field : Field} {origin : Lexeme} (run : Update.Yields scopes u a) :
    Update.Yields scopes (do warnDeprecated field origin; u) a := by
  have warned : Update.Yields scopes (warnDeprecated field origin) (.ok ()) := by
    unfold warnDeprecated
    split
    · exact fun s same => ⟨rfl, same⟩
    · exact .pure ()
  exact Update.Gives.bind warned run

/-- Changes of a record that are changes of one part of it. The flag tells if the part is in a list,
and may have to be made. -/
structure Focus (listed : Bool)
    (focus : (Record → Except Failure Record) → Record → Except Failure Record) : Prop where
  fuse : ∀ first second r, focus first r >>= focus second = focus (fun r => first r >>= second) r
  idle : listed = false → ∀ r, focus pure r = pure r

namespace Focus

theorem whole : Focus false fun change => change := ⟨fun _ _ _ => rfl, fun _ _ => rfl⟩

theorem last (fresh : Except Failure Record) (key : String) :
    Focus true (Record.focusLast fresh key) :=
  ⟨Record.focusLast_bind fresh key, nofun⟩

theorem comp {outer inner : (Record → Except Failure Record) → Record → Except Failure Record}
    {listed listed' : Bool} (h : Focus listed outer) (h' : Focus listed' inner) :
    Focus (listed || listed') fun change => outer (inner change) where
  fuse first second r := by
    rw [h.fuse]
    exact congrArg (outer · r) (funext fun r => h'.fuse first second r)
  idle none r := by
    obtain ⟨outside, inside⟩ := Bool.or_eq_false_iff.1 none
    rw [funext (h'.idle inside), h.idle outside]

/-- Changes made one after another through a focus are one change through it. -/
theorem foldlM {α : Type} {listed : Bool}
    {focus : (Record → Except Failure Record) → Record → Except Failure Record}
    (h : Focus listed focus) {items : List α} (some : items ≠ [] ∨ listed = false)
    (change : Record → α → Except Failure Record) (r : Record) :
    items.foldlM (fun r a => focus (change · a) r) r = focus (fun r => items.foldlM change r) r := by
  induction items generalizing r with
  | nil => exact (h.idle (some.resolve_left (· rfl)) r).symm
  | cons a items ih =>
    simp only [List.foldlM_cons]
    cases items with
    | nil => simp
    | cons b items =>
      rw [← h.fuse]
      exact bind_congr fun r => ih (.inl (List.cons_ne_nil _ _)) r

end Focus

section Focusing

variable {scopes : Scopes} (plain : scopes.Plain) (scope : ScopeId) (origin : Lexeme)
include plain

/-- Where the values of a field are is a focus, and what their keys start with there. -/
theorem exists_focus_changeAt (d : TypeDef) (field : Field) (front : String) :
    ∃ focus front', Focus field.isRepeatable focus ∧ ∀ change change',
      (∀ r, Update.Yields scopes (change front' r) (change' r)) →
      ∀ r, Update.Yields scopes (d.changeAt scope field front change r) (focus change' r) := by
  obtain ⟨fresh, made⟩ := (d.scoped_defaultEntry scope field).settled plain
  cases repeatable : field.isRepeatable with
  | true =>
    refine ⟨_, "", .last fresh (front ++ field.name), fun change change' inner r => ?_⟩
    rw [changeAt, if_pos repeatable]
    exact yields_updateLast made inner _ r
  | false =>
    refine ⟨_, front, .whole, fun change change' inner r => ?_⟩
    rw [changeAt, if_neg (by simp [repeatable])]
    exact inner r

/-- Assignments to a value that a path leads to, and to what follows it there, are changes through
one focus. -/
theorem Leads.exists_focus {d holder : TypeDef} {path : List String} {target : Target}
    {listed : Bool} {v : FieldValue} (leads : Leads d path holder target listed)
    (value : target.container? = some v) (front : String) :
    ∃ focus front', Focus listed focus ∧
      (∀ operand change,
        (∀ r, Update.Yields scopes (holder.assignValue scope v front' r operand) (change r)) →
        ∀ r, Update.Yields scopes (d.assign scope origin [operand] r front path) (focus change r)) ∧
      ∀ t path' operands change, holder.nested? v.name = some t → (t.targetOf? path').isSome →
        target.IsClearOf path' →
        (∀ r, Update.Yields scopes
          (t.assign scope origin operands r (front' ++ v.name ++ ".") path') (change r)) →
        (d.targetOf? (path ++ path')).isSome ∧
        ∀ r, Update.Yields scopes (d.assign scope origin operands r front (path ++ path'))
          (focus change r) := by
  have ne_nil : ∀ {t : TypeDef} {path' : List String}, (t.targetOf? path').isSome → path' ≠ [] := by
    rintro t path' some rfl
    cases some
  induction leads generalizing front with
  | @here d path target found ends single =>
    obtain ⟨focus, front', isFocus, moved⟩ := exists_focus_changeAt plain scope d target.field front
    refine ⟨focus, front', isFocus, fun operand change inner r => ?_, ?_⟩
    · rw [assign_of_ends found ends single value]
      refine yields_warned ?_
      exact moved _ _ inner r
    · intro t path' operands change nested onward clear inner
      have found' := targetOf?_append found value nested (ne_nil onward) (by rwa [ends]) fun _ => clear
      rw [ends] at found'
      refine ⟨by simp [found'], fun r => ?_⟩
      rw [assign_of_goesOn found' (ne_nil onward) rfl nested]
      refine yields_warned ?_
      exact moved _ _ inner r
  | @into d t holder path via target w listed found goesOn passed nested rest ih =>
    obtain ⟨outer, front₁, isOuter, moved⟩ := exists_focus_changeAt plain scope d via.field front
    obtain ⟨inner, front₂, isInner, atValue, behind⟩ := ih value (front₁ ++ w.name ++ ".")
    refine ⟨_, front₂, isOuter.comp isInner, fun operand change values r => ?_, ?_⟩
    · rw [assign_of_goesOn found goesOn passed nested]
      refine yields_warned ?_
      exact moved _ _ (atValue operand change values) r
    · intro t' path' operands change nested' onward clear values
      obtain ⟨onward', values'⟩ := behind t' path' operands change nested' onward clear values
      have found' := targetOf?_append found passed nested (ne_nil onward) onward' (absurd · goesOn)
      refine ⟨by simp [found'], fun r => ?_⟩
      rw [assign_of_goesOn found' (by simp [goesOn]) rfl nested]
      refine yields_warned ?_
      exact moved _ _ values' r

end Focusing

/-! ### Values bound by a constructor -/

/-- What is assigned does not depend on how the value is written. -/
theorem assignValue_of_denotes {operand : Operand} {value : Value} (h : operand.Denotes value)
    (front : String) (r : Record) :
    d.assignValue scope v front r operand = (do
      let value ← Update.inScope scope fun inner => do
        Update.bindSymbols inner v.symbols
        pure value
      return r.set (front ++ v.name) (v.coerce value)) := by
  have unused : v.parts.filter (·.isUsedBy operand.expr) = [] := by
    simp [FieldValue.isUsedBy, h.nameless]
  have evaluated (inner : ScopeId) :
      Update.evaluate operand.origin (operand.expr.eval inner) = pure value := by
    funext s
    rw [Update.evaluate, h.evaluates]
    rfl
  unfold assignValue assignExpr
  rw [unused]
  simp only [List.isEmpty_nil, Bool.or_true, if_true, evaluated]
  split
  · rename_i call
    have none := h.uncalled
    rw [call] at none
    cases none
  · rfl


/-- In the session, the symbols of a value can be bound for the expressions assigned to it. -/
def BindsSymbols (s : Session) (scope : ScopeId) (v : FieldValue) : Prop :=
  answer (Update.inScope scope (fun inner => Update.bindSymbols inner v.symbols) s) = .ok ()

theorem inScope_bind_pure {α : Type} (g : ScopeId → Update Unit) (a : α) :
    (Update.inScope scope fun inner => do g inner; pure a) = (do Update.inScope scope g; pure a) := by
  funext s
  simp only [Update.inScope, bind, EStateM.bind]
  cases g s.scopes.next { s with scopes := s.scopes.push .shadow scope } <;> rfl

/-- The path leads, outside lists, to the value, which is kept under the key. -/
inductive LeadsTo (key : String) (v : FieldValue) : TypeDef → String → List String → Prop
  | value {d : TypeDef} {front : String} {path : List String} {target : Target}
      (found : d.targetOf? path = some target) (ends : target.inner = [])
      (single : target.field.isRepeatable = false) (value : target.container? = some v)
      (named : front ++ v.name = key) : LeadsTo key v d front path
  | nested {d t : TypeDef} {front : String} {path : List String} {target : Target} {w : FieldValue}
      (found : d.targetOf? path = some target) (goesOn : target.inner ≠ [])
      (single : target.field.isRepeatable = false) (value : target.container? = some w)
      (nested : d.nested? w.name = some t)
      (inner : LeadsTo key v t (front ++ w.name ++ ".") target.inner) : LeadsTo key v d front path

/-- What is assigned along such a path is kept under the key, if the symbols can be bound. -/
theorem LeadsTo.yields_assign {scopes : Scopes} {key front : String} (h : LeadsTo key v d front path)
    {bound : Except Failure Unit}
    (binds : Update.Yields scopes
      (Update.inScope scope fun inner => Update.bindSymbols inner v.symbols) bound)
    {operand : Operand} {value : Value} (denotes : operand.Denotes value) (origin : Lexeme)
    (r : Record) : Update.Yields scopes (d.assign scope origin [operand] r front path)
      (bound >>= fun _ => .ok (r.set key (v.coerce value))) := by
  induction h with
  | @value d front path target found ends single contained named =>
    rw [assign_of_ends found ends (by simp [single]) contained]
    refine yields_warned ?_
    rw [changeAt, if_neg (by simp [single]), assignValue_of_denotes denotes, named, inScope_bind_pure,
      bind_assoc]
    exact binds.bind fun _ => .pure _
  | nested found goesOn single contained nested inner ih =>
    rw [assign_of_goesOn found goesOn contained nested]
    refine yields_warned ?_
    rw [changeAt, if_neg (by simp [single])]
    exact ih

/-- A path of labels: each segment is the label of the value that it stands for, and outside lists. -/
inductive Labels : TypeDef → List String → FieldValue → Prop
  | last {d : TypeDef} {label : String} {target : Target} {v : FieldValue}
      (start : d.target? label = some target) (plain : target.field.isRepeatable = false)
      (value : target.container? = some v) (named : v.name = label) : Labels d [label] v
  | cons {d t : TypeDef} {label : String} {rest : List String} {target : Target} {v w : FieldValue}
      (start : d.target? label = some target) (plain : target.field.isRepeatable = false)
      (value : target.container? = some v) (named : v.name = label)
      (nested : d.nested? label = some t) (clear : target.IsClearOf rest)
      (inner : Labels t rest w) : Labels d (label :: rest) w

theorem Labels.ne_nil (h : Labels d path v) : path ≠ [] := by
  cases h <;> simp

theorem Labels.isSome_targetOf? (h : Labels d path v) : (d.targetOf? path).isSome := by
  induction h with
  | last start plain value named => exact Option.isSome_iff_exists.2 ⟨_, start⟩
  | cons start plain value named nested clear inner ih =>
    subst named
    obtain ⟨next, more, rfl⟩ := List.exists_cons_of_ne_nil inner.ne_nil
    exact Option.isSome_iff_exists.2 ⟨_, resolve?_of_isClearOf start clear value nested ih⟩

theorem Labels.leadsTo (h : Labels d path v) (front : String) :
    LeadsTo (front ++ ".".intercalate path) v d front path := by
  induction h generalizing front with
  | last start outside contained named =>
    subst named
    exact .value start (inner_of_target? start) outside contained rfl
  | @cons d t label rest target v w start outside contained named nested clear inner ih =>
    subst named
    obtain ⟨next, more, rfl⟩ := List.exists_cons_of_ne_nil inner.ne_nil
    have found : d.targetOf? (v.name :: next :: more) = _ :=
      resolve?_of_isClearOf start clear contained nested inner.isSome_targetOf?
    have key : front ++ ".".intercalate (v.name :: next :: more) =
        front ++ v.name ++ "." ++ ".".intercalate (next :: more) := by
      simp [String.intercalate_cons_cons, String.append_assoc]
    rw [key]
    exact .nested found inner.ne_nil outside rfl nested (ih _)

/-- A constructor's value for a label is coerced as an assigned one. Behind a longer path it is stored
as it is. -/
theorem Labels.coercePath_eq (h : Labels d (name.splitOn ".") v) {value : Value}
    (short : (name.splitOn ".").length = 1 ∨ v.coerce value = value) :
    d.coercePath name value = v.coerce value := by
  unfold coercePath
  generalize name.splitOn "." = path at h short
  cases h with
  | last start plain contained named =>
    have found : d.targetOf? [_] = some _ := start
    simp [found, inner_of_target? start, contained]
  | cons start plain contained named nested clear inner =>
    subst named
    obtain ⟨next, more, rfl⟩ := List.exists_cons_of_ne_nil inner.ne_nil
    have found : d.targetOf? (_ :: next :: more) = _ :=
      resolve?_of_isClearOf start clear contained nested inner.isSome_targetOf?
    have same := short.resolve_left (by simp)
    simp [found, same]

/-- A constructor of the type has bound a value to a name that is a path of labels, and the value can
be assigned there as it is. -/
def BoundToLabels (d : TypeDef) (s : Session) (scope : ScopeId) (name : String) (value : Value) :
    Prop :=
  ∃ v, d.Labels (name.splitOn ".") v ∧ BindsSymbols s scope v ∧
    ((name.splitOn ".").length = 1 ∨ v.coerce value = value)

/-- What a constructor of the type binds for argument expressions. -/
def constructFrom (d : TypeDef) (scope : ScopeId) (origin : Lexeme) (arguments : List Expr) :
    Update (List (String × Value)) := do
  let values ← arguments.mapM fun e => Update.evaluate origin (e.eval scope)
  d.construct scope origin values

theorem scoped_constructFrom {n : Nat} (d : TypeDef) (scope : ScopeId) (origin : Lexeme)
    (arguments : List Expr) : Update.Scoped n (d.constructFrom scope origin arguments) :=
  (Update.Scoped.mapM fun e => .value origin scope e).bind fun _ => scoped_construct ..

/-- Stores what a constructor of the type has bound, under a key and the bound names. -/
def relocate (d : TypeDef) (key : String) (written : List (String × Value)) (r : Record) : Record :=
  written.foldl (fun r (name, value) => r.set (key ++ "." ++ name) (d.coercePath name value)) r

section Construction

variable {s s' : Session} {scope : ScopeId} {origin call : Lexeme} {d holder t : TypeDef}
  {path : List String} {target : Target} {listed : Bool} {v : FieldValue} {arguments : List Expr}
  {written : List (String × Value)}

/-- A call of a constructor stores what the constructor binds. -/
theorem yields_construction (plain : s.scopes.Plain) (nested : holder.nested? v.name = some t)
    (unused : v.joined = [] ∨ ∀ part ∈ v.parts, part.isUsedBy (.call t.name arguments) = false)
    (constructed : t.constructFrom scope call arguments s = .ok written s') (front : String) (r : Record) :
    Update.Yields s.scopes (holder.assignValue scope v front r ⟨.call t.name arguments, call⟩)
      (.ok (t.relocate (front ++ v.name) written r)) := by
  have run : holder.assignValue scope v front r ⟨.call t.name arguments, call⟩ =
      t.constructFrom scope call arguments >>= fun written =>
        pure (t.relocate (front ++ v.name) written r) := by
    have alone : (v.joined.isEmpty ||
        (v.parts.filter (·.isUsedBy (.call t.name arguments))).isEmpty) = true := by
      rcases unused with none | unused
      · simp [none]
      · simpa using .inr unused
    unfold assignValue assignExpr
    dsimp only
    rw [if_pos alone, nested]
    simp [constructInto, constructFrom, relocate]
  have yields := ((t.scoped_constructFrom scope call arguments).settled plain).yields
  rw [constructed] at yields
  rw [run]
  exact Update.Gives.bind yields (Update.Yields.pure _)

theorem assign_construction (plain : s.scopes.Plain) (leads : Leads d path holder target listed)
    (value : target.container? = some v) (nested : holder.nested? v.name = some t)
    (unused : v.joined = [] ∨ ∀ part ∈ v.parts, part.isUsedBy (.call t.name arguments) = false)
    (constructed : t.constructFrom scope call arguments s = .ok written s') :
    (∀ front r, answer (holder.assignValue scope v front r ⟨.call t.name arguments, call⟩ s) =
      .ok (t.relocate (front ++ v.name) written r)) ∧
    ((∀ binding ∈ written, t.BoundToLabels s scope binding.1 binding.2 ∧
        target.IsClearOf (binding.1.splitOn ".")) →
      (written ≠ [] ∨ listed = false) → ∀ front r,
      answer (d.assign scope origin [⟨.call t.name arguments, call⟩] r front path s) =
      answer ((written.foldlM (fun r (name, value) => d.assign scope origin
        [⟨.literal value, call⟩] r front (path ++ name.splitOn ".")) r : Update Record) s)) := by
  have stored := yields_construction plain nested unused constructed
  refine ⟨fun front r => (stored front r s rfl).1, fun labelled some front r => ?_⟩
  obtain ⟨focus, front', isFocus, atValue, behind⟩ :=
    leads.exists_focus plain scope origin value front
  have left := atValue _ _ (stored front') r
  have each : ∀ binding ∈ written, ∀ r, Update.Yields s.scopes
      (d.assign scope origin [⟨.literal binding.2, call⟩] r front (path ++ binding.1.splitOn "."))
      (focus (fun r => .ok (r.set (front' ++ v.name ++ "." ++ binding.1)
        (t.coercePath binding.1 binding.2))) r) := by
    intro binding member r
    obtain ⟨⟨w, labels, binds, fits⟩, clear⟩ := labelled binding member
    refine (behind t _ _ _ nested labels.isSome_targetOf? clear fun r => ?_).2 r
    have bound := ((scoped_symbols scope w.symbols).settled plain).yields
    rw [show answer _ = _ from binds] at bound
    have assigned := (labels.leadsTo (front' ++ v.name ++ ".")).yields_assign bound
      (Operand.denotes_literal binding.2 call) origin r
    rwa [intercalate_splitOn_point, ← labels.coercePath_eq fits] at assigned
  have right := Update.Yields.foldlM each r
  have once : ∀ r, written.foldlM (fun r binding => (.ok (r.set (front' ++ v.name ++ "." ++ binding.1)
      (t.coercePath binding.1 binding.2)) : Except Failure Record)) r =
      .ok (t.relocate (front' ++ v.name) written r) := fun r => List.foldlM_pure
  rw [isFocus.foldlM some, funext once] at right
  exact (left s rfl).1.trans (right s rfl).1.symm

end Construction

end TypeDef

/-! ### A list of corners -/

namespace Sample

def here (text : String) : Lexeme :=
  { kind := .identifier, text, start := 0, stop := 0, source := default }

/-- A type with two labels, and a constructor that fills them. -/
def corner : TypeDef where
  name := "Corner"
  code := "CRNR"
  template :=
    { entries := [{ label := "x", tag := .integer .two true }, { label := "y", tag := .integer .two true }] }
  fields := [Field.synthesize "x" (here "x"), Field.synthesize "y" (here "y")]
  constructors :=
    [.make "Corner" ["a", "b"]
      [⟨some "this.x", .var "a", here "x"⟩, ⟨some "this.y", .var "b", here "y"⟩] (here "constructor")]

def place : FieldValue := { name := "at", origin := here "at" }

def corners : Field where
  name := "corners"
  values := [place]
  repetition := some ⟨0, 8, "count"⟩
  origin := here "corners"

/-- A type with a list of corners. -/
def outline : TypeDef where
  name := "Outline"
  code := "OUTL"
  template :=
    { entries := [{ label := "count", tag := .count }, { label := "begin", tag := .listStart },
        { label := "at", tag := .nested "Corner", nested := some corner },
        { label := "end", tag := .listEnd }]
      groups := [⟨0, 1, 3⟩] }
  fields := [corners]

end Sample

theorem TypeDef.assign_corner :
    answer (Sample.outline.assign Scopes.rootId (Sample.here "at")
      [⟨.call "Corner" [.literal (.integer 3), .literal (.integer 4)], Sample.here "Corner"⟩] {} ""
      ["corners", "at"] {}) =
    answer ((([("x", .integer 3), ("y", .integer 4)] : List (String × Value)).foldlM
      (fun r (name, value) => Sample.outline.assign Scopes.rootId (Sample.here "at")
        [⟨.literal value, Sample.here "Corner"⟩] r "" (["corners", "at"] ++ name.splitOn ".")) {} :
        Update Record) {}) := by
  have found : Sample.outline.targetOf? ["corners", "at"] =
      some { field := Sample.corners, value := some Sample.place } := by
    unfold targetOf? resolve?
    rfl
  have leads : Leads Sample.outline ["corners", "at"] Sample.outline _ true :=
    .here found rfl fun _ => rfl
  have constructed : Sample.corner.constructFrom Scopes.rootId (Sample.here "Corner")
      [.literal (.integer 3), .literal (.integer 4)] {} =
      .ok [("x", .integer 3), ("y", .integer 4)] {} := rfl
  refine (assign_construction Scopes.Plain.initial leads rfl rfl (.inl rfl) constructed).2
    (fun binding member => ⟨?_, fun none => by cases none⟩) (.inl (List.cons_ne_nil _ _)) "" {}
  simp only [List.mem_cons, List.not_mem_nil, or_false] at member
  rcases member with rfl | rfl
  · have segments : "x".splitOn "." = ["x"] := by rw [splitOn_point]; rfl
    refine ⟨{ name := "x", origin := Sample.here "x" }, ?_, rfl, .inl (by simp [segments])⟩
    rw [segments]
    exact .last rfl rfl rfl rfl
  · have segments : "y".splitOn "." = ["y"] := by rw [splitOn_point]; rfl
    refine ⟨{ name := "y", origin := Sample.here "y" }, ?_, rfl, .inl (by simp [segments])⟩
    rw [segments]
    exact .last rfl rfl rfl rfl

end Rsrc
