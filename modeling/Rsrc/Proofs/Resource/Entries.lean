import Mathlib.Data.List.Forall2
import Rsrc.Proofs.Resource.Overriding
import Rsrc.Proofs.Resource.Steady
import Rsrc.Proofs.Resource.Stored

/-!
# Elements of a repeatable field

Every element of the list of a repeatable field has a history: it was made fresh, perhaps by an
assignment to the whole field, and then changed by the assignments to its values that came while it was
the last one (`TypeDef.GrownBy`). The histories of all elements, one behind the other, are the assignments
of the body to the field (`TypeDef.Histories`). This holds unless an assignment to another field goes
into a nested type and ends at a list of the same name (`Parse.elements_of_new`).
-/

namespace Rsrc

open Record (Changes)
open Update (Yields Scoped)

/-! ### What operands are worth -/

/-- Sets values under keys, one after another. -/
def Record.setAll (r : Record) (writes : List (String × Value)) : Record :=
  writes.foldl (fun r write => r.set write.1 write.2) r

theorem Record.setAll_append (r : Record) (first second : List (String × Value)) :
    r.setAll (first ++ second) = (r.setAll first).setAll second := List.foldl_append

theorem Record.focusLast_eq_ok_iff {fresh : Except Failure Record} {key : String}
    {update : Record → Except Failure Record} {r r' : Record} :
    r.focusLast fresh key update = .ok r' ↔ ∃ elements entry,
      r.someElements fresh key = .ok elements ∧ update (elements.getLastD {}) = .ok entry ∧
        r' = r.setList key (elements.dropLast ++ [entry]) := by
  constructor
  · intro h
    obtain ⟨elements, there, h⟩ := exists_of_bind_eq_ok h
    obtain ⟨entry, changed, h⟩ := exists_of_bind_eq_ok h
    cases h
    exact ⟨elements, entry, there, changed, rfl⟩
  · rintro ⟨elements, entry, there, changed, rfl⟩
    rw [focusLast, there]
    change update (elements.getLastD {}) >>= _ = _
    rw [changed]
    rfl

theorem exists_of_forall₂ {α β : Type} {R : α → β → Prop} {as : List α} {bs : List β}
    (h : List.Forall₂ R as bs) {b : β} (member : b ∈ bs) : ∃ a ∈ as, R a b := by
  induction h with
  | nil => cases member
  | cons first _ ih =>
    rcases List.mem_cons.1 member with rfl | later
    · exact ⟨_, List.mem_cons_self, first⟩
    · obtain ⟨a, known, related⟩ := ih later
      exact ⟨a, List.mem_cons_of_mem _ known, related⟩

namespace TypeDef

/-- What an operand is worth for a value of a field, as values under keys. -/
inductive Worth (d : TypeDef) (scopes : Scopes) (scope : ScopeId) (v : FieldValue)
    (operand : Operand) : List (String × Value) → Prop
  /-- The value of the expression, which can use the symbols there. -/
  | value {value : Value}
    (alone : v.joined = [] ∨ ∀ part ∈ v.parts, part.isUsedBy operand.expr = false)
    (other : ∀ t name arguments, d.nested? v.name = some t → operand.expr = .call name arguments →
      name ≠ t.name)
    (evaluated : Yields scopes (Update.inScope scope fun inner => do
      Update.bindSymbols inner v.symbols
      Update.evaluate operand.origin (operand.expr.eval inner)) (.ok value)) :
    Worth d scopes scope v operand [(v.name, v.coerce value)]
  /-- What a constructor of the nested type binds, behind the label. -/
  | constructed {t : TypeDef} {arguments : List Expr} {written : List (String × Value)}
    (alone : v.joined = [] ∨ ∀ part ∈ v.parts, part.isUsedBy operand.expr = false)
    (nested : d.nested? v.name = some t) (call : operand.expr = .call t.name arguments)
    (ran : Yields scopes (t.constructFrom scope operand.origin arguments) (.ok written)) :
    Worth d scopes scope v operand
      (written.map fun (path, value) => (v.name ++ "." ++ path, t.coercePath path value))
  /-- A value for each of the joined parts whose symbols are used. -/
  | parts {writes : List (String × Value)} (joined : v.joined ≠ [])
    (some : v.parts.filter (·.isUsedBy operand.expr) ≠ [])
    (evaluated : List.Forall₂
      (fun part write => ∃ value, Yields scopes (part.partValue v.parts scope operand) (.ok value) ∧
        write = (part.name, part.coerce value))
      (v.parts.filter (·.isUsedBy operand.expr)) writes) :
    Worth d scopes scope v operand writes

section Worth

variable {d : TypeDef} {scopes : Scopes} {scope : ScopeId} {v : FieldValue} {operand : Operand}
  {r r' : Record} {writes : List (String × Value)}

/-- The keys are those of the value and of what is joined to it. -/
theorem Worth.places (h : d.Worth scopes scope v operand writes) :
    ∀ write ∈ writes, v.Places "" (.value write.1) := by
  intro write member
  cases h with
  | value =>
    obtain rfl := List.mem_singleton.1 member
    exact ⟨v, List.mem_cons_self, .inl (String.empty_append ..).symm⟩
  | constructed =>
    obtain ⟨binding, -, rfl⟩ := List.mem_map.1 member
    exact ⟨v, List.mem_cons_self, .inr ⟨binding.1, by rw [String.empty_append]⟩⟩
  | parts _ _ evaluated =>
    obtain ⟨part, used, value, -, rfl⟩ := exists_of_forall₂ evaluated member
    exact ⟨part, List.mem_of_mem_filter used, .inl (String.empty_append ..).symm⟩

theorem Worth.changes (h : d.Worth scopes scope v operand writes) (r : Record) :
    Changes (v.Places "") (fun _ => False) r (r.setAll writes) :=
  .foldl_set h.places

variable (plain : scopes.Plain)
include plain

theorem exists_writes_of_parts (parts : List FieldValue) {used : List FieldValue}
    (h : Yields scopes (used.foldlM
      (fun r part => do
        let value ← part.partValue parts scope operand
        return r.set ("" ++ part.name) (part.coerce value)) r) (.ok r')) :
    ∃ writes, List.Forall₂
      (fun part write => ∃ value, Yields scopes (part.partValue parts scope operand) (.ok value) ∧
        write = (part.name, part.coerce value)) used writes ∧ r' = r.setAll writes := by
  induction used generalizing r with
  | nil => exact ⟨[], .nil, h.pure_eq_ok.symm⟩
  | cons part used ih =>
    obtain ⟨r₁, first, rest⟩ := h.foldlM_cons_eq_ok plain fun _ _ =>
      (scoped_partValue ..).bind fun _ => .pure _
    obtain ⟨value, evaluated, set⟩ := first.bind_eq_ok plain (scoped_partValue ..) fun _ => .pure _
    obtain ⟨writes, all, rfl⟩ := ih rest
    refine ⟨(part.name, part.coerce value) :: writes, .cons ⟨value, evaluated, rfl⟩ all, ?_⟩
    rw [← set.pure_eq_ok, String.empty_append]
    rfl

/-- An assignment to a value sets what its operand is worth. -/
theorem exists_worth (h : Yields scopes (d.assignValue scope v "" r operand) (.ok r')) :
    ∃ writes, d.Worth scopes scope v operand writes ∧ r' = r.setAll writes := by
  unfold assignValue at h
  dsimp only at h
  split at h
  · rename_i whole
    have alone : v.joined = [] ∨ ∀ part ∈ v.parts, part.isUsedBy operand.expr = false := by
      simpa using whole
    rcases d.assignExpr_cases scope ("" ++ v.name) with ⟨t, arguments, nested, call, run⟩ | ⟨other, run⟩
    · have inner : t.constructInto scope ("" ++ v.name) r operand.origin arguments =
          t.constructFrom scope operand.origin arguments >>= fun written =>
            pure (t.relocate ("" ++ v.name) written r) := by
        rw [constructInto, constructFrom, bind_assoc]
        rfl
      rw [run, inner] at h
      obtain ⟨written, ran, set⟩ := h.bind_eq_ok plain (scoped_constructFrom ..) fun _ => .pure _
      refine ⟨_, .constructed alone nested call ran, ?_⟩
      rw [← set.pure_eq_ok, String.empty_append, relocate, Record.setAll, List.foldl_map]
    · rw [run] at h
      obtain ⟨value, evaluated, set⟩ :=
        h.bind_eq_ok plain (scoped_withSymbols ..) fun value => .pure _
      refine ⟨_, .value alone other evaluated, ?_⟩
      rw [← set.pure_eq_ok, String.empty_append]
      rfl
  · rename_i split
    obtain ⟨joined, some⟩ : v.joined ≠ [] ∧ v.parts.filter (·.isUsedBy operand.expr) ≠ [] := by
      rw [Bool.or_eq_true, not_or, List.isEmpty_iff, List.isEmpty_iff] at split
      exact split
    obtain ⟨writes, all, rfl⟩ := exists_writes_of_parts plain v.parts h
    exact ⟨writes, .parts joined some all, rfl⟩

/-- Assignments to the values of a field set what the operands are worth, in the order of the values. -/
theorem exists_worth_of_values {values : List FieldValue} {operands : List Operand}
    (h : Yields scopes (d.assignValues scope "" r values operands) (.ok r')) :
    ∃ all, List.Forall₂ (fun pair => d.Worth scopes scope pair.1 pair.2) (values.zip operands) all ∧
      r' = r.setAll all.flatten := by
  unfold assignValues at h
  generalize values.zip operands = pairs at h
  induction pairs generalizing r with
  | nil => exact ⟨[], .nil, h.pure_eq_ok.symm⟩
  | cons pair pairs ih =>
    obtain ⟨r₁, first, rest⟩ := h.foldlM_cons_eq_ok plain fun _ _ => scoped_assignValue ..
    obtain ⟨writes, worth, rfl⟩ := exists_worth plain first
    obtain ⟨all, others, rfl⟩ := ih rest
    refine ⟨writes :: all, .cons worth others, ?_⟩
    rw [List.flatten_cons, Record.setAll_append]

end Worth

/-! ### Elements and their histories -/

/-- The assignment is to the field: to all of it, to one of its values or into one. -/
def isTo (d : TypeDef) (f : Field) (a : Assignment) : Bool :=
  (d.targetOf? a.path).any (·.field.name == f.name)

/-- The assignment is to all of the field. -/
def isWhole (d : TypeDef) (f : Field) (a : Assignment) : Bool :=
  (d.targetOf? a.path).any fun target =>
    target.field.name == f.name && target.inner.isEmpty && target.value.isNone

theorem isTo_of_isWhole {d : TypeDef} {f : Field} {a : Assignment} (h : d.isWhole f a = true) :
    d.isTo f a = true := by
  unfold isWhole at h
  unfold isTo
  cases found : d.targetOf? a.path with
  | none => simp [found] at h
  | some target => simp_all

/-- What an assignment to a repeatable field makes of the element that it is about. -/
inductive Acts (d : TypeDef) (f : Field) (scopes : Scopes) (scope : ScopeId) (a : Assignment) :
    Record → Record → Prop
  /-- An assignment to all of the field gives the operands to its values in order. -/
  | whole {target : Target} {entry : Record} {all : List (List (String × Value))}
    (found : d.targetOf? a.path = some target) (field : target.field = f) (ends : target.inner = [])
    (value : target.value = none) (enough : a.operands.length ≤ f.values.length)
    (worth : List.Forall₂ (fun pair => d.Worth scopes scope pair.1 pair.2)
      (f.values.zip a.operands) all)
    (only : Changes (fun place => ∃ v ∈ f.values.take a.operands.length, v.Places "" place)
      (fun _ => False) entry (entry.setAll all.flatten)) :
    Acts d f scopes scope a entry (entry.setAll all.flatten)
  /-- An assignment to one value changes that value. -/
  | value {target : Target} {v : FieldValue} {operand : Operand} {writes : List (String × Value)}
    {entry : Record} (found : d.targetOf? a.path = some target) (field : target.field = f)
    (ends : target.inner = []) (value : target.value = some v) (single : a.operands = [operand])
    (worth : d.Worth scopes scope v operand writes)
    (only : Changes (v.Places "") (fun _ => False) entry (entry.setAll writes)) :
    Acts d f scopes scope a entry (entry.setAll writes)
  /-- An assignment into a value is one of the type that is nested there. -/
  | inner {target : Target} {v : FieldValue} {t : TypeDef} {entry entry' : Record}
    (found : d.targetOf? a.path = some target) (field : target.field = f)
    (goesOn : target.inner ≠ []) (value : target.container? = some v)
    (nested : d.nested? v.name = some t)
    (assigned : Yields scopes (t.assign scope a.origin a.operands entry (v.name ++ ".") target.inner)
      (.ok entry'))
    (only : Changes (t.Targets a.operands.length entry (v.name ++ ".") target.inner)
      (fun key => t.listOf? (v.name ++ ".") target.inner = some key) entry entry') :
    Acts d f scopes scope a entry entry'

/-- The element has been fresh, and then the assignments have acted on it. -/
inductive GrownBy (d : TypeDef) (f : Field) (scopes : Scopes) (scope : ScopeId) :
    List Assignment → Record → Prop
  | fresh {entry : Record} (made : Yields scopes (d.defaultEntry scope f) (.ok entry)) :
    GrownBy d f scopes scope [] entry
  | acted {history : List Assignment} {a : Assignment} {entry entry' : Record}
    (before : GrownBy d f scopes scope history entry) (acts : d.Acts f scopes scope a entry entry') :
    GrownBy d f scopes scope (history ++ [a]) entry'

/-- Assignments to a field, split into the histories of elements: each of these but the first begins
with an assignment to all of the field, and there is no other one in it. -/
structure Histories (d : TypeDef) (f : Field) (assignments : List Assignment)
    (histories : List (List Assignment)) : Prop where
  all : histories.flatten = assignments
  some : [] ∉ histories
  opened : ∀ history ∈ histories.tail, ∀ a ∈ history.head?, d.isWhole f a = true
  changed : ∀ history ∈ histories, ∀ a ∈ history.tail, d.isWhole f a = false

namespace Histories

variable {d : TypeDef} {f : Field} {a : Assignment} {assignments history : List Assignment}
  {histories : List (List Assignment)}

theorem nil : Histories d f [] [] := ⟨rfl, by simp, by simp, by simp⟩

/-- The first element may be made for an assignment to one of its values. -/
theorem single (a : Assignment) : Histories d f [a] [[a]] := ⟨by simp, by simp, by simp, by simp⟩

theorem mem_tail_append {α : Type} {x y : α} {l : List α} (h : x ∈ (l ++ [y]).tail) :
    x ∈ l.tail ∨ x = y := by
  cases l with
  | nil => cases h
  | cons first rest => simpa using h

theorem whole (h : Histories d f assignments histories) (whole : d.isWhole f a = true) :
    Histories d f (assignments ++ [a]) (histories ++ [[a]]) where
  all := by simp [h.all]
  some := by simp [h.some]
  opened history member := by
    rcases mem_tail_append member with before | rfl
    · exact h.opened history before
    · simpa using whole
  changed history member := by
    rcases List.mem_append.1 member with before | here
    · exact h.changed history before
    · obtain rfl := List.mem_singleton.1 here
      simp

theorem part (h : Histories d f assignments (histories ++ [history])) (part : d.isWhole f a = false) :
    Histories d f (assignments ++ [a]) (histories ++ [history ++ [a]]) := by
  have filled : history ≠ [] := by
    rintro rfl
    exact h.some (by simp)
  obtain ⟨first, rest, rfl⟩ := List.exists_cons_of_ne_nil filled
  refine ⟨by simp [← h.all], ?_, fun other member => ?_, fun other member => ?_⟩
  · have some := h.some
    simp only [List.mem_append, List.mem_singleton, not_or] at some
    simp [some.1]
  · rcases mem_tail_append member with before | rfl
    · refine h.opened other ?_
      cases histories with
      | nil => cases before
      | cons => exact List.mem_append_left _ before
    · cases histories with
      | nil => cases member
      | cons => exact h.opened (first :: rest) (by simp)
  · rcases List.mem_append.1 member with before | here
    · exact h.changed other (List.mem_append_left _ before)
    · obtain rfl := List.mem_singleton.1 here
      intro b later
      rcases List.mem_append.1 later with old | new
      · exact h.changed (first :: rest) (by simp) b old
      · obtain rfl := List.mem_singleton.1 new
        exact part

/-- There is one history for each assignment to all of the field, and one more if another assignment
comes first. -/
theorem length_eq (h : Histories d f assignments histories) :
    histories.length = assignments.countP (d.isWhole f) +
      if assignments.head?.any (!d.isWhole f ·) then 1 else 0 := by
  obtain ⟨rfl, some, opened, changed⟩ := h
  -- only the first assignment of a history can be to all of the field
  have count : ∀ a rest, (a :: rest) ∈ histories →
      (a :: rest).countP (d.isWhole f) = if d.isWhole f a then 1 else 0 := by
    intro a rest member
    have none : rest.countP (d.isWhole f) = 0 := by
      rw [List.countP_eq_zero]
      intro b later
      simp [changed _ member b later]
    rw [List.countP_cons, none, Nat.zero_add]
  cases histories with
  | nil => rfl
  | cons history histories =>
    have one : ∀ other ∈ histories, other.countP (d.isWhole f) = 1 := by
      intro other member
      cases other with
      | nil => exact absurd (List.mem_cons_of_mem _ member) some
      | cons a rest =>
        rw [count a rest (List.mem_cons_of_mem _ member), if_pos (opened _ member a rfl)]
    have others : histories.flatten.countP (d.isWhole f) = histories.length := by
      rw [List.countP_flatten, List.map_congr_left one]
      simp
    cases history with
    | nil => exact absurd List.mem_cons_self some
    | cons a rest =>
      have first := count a rest List.mem_cons_self
      rw [List.flatten_cons, List.countP_append, others, first, List.length_cons]
      by_cases whole : d.isWhole f a = true
      · simp [whole, Nat.add_comm]
      · simp [whole]

end Histories

/-! ### Assignments to the field -/

section Steps

variable {d : TypeDef} {f : Field} {scopes : Scopes} {scope : ScopeId} {a : Assignment}
  {r r' : Record} {target : Target} {operands : List Operand} {assignments : List Assignment}
  {change : String → Record → Update Record}

/-- The list has elements that have grown, along the assignments to the field so far. -/
def Told (d : TypeDef) (f : Field) (scopes : Scopes) (scope : ScopeId)
    (assignments : List Assignment) (elements : List Record) : Prop :=
  ∃ histories, d.Histories f assignments histories ∧
    List.Forall₂ (d.GrownBy f scopes scope) histories elements

theorem scoped_changeAt {n : Nat} {field : Field} {front : String}
    (inner : ∀ front entry, Scoped n (change front entry)) :
    Scoped n (d.changeAt scope field front change r) :=
  .ite (fun _ => scoped_updateLast _ _ _ _ _ (inner "")) fun _ => inner front r

variable (plain : scopes.Plain)
include plain

/-- A change of the last element, which is made if there is none. -/
theorem list_of_changeAt (repeats : f.isRepeatable = true)
    (inner : ∀ entry, Scoped scopes.depth (change "" entry))
    (h : Yields scopes (d.changeAt scope f "" change r) (.ok r')) :
    ∃ init entry entry', (r.list f.name = init ++ [entry] ∨
        r.list f.name = [] ∧ init = [] ∧ Yields scopes (d.defaultEntry scope f) (.ok entry)) ∧
      Yields scopes (change "" entry) (.ok entry') ∧ r'.list f.name = init ++ [entry'] := by
  rw [changeAt, if_pos repeats, String.empty_append] at h
  obtain ⟨fresh, made⟩ := (d.scoped_defaultEntry scope f).settled plain
  choose answers run using fun entry => (inner entry).settled plain
  have focused := (yields_updateLast made run f.name r).unique h
  obtain ⟨elements, entry', there, changed, rfl⟩ := Record.focusLast_eq_ok_iff.1 focused
  by_cases empty : r.list f.name = []
  · rw [Record.someElements, empty] at there
    cases fresh with
    | error e => cases there
    | ok entry =>
      cases there
      exact ⟨[], entry, entry', .inr ⟨empty, rfl, made⟩, changed ▸ run entry, by simp⟩
  · obtain ⟨init, entry, split⟩ := (List.eq_nil_or_concat (r.list f.name)).resolve_left empty
    rw [List.concat_eq_append] at split
    rw [Record.someElements_of_ne_nil empty, split] at there
    cases there
    rw [List.getLastD_concat] at changed
    exact ⟨init, entry, entry', .inl split, changed ▸ run entry, by simp⟩

omit plain in
theorem eq_of_singleOperand {path : String} {origin : Lexeme} {operand : Operand}
    (h : Yields scopes (singleOperand path operands origin) (.ok operand)) :
    operands = [operand] := by
  cases operands with
  | nil => exact absurd h Update.not_yields_reject
  | cons only rest =>
    cases rest with
    | nil => rw [h.pure_eq_ok]
    | cons => exact absurd h Update.not_yields_reject

/-- What an assignment that succeeds comes to: one to a field, to one value, or into a nested type. -/
theorem assign_cases {origin : Lexeme} {front : String} {path : List String}
    (h : Yields scopes (d.assign scope origin operands r front path) (.ok r')) :
    ∃ target, d.targetOf? path = some target ∧
      ((target.inner = [] ∧ target.value = none ∧
        Yields scopes (d.assignField scope front r target.field operands) (.ok r')) ∨
      (∃ v operand, target.inner = [] ∧ target.value = some v ∧ operands = [operand] ∧
        Yields scopes (d.changeAt scope target.field front
          (fun front r => d.assignValue scope v front r operand) r) (.ok r')) ∨
      ∃ v t, target.inner ≠ [] ∧ target.container? = some v ∧ d.nested? v.name = some t ∧
        Yields scopes (d.changeAt scope target.field front (fun front r =>
          t.assign scope origin operands r (front ++ v.name ++ ".") target.inner) r) (.ok r')) := by
  have warns {field : Field} {u : Update Record}
      (h : Yields scopes (do warnDeprecated field origin; u) (.ok r'))
      (inside : Scoped scopes.depth u) : Yields scopes u (.ok r') := by
    obtain ⟨_, -, after⟩ := h.bind_eq_ok plain (scoped_warnDeprecated ..) fun _ => inside
    exact after
  cases found : d.targetOf? path with
  | none =>
    rw [assign] at h
    split at h
    · exact absurd h Update.not_yields_reject
    · simp_all
  | some target =>
    refine ⟨target, rfl, ?_⟩
    rw [assign] at h
    split at h
    · simp_all
    rename_i target' found'
    obtain rfl : target' = target := by simpa [found'] using found
    by_cases ends : target'.inner = []
    · simp only [ends, List.isEmpty_nil, if_true] at h
      cases value : target'.value with
      | none =>
        rw [value] at h
        exact .inl ⟨ends, rfl, warns h (scoped_assignField ..)⟩
      | some v =>
        rw [value] at h
        have inside (operand : Operand) : Scoped scopes.depth (d.changeAt scope target'.field front
            (fun front r => d.assignValue scope v front r operand) r) :=
          scoped_changeAt fun _ _ => scoped_assignValue ..
        obtain ⟨operand, single, changed⟩ :=
          (warns h ((scoped_singleOperand ..).bind inside)).bind_eq_ok plain (scoped_singleOperand ..) inside
        exact .inr (.inl ⟨v, operand, ends, rfl, eq_of_singleOperand single, changed⟩)
    · rw [if_neg (by simpa using ends)] at h
      cases value : target'.container? with
      | none =>
        rw [value] at h
        exact absurd (warns h (.reject ..)) Update.not_yields_reject
      | some v =>
        rw [value] at h
        cases nested : d.nested? v.name with
        | none =>
          simp only [nested] at h
          exact absurd (warns h (.reject ..)) Update.not_yields_reject
        | some t =>
          simp only [nested] at h
          exact .inr (.inr ⟨v, t, ends, rfl, nested, warns h (scoped_changeAt fun _ _ => scoped_assign ..)⟩)

/-- An assignment to all of the field makes an element of its operands. -/
theorem list_of_assignField (repeats : f.isRepeatable = true)
    (h : Yields scopes (d.assignField scope "" r f operands) (.ok r')) :
    ∃ fresh all, Yields scopes (d.defaultEntry scope f) (.ok fresh) ∧
      operands.length ≤ f.values.length ∧
      List.Forall₂ (fun pair => d.Worth scopes scope pair.1 pair.2) (f.values.zip operands) all ∧
      Changes (fun place => ∃ v ∈ f.values.take operands.length, v.Places "" place) (fun _ => False)
        fresh (fresh.setAll all.flatten) ∧
      r'.list f.name = r.list f.name ++ [fresh.setAll all.flatten] := by
  unfold assignField at h
  dsimp only at h
  split at h
  · cases h.unique (Update.Gives.bind_error fun s same => ⟨rfl, same⟩)
  · rename_i fits
    have enough : operands.length ≤ f.values.length :=
      List.getElem?_eq_none_iff.1 (Option.eq_none_iff_forall_ne_some.2 fits)
    rw [if_pos repeats] at h
    obtain ⟨fresh, made, h⟩ := h.bind_eq_ok plain (scoped_defaultEntry ..) fun _ =>
      (scoped_assignValues ..).bind fun _ => .pure _
    obtain ⟨entry, assigned, h⟩ := h.bind_eq_ok plain (scoped_assignValues ..) fun _ => .pure _
    have only := (d.ensures_assignValues "" f.values operands).of_yields assigned
    obtain ⟨all, worth, rfl⟩ := exists_worth_of_values plain assigned
    refine ⟨fresh, all, made, enough, worth, only, ?_⟩
    rw [← h.pure_eq_ok, String.empty_append]
    simp [Record.pushEntry, Record.appendEntries]

omit plain in
theorem Told.whole {elements : List Record} {entry : Record}
    (h : d.Told f scopes scope assignments elements) (whole : d.isWhole f a = true)
    (grown : d.GrownBy f scopes scope [a] entry) :
    d.Told f scopes scope (assignments ++ [a]) (elements ++ [entry]) := by
  obtain ⟨histories, split, all⟩ := h
  exact ⟨_, split.whole whole, List.rel_append all (.cons grown .nil)⟩

omit plain in
theorem Told.part {init : List Record} {entry entry' : Record}
    (h : d.Told f scopes scope assignments (init ++ [entry])) (part : d.isWhole f a = false)
    (acts : d.Acts f scopes scope a entry entry') :
    d.Told f scopes scope (assignments ++ [a]) (init ++ [entry']) := by
  obtain ⟨histories, split, all⟩ := h
  obtain ⟨first, second, before, last, rfl⟩ : ∃ first second,
      List.Forall₂ (d.GrownBy f scopes scope) first init ∧
      List.Forall₂ (d.GrownBy f scopes scope) second [entry] ∧ histories = first ++ second :=
    ⟨_, _, List.forall₂_take_append _ _ _ all, List.forall₂_drop_append _ _ _ all, by simp⟩
  obtain ⟨history, rest, grown, none, rfl⟩ := List.forall₂_cons_right_iff.1 last
  obtain rfl := List.forall₂_nil_right_iff.1 none
  exact ⟨_, split.part part, List.rel_append before (.cons (.acted grown acts) .nil)⟩

/-- One assignment of a body, seen from the list of a repeatable field. -/
theorem Told.step (repeats : f.isRepeatable = true) (only : ∀ g ∈ d.fields, g.name = f.name → g = f)
    (apart : d.isTo f a = false → d.listOf? "" a.path ≠ some f.name)
    (h : d.Told f scopes scope assignments (r.list f.name))
    (step : Yields scopes (d.carryOut scope r a) (.ok r')) :
    d.Told f scopes scope (assignments ++ [a].filter (d.isTo f)) (r'.list f.name) := by
  cases ours : d.isTo f a with
  | false =>
    have changes := (d.ensures_assign scope a.origin a.operands r "" a.path).of_yields step
    rw [changes.lists f.name (apart ours)]
    simpa [ours] using h
  | true =>
    rw [List.filter_cons_of_pos ours]
    have reached {target : Target} (found : d.targetOf? a.path = some target) : target.field = f := by
      have named : target.field.name = f.name := by simpa [isTo, found] using ours
      exact only _ (mem_of_targetOf? found).1 named
    -- a part of the field, where the last element is changed or one is made
    have changed {target : Target} {change : String → Record → Update Record}
        (found : d.targetOf? a.path = some target) (part : d.isWhole f a = false)
        (inner : ∀ front entry, Scoped scopes.depth (change front entry))
        (acts : ∀ entry entry', Yields scopes (change "" entry) (.ok entry') →
          d.Acts f scopes scope a entry entry')
        (made : Yields scopes (d.changeAt scope target.field "" change r) (.ok r')) :
        d.Told f scopes scope (assignments ++ [a]) (r'.list f.name) := by
      rw [reached found] at made
      obtain ⟨init, entry, entry', before, change, after⟩ :=
        list_of_changeAt plain repeats (inner "") made
      rw [after]
      rcases before with there | ⟨empty, rfl, fresh⟩
      · rw [there] at h
        exact h.part part (acts entry entry' change)
      · rw [empty] at h
        obtain ⟨histories, split, none⟩ := h
        obtain rfl := List.forall₂_nil_right_iff.1 none
        obtain rfl : [] = assignments := split.all
        exact ⟨[[a]], .single a, .cons (.acted (.fresh fresh) (acts entry entry' change)) .nil⟩
    obtain ⟨target, found, ⟨ends, value, assigned⟩ | ⟨v, operand, ends, value, single, assigned⟩ |
      ⟨v, t, goesOn, value, nested, assigned⟩⟩ := assign_cases plain step
    · have field := reached found
      rw [field] at assigned
      obtain ⟨fresh, all, made, enough, worth, only, after⟩ :=
        list_of_assignField plain repeats assigned
      rw [after]
      refine h.whole (by simp [isWhole, found, field, ends, value]) ?_
      exact .acted (.fresh made) (.whole found field ends value enough worth only)
    · refine changed found (by simp [isWhole, found, value])
        (fun _ _ => scoped_assignValue ..) (fun entry entry' set => ?_) assigned
      obtain ⟨writes, worth, rfl⟩ := exists_worth plain set
      exact .value found (reached found) ends value single worth (worth.changes entry)
    · refine changed found (by simp [isWhole, found, goesOn])
        (fun _ _ => scoped_assign ..) (fun entry entry' set => ?_) assigned
      rw [String.empty_append] at set
      exact .inner found (reached found) goesOn value nested set
        ((t.ensures_assign scope a.origin a.operands entry _ _).of_yields set)

/-- All assignments of a body, seen from the list of a repeatable field. -/
theorem Told.body {body : List Assignment} (repeats : f.isRepeatable = true)
    (only : ∀ g ∈ d.fields, g.name = f.name → g = f)
    (apart : ∀ a ∈ body, d.isTo f a = false → d.listOf? "" a.path ≠ some f.name)
    (h : d.Told f scopes scope assignments (r.list f.name))
    (run : Yields scopes (body.foldlM (d.carryOut scope) r) (.ok r')) :
    d.Told f scopes scope (assignments ++ body.filter (d.isTo f)) (r'.list f.name) := by
  induction body generalizing r assignments with
  | nil => simpa [run.pure_eq_ok] using h
  | cons a body ih =>
    obtain ⟨r₁, first, rest⟩ := run.foldlM_cons_eq_ok plain fun _ _ => scoped_assign ..
    have later := ih (fun b member => apart b (List.mem_cons_of_mem _ member))
      (h.step plain repeats only (apart a List.mem_cons_self) first) rest
    rwa [List.append_assoc, ← List.filter_append, List.singleton_append] at later

/-! ### Before and after the body -/

theorem list_of_defaultEntries {count : Nat} {entries : List Record}
    (h : Yields scopes (d.defaultEntries scope f count) (.ok entries)) :
    entries.length = count ∧ ∀ entry ∈ entries, d.GrownBy f scopes scope [] entry := by
  induction count generalizing entries with
  | zero =>
    rw [← h.pure_eq_ok]
    simp
  | succ count ih =>
    obtain ⟨entry, made, h⟩ := h.bind_eq_ok plain (scoped_defaultEntry ..) fun _ =>
      (scoped_defaultEntries ..).bind fun _ => .pure _
    obtain ⟨rest, others, h⟩ := h.bind_eq_ok plain (scoped_defaultEntries ..) fun _ => .pure _
    obtain ⟨length, fresh⟩ := ih others
    rw [← h.pure_eq_ok]
    refine ⟨by rw [List.length_cons, length], fun e member => ?_⟩
    rcases List.mem_cons.1 member with rfl | later
    · exact .fresh made
    · exact fresh e later

theorem list_of_padField {rep : Repetition} (repeats : f.repetition = some rep)
    (h : Yields scopes (d.padField scope r f) (.ok r')) :
    ∃ padding, padding.length = (rep.lower.toInt - (r.list f.name).length).toNat ∧
      (∀ entry ∈ padding, d.GrownBy f scopes scope [] entry) ∧
      r'.list f.name = r.list f.name ++ padding := by
  unfold padField at h
  rw [repeats] at h
  dsimp only at h
  split at h
  · rename_i enough
    rw [← h.pure_eq_ok]
    exact ⟨[], enough.symm, by simp, by simp⟩
  · obtain ⟨padding, made, h⟩ := h.bind_eq_ok plain (scoped_defaultEntries ..) fun _ => .pure _
    obtain ⟨length, fresh⟩ := list_of_defaultEntries plain made
    rw [← h.pure_eq_ok]
    exact ⟨padding, length, fresh, by simp [Record.appendEntries]⟩

theorem list_of_padField_other {g : Field} {key : String} (other : key ≠ g.name)
    (h : Yields scopes (d.padField scope r g) (.ok r')) : r'.list key = r.list key := by
  unfold padField at h
  split at h
  · rw [← h.pure_eq_ok]
  · dsimp only at h
    split at h
    · rw [← h.pure_eq_ok]
    · obtain ⟨padding, -, h⟩ := h.bind_eq_ok plain (scoped_defaultEntries ..) fun _ => .pure _
      rw [← h.pure_eq_ok]
      exact Record.list_setList_of_ne other ..

/-- Filling up appends fresh elements to a list, up to the lower bound of its field. -/
theorem list_of_pad {rep : Repetition} (names : (d.fields.map (·.name)).Nodup) (known : f ∈ d.fields)
    (repeats : f.repetition = some rep) (h : Yields scopes (d.pad scope r) (.ok r')) :
    ∃ padding, padding.length = (rep.lower.toInt - (r.list f.name).length).toNat ∧
      (∀ entry ∈ padding, d.GrownBy f scopes scope [] entry) ∧
      r'.list f.name = r.list f.name ++ padding := by
  have others : ∀ {fields : List Field} {r : Record}, f.name ∉ fields.map (·.name) →
      Yields scopes (fields.foldlM (d.padField scope) r) (.ok r') →
      r'.list f.name = r.list f.name := by
    intro fields
    induction fields with
    | nil => exact fun _ run => by rw [run.pure_eq_ok]
    | cons g fields ih =>
      intro r absent run
      rw [List.map_cons, List.mem_cons, not_or] at absent
      obtain ⟨r₁, first, rest⟩ := run.foldlM_cons_eq_ok plain fun _ _ => scoped_padField ..
      rw [ih absent.2 rest, list_of_padField_other plain absent.1 first]
  unfold pad at h
  generalize d.fields = fields at names known h
  induction fields generalizing r with
  | nil => cases known
  | cons g fields ih =>
    rw [List.map_cons, List.nodup_cons] at names
    obtain ⟨r₁, first, rest⟩ := h.foldlM_cons_eq_ok plain fun _ _ => scoped_padField ..
    rcases List.mem_cons.1 known with rfl | later
    · obtain ⟨padding, length, fresh, after⟩ := list_of_padField plain repeats first
      exact ⟨padding, length, fresh, by rw [others names.1 rest, after]⟩
    · have differs : f.name ≠ g.name := by
        intro same
        exact names.1 (same ▸ List.mem_map_of_mem later)
      rw [← list_of_padField_other plain differs first]
      exact ih names.2 later rest

end Steps

/-- What a label starts with has no elements. -/
theorem ensures_defaultValue (d : TypeDef) {nested : d.Below → Record → String → Update Record}
    (inner : ∀ t r front, (nested t r front).Ensures fun r' => ∀ key, r'.list key = r.list key)
    (scope : ScopeId) (byName : Bool) (front : String) (r : Record) (v : FieldValue) :
    (d.defaultValue nested scope byName front r v).Ensures fun r' =>
      ∀ key, r'.list key = r.list key := by
  unfold defaultValue
  dsimp only
  split
  · exact .pure fun _ => rfl
  · exact (d.ensures_assignExpr v _ _).mono fun r' changes key => changes.lists key id
  · refine (Update.ensures_any _).andThen fun s => ?_
    split
    · exact .pure fun _ => rfl
    · exact inner _ r _
    · exact .pure fun _ => rfl

/-- Lists start empty. -/
theorem ensures_defaults (scope : ScopeId) (d : TypeDef) (r : Record) (front : String) :
    (d.defaults scope r front).Ensures fun r' => ∀ key, r'.list key = r.list key := by
  rw [defaults]
  refine Stays.foldlM (fun field _ r₁ before => .ite (fun _ => .pure fun key => ?_) fun _ => ?_)
    fun _ => rfl
  · rw [← before key]
    by_cases here : key = front ++ field.name
    · simp [here, Record.ensureList, Record.appendEntries]
    · exact Record.list_setList_of_ne here ..
  · refine Stays.foldlM (fun v _ r₂ before => ?_) before
    have each := d.ensures_defaultValue (fun t r front => ensures_defaults scope t.val r front) scope
      (field.synthesized && front.isEmpty) front r₂ v
    exact each.mono fun r₃ same key => (same key).trans (before key)
termination_by sizeOf d
decreasing_by exact t.2

/-! ### Lists of nested types -/

theorem front_of_listOf? {d : TypeDef} {front key : String} {path : List String}
    (h : d.listOf? front path = some key) : ∃ rest, key = front ++ rest := by
  rw [listOf?] at h
  split at h
  · cases h
  · rename_i target found
    have shorter : target.inner.length < path.length := length_inner_lt found
    split at h
    · cases h
      exact ⟨_, rfl⟩
    · split at h
      · cases h
      · simp only [Option.bind_eq_bind, Option.bind_eq_some_iff] at h
        obtain ⟨v, -, t, -, inner⟩ := h
        obtain ⟨rest, rfl⟩ := front_of_listOf? inner
        exact ⟨v.name ++ "." ++ rest, by simp only [String.append_assoc]⟩
termination_by path.length

/-- The lists of nested types have a point in their names. -/
theorem listOf?_ne_of_no_point {d : TypeDef} {f : Field} {a : Assignment}
    (pointless : '.' ∉ f.name.toList) (other : d.isTo f a = false) :
    d.listOf? "" a.path ≠ some f.name := by
  intro same
  rw [listOf?] at same
  split at same
  · cases same
  · rename_i target found
    split at same
    · have named : target.field.name = f.name := by simpa using same
      simp [isTo, found, named] at other
    · split at same
      · cases same
      · simp only [Option.bind_eq_bind, Option.bind_eq_some_iff] at same
        obtain ⟨v, -, t, -, inner⟩ := same
        obtain ⟨rest, named⟩ := front_of_listOf? inner
        rw [named] at pointless
        simp at pointless

end TypeDef

/-! ### The plan of a new resource -/

namespace BlockKind

variable {s t : Session} {arguments : List Argument} {container : Option String} {d : TypeDef}

/-- What the arguments without a reference say about the id and the name. -/
def naming? (d : TypeDef) (arguments : List Argument) : Option Naming :=
  let others := arguments.filter (·.reference?.isNone)
  if (d.constructor? others.length).isSome then some {} else Naming.ofArguments? others

theorem naming?_eq :
    naming? d arguments =
      if (d.constructor? (arguments.filter (·.reference?.isNone)).length).isSome then some {}
      else Naming.ofArguments? (arguments.filter (·.reference?.isNone)) := rfl

theorem target_eq_ok_iff {references : List GivenReference} {found : Option GivenReference} :
    target references s = .ok found t ↔ t = s ∧ references.length ≤ 1 ∧ found = references.head? := by
  match references with
  | [] => simpa [target] using pure_eq_ok_iff
  | [r] => simpa [target] using pure_eq_ok_iff
  | r :: extra :: more =>
    constructor
    · intro h
      cases h
    · simp

theorem explicit_eq_ok_iff {found given : Option GivenReference} {naming : Naming} :
    explicit found naming s = .ok given t ↔ t = s ∧ explicit found naming = pure given := by
  constructor
  · intro h
    unfold explicit at h ⊢
    cases found <;> cases id : naming.id <;> rw [id] at h <;> cases h <;> exact ⟨rfl, rfl⟩
  · rintro ⟨rfl, same⟩
    rw [same]
    rfl

theorem slotAt_eq_ok_iff {given : Option Reference} {origin : Lexeme} {slot : Reference} :
    slotAt d container given origin s = .ok slot t ↔ t = s ∧ s.slot d container given = .ok slot := by
  have run : slotAt d container given origin s = _ := bind_of_ok rfl
  rw [run]
  cases s.slot d container given with
  | ok slot' => exact pure_eq_ok_iff.trans (by simp [eq_comm])
  | error fault =>
    constructor
    · intro h
      cases h
    · simp

theorem start_new_eq_ok_iff {keyword : Lexeme} {slot : Reference} {name : Option String}
    {started : String × Option Record} :
    BlockKind.new.start keyword none slot name s = .ok started t ↔
      t = s ∧ s.resource? slot = none ∧ started = (name.getD "", none) := by
  have run : BlockKind.new.start keyword none slot name s = _ := bind_of_ok rfl
  rw [run]
  cases s.resource? slot with
  | some r =>
    constructor
    · intro h
      cases h
    · simp
  | none => exact pure_eq_ok_iff.trans (by simp)

/-- What the head of a block for a new resource comes to. -/
theorem plan_new_eq_ok_iff {keyword : Lexeme} {plan : BlockPlan} :
    BlockKind.new.plan d container keyword arguments s = .ok plan t ↔
      t = s ∧ (arguments.filterMap (·.reference?)).length ≤ 1 ∧ ∃ naming given,
        naming? d arguments = some naming ∧
        explicit (arguments.filterMap (·.reference?)).head? naming = pure given ∧
        s.slot d container (given.map (·.reference)) = .ok plan.reference ∧
        s.resource? plan.reference = none ∧
        plan = { reference := plan.reference, name := naming.name.getD "",
                 constructor :=
                  if (d.constructor? (arguments.filter (·.reference?.isNone)).length).isSome then
                    some ((arguments.filter (·.reference?.isNone)).map (·.value)) else none } := by
  have source : BlockKind.new.source d container keyword (arguments.filterMap (·.reference?)) =
    pure (none, arguments.filterMap (·.reference?)) := rfl
  unfold BlockKind.plan
  dsimp only
  rw [source, pure_bind, ← naming?_eq]
  dsimp only
  cases naming? d arguments with
  | none =>
    rw [bind_eq_ok_iff]
    constructor
    · rintro ⟨_, _, -, h⟩
      cases h
    · simp
  | some naming =>
    simp only [bind_eq_ok_iff, target_eq_ok_iff, explicit_eq_ok_iff, slotAt_eq_ok_iff,
      start_new_eq_ok_iff, pure_eq_ok_iff]
    constructor
    · rintro ⟨_, _, ⟨rfl, few, rfl⟩, _, _, ⟨rfl, rfl⟩, given, _, ⟨rfl, explicit⟩, _, _, ⟨rfl, place⟩, _, _,
        ⟨rfl, free, rfl⟩, rfl, rfl⟩
      exact ⟨rfl, few, _, given, rfl, explicit, place, free, rfl⟩
    · rintro ⟨rfl, few, _, given, ⟨⟩, explicit, place, free, built⟩
      exact ⟨_, _, ⟨rfl, few, rfl⟩, _, _, ⟨rfl, rfl⟩, given, _, ⟨rfl, explicit⟩, _, _, ⟨rfl, place⟩, _, _,
        ⟨rfl, free, rfl⟩, rfl, built⟩

end BlockKind

namespace Parse

/-- In the list of a repeatable field of a new resource there is one element for each assignment to all
of the field, and one before them if other assignments to the field come first; fresh elements follow up
to the lower bound. The elements have grown by the assignments to the field that came while they were the
last ones. This is so where no assignment to another field ends at a list of the same name; there is
none if the name has no point. -/
theorem elements_of_new {st t u : ParseState} {d : TypeDef} {container : Option String}
    {keyword : Lexeme} {arguments : List Argument} {f : Field} {rep : Repetition}
    (plain : st.session.Plain) (names : (d.fields.map (·.name)).Nodup) (known : f ∈ d.fields)
    (repeats : f.repetition = some rep)
    (head : blockHead st = .ok (some (.new, keyword, arguments)) u)
    (unbuilt : d.constructor? (arguments.filter (·.reference?.isNone)).length = none)
    (accepted : resourceBlock d container st = .ok () t) :
    ∃ run : BlockRun d container st, t = run.result ∧ run.kind = .new ∧
      run.arguments = arguments ∧
      ((∀ a ∈ run.assignments, d.isTo f a = false → d.listOf? "" a.path ≠ some f.name) →
        ∃ histories elements padding,
          d.Histories f (run.assignments.filter (d.isTo f)) histories ∧
          List.Forall₂ (d.GrownBy f run.opened.scopes run.scope) histories elements ∧
          elements.length = run.assignments.countP (d.isWhole f) +
            (if (run.assignments.filter (d.isTo f)).head?.any (!d.isWhole f ·) then 1 else 0) ∧
          padding.length = (rep.lower.toInt - elements.length).toNat ∧
          (∀ entry ∈ padding, d.GrownBy f run.opened.scopes run.scope [] entry) ∧
          run.resource.values.list f.name = (elements ++ padding).map st.session.withCodes) ∧
      ('.' ∉ f.name.toList →
        ∀ a ∈ run.assignments, d.isTo f a = false → d.listOf? "" a.path ≠ some f.name) := by
  obtain ⟨run, rfl, kind, -, given, -⟩ := exists_blockRun_of_head head accepted
  refine ⟨run, rfl, kind, given, fun apart => ?_, fun pointless a _ other =>
    TypeDef.listOf?_ne_of_no_point pointless other⟩
  have plans := run.plans
  rw [kind, given] at plans
  obtain ⟨-, -, naming, _, -, -, -, -, plan⟩ := BlockKind.plan_new_eq_ok_iff.1 plans
  have fresh : run.plan.start = none := by rw [plan]
  have alone : run.plan.constructor = none := by
    rw [plan]
    simp [unbuilt]
  have repeatable : f.isRepeatable = true := by rw [Field.isRepeatable, repeats]; rfl
  have only : ∀ g ∈ d.fields, g.name = f.name → g = f := fun g member same =>
    List.inj_on_of_nodup_map names member known same
  have steady := run.plain_opened plain
  obtain ⟨first, still⟩ := run.yields_first plain fresh alone
  obtain ⟨last, body, pads⟩ := (run.yields_complete plain still).bind_eq_ok steady
    (.foldlM (fun _ _ => d.scoped_assign ..) _) fun _ => d.scoped_pad ..
  have start : run.first.list f.name = [] :=
    ((TypeDef.ensures_defaults run.scope d {} "").of_yields first) f.name
  have empty : d.Told f run.opened.scopes run.scope [] (run.first.list f.name) :=
    ⟨[], .nil, by rw [start]; exact .nil⟩
  obtain ⟨histories, split, grown⟩ := empty.body steady repeatable only apart body
  obtain ⟨padding, length, filled, list⟩ := d.list_of_pad steady names known repeats pads
  refine ⟨histories, last.list f.name, padding, split, grown, ?_, length, filled, ?_⟩
  · rw [← grown.length_eq, split.length_eq, List.nil_append, List.countP_filter]
    congr 1
    refine List.countP_congr fun a _ => ?_
    simpa using TypeDef.isTo_of_isWhole
  · rw [run.values_eq, Session.withCodes_eq, Record.list_mapValues, list]
    rfl

end Parse

/-! ### Rows -/

namespace Sample

/-- In front of `new { cell = 5; cells = 6; };` -/
def newRow : ParseState :=
  ({} : Session).between default []
    [.bare .identifier "new", .bare .leftBrace, .bare .identifier "cell", .bare .equals, number 5,
      .bare .semicolon, .bare .identifier "cells", .bare .equals, number 6, .bare .semicolon,
      .bare .rightBrace, .bare .semicolon]

/-- The numbers under a key in the elements of a list. -/
def numbers (list key : String) (r : Resource) : List (Option Int64) :=
  (r.values.list list).map fun element => (element.get? key).bind integer?

theorem newRow_numbers :
    (match Parse.resourceBlock row none newRow with
      | .ok _ t => t.session.resources.all (numbers "cells" "cell" · == [some 5, some 6])
      | .error _ _ => false) = true := by
  rw [Parse.resourceBlock_eq_rest]
  decide +kernel

end Sample

theorem Parse.elements_of_new_row : ∃ (t : ParseState) (f : Field)
    (run : BlockRun Sample.row none Sample.newRow) (histories : List (List Assignment))
    (elements padding : List Record), resourceBlock Sample.row none Sample.newRow = .ok () t ∧
      t = run.result ∧ f ∈ Sample.row.fields ∧
      Sample.row.Histories f (run.assignments.filter (Sample.row.isTo f)) histories ∧
      List.Forall₂ (Sample.row.GrownBy f run.opened.scopes run.scope) histories elements ∧
      run.resource.values.list f.name = (elements ++ padding).map Sample.newRow.session.withCodes ∧
      Sample.numbers f.name "cell" run.resource = [some 5, some 6] := by
  have numbers := Sample.newRow_numbers
  have head : blockHead Sample.newRow = .ok (some (.new, .bare .identifier "new", []))
      { Sample.newRow with cursor := Sample.newRow.cursor.advance } := rfl
  cases accepted : resourceBlock Sample.row none Sample.newRow with
  | error failure t =>
    rw [accepted] at numbers
    cases numbers
  | ok _ t =>
    simp only [accepted, List.all_eq_true, beq_iff_eq] at numbers
    have plain : Sample.newRow.session.Plain := Scopes.Plain.initial
    obtain ⟨run, rfl, -, -, elements, pointless⟩ := elements_of_new plain (by simp [Sample.row])
      List.mem_cons_self rfl head rfl accepted
    obtain ⟨histories, elements, padding, split, grown, -, -, -, list⟩ :=
      elements (pointless (by decide))
    exact ⟨_, _, run, histories, elements, padding, rfl, rfl, List.mem_cons_self, split, grown, list,
      numbers _ run.stores_resource.self_mem⟩

namespace Sample

/-- A field that is called like the list of the type that is nested beside it. -/
def namesake : Field where
  name := "row.cells"
  values := [{ name := "weight", origin := here "weight" }]
  repetition := some ⟨0, 3, "count"⟩
  origin := here "row.cells"

/-- A type with a row, and a list that has the name of the row's list. -/
def shelf : TypeDef where
  name := "Shelf"
  code := "SHLF"
  template :=
    { entries := [{ label := "row", tag := .nested "Row", nested := some row },
        { label := "count", tag := .count }, { label := "begin", tag := .listStart },
        { label := "weight", tag := .integer .two true }, { label := "end", tag := .listEnd }]
      groups := [⟨1, 2, 4⟩] }
  fields := [Field.synthesize "row" (here "row"), namesake]

/-- In front of `new { row.cells = 5; };` -/
def newShelf : ParseState :=
  ({} : Session).between default []
    [.bare .identifier "new", .bare .leftBrace, .bare .identifier "row", .bare .dot,
      .bare .identifier "cells", .bare .equals, number 5, .bare .semicolon, .bare .rightBrace,
      .bare .semicolon]

end Sample

/-- An assignment that is not to the field makes an element of its list. -/
theorem Parse.elements_of_namesake :
    (match resourceBlock Sample.shelf none Sample.newShelf with
      | .ok _ t => t.session.resources.map fun r => (r.values.list Sample.namesake.name).length
      | .error _ _ => []) = [1] ∧
    ∀ operands origin, Sample.shelf.isTo Sample.namesake ⟨["row", "cells"], operands, origin⟩ = false := by
  constructor
  · rw [resourceBlock_eq_rest]
    decide +kernel
  · intro operands origin
    have other : (Sample.shelf.targetOf? ["row", "cells"]).any
        (·.field.name == Sample.namesake.name) = false := by decide +kernel
    exact other

end Rsrc
