import Rsrc.Proofs.Encoding.Section

/-!
# What encoding reads

The bytes of a record are made of what it has in the slots of its type. Records that agree there have
the same bytes (`TypeDef.encode_congr`), so a value anywhere else is lost.
-/

namespace Rsrc

variable {τ : Type}

/-- Two records have the same in the slots. -/
def Slot.Agree (r r' : Record) (slots : List Slot) : Prop :=
  (∀ key tag, .value key tag ∈ slots → r.get? key = r'.get? key) ∧
    ∀ key owned members, .list key owned members ∈ slots → r.list key = r'.list key

theorem Slot.Agree.mono {r r' : Record} {slots slots' : List Slot} (h : Agree r r' slots')
    (subset : slots ⊆ slots') : Agree r r' slots :=
  ⟨fun key tag member => h.1 key tag (subset member),
    fun key owned members member => h.2 key owned members (subset member)⟩

namespace Encoding

open Slot (Agree)

theorem concat_congr {α : Type} {f g : α → Except EncodingError (List UInt8)} {items : List α}
    (h : ∀ a ∈ items, f a = g a) : concat f items = concat g items := by
  induction items with
  | nil => rfl
  | cons a items ih =>
    rw [concat, concat, h a List.mem_cons_self, ih fun b member => h b (List.mem_cons_of_mem _ member)]

/-- The bytes of a nested type are made of what is in its slots. -/
def Confined (nested : Nested τ) (slots : τ → String → List Slot) (t : τ) : Prop :=
  ∀ r r' front, Agree r r' (slots t front) → nested t r front = nested t r' front

variable (s : Subject) (format : Format) (order : ByteOrder) {nested : Nested τ}
  {slots : τ → String → List Slot} {r r' : Record} {front : String}

theorem bits_congr {run : List (Entry τ)} (bits : ∀ e ∈ run, e.tag = .bit)
    (agree : ∀ e ∈ run, Agree r r' (Slot.ofEntry slots front e)) :
    (run.mapM fun e => booleanOf s (front ++ e.label) (r.get? (front ++ e.label))) =
      run.mapM fun e => booleanOf s (front ++ e.label) (r'.get? (front ++ e.label)) := by
  induction run with
  | nil => rfl
  | cons e run ih =>
    have same : r.get? (front ++ e.label) = r'.get? (front ++ e.label) := by
      refine (agree e List.mem_cons_self).1 _ .bit ?_
      simp [Slot.ofEntry, bits e List.mem_cons_self]
    rw [List.mapM_cons, List.mapM_cons, same,
      ih (fun e member => bits e (List.mem_cons_of_mem _ member))
        fun e member => agree e (List.mem_cons_of_mem _ member)]

theorem one_congr {e : Entry τ} (confined : ∀ t, e.nested = some t → Confined nested slots t)
    (agree : Agree r r' (Slot.ofEntry slots front e)) :
    cell s format order nested r front (.one e) = cell s format order nested r' front (.one e) := by
  have sides (label : String)
      (h : ∀ name ∈ rectSides, r.get? (label ++ "." ++ name) = r'.get? (label ++ "." ++ name)) :
      concat (fun name => side s order (label ++ "." ++ name) (r.get? (label ++ "." ++ name))) rectSides =
        concat (fun name => side s order (label ++ "." ++ name) (r'.get? (label ++ "." ++ name)))
          rectSides :=
    concat_congr fun name member => by rw [h name member]
  have plain (name : String) (member : name ∈ rectSides)
      (made : Slot.ofEntry slots front e = rectSides.map fun side =>
        .value (front ++ e.label ++ "." ++ side) (.integer .two true)) :
      r.get? (front ++ e.label ++ "." ++ name) = r'.get? (front ++ e.label ++ "." ++ name) := by
    refine agree.1 _ (.integer .two true) ?_
    rw [made]
    exact List.mem_map.2 ⟨name, member, rfl⟩
  obtain ⟨label, tag, inner, size⟩ := e
  cases tag with
  | rect =>
    cases inner with
    | none => exact sides _ fun name member => plain name member rfl
    | some t => exact confined t rfl r r' _ agree
  | nested name =>
    cases inner with
    | none => exact sides _ fun name member => plain name member rfl
    | some t => exact confined t rfl r r' _ agree
  | _ =>
    have same : r.get? (front ++ label) = r'.get? (front ++ label) :=
      agree.1 _ _ (List.mem_singleton_self _)
    simp only [cell, same]

theorem cell_congr {c : Cell τ} (formed : c.WellFormed)
    (confined : ∀ e ∈ c.entries, ∀ t, e.nested = some t → Confined nested slots t)
    (agree : ∀ e ∈ c.entries, Agree r r' (Slot.ofEntry slots front e)) :
    cell s format order nested r front c = cell s format order nested r' front c := by
  cases c with
  | bits run => rw [cell, cell, bits_congr s formed.2.2 agree]
  | one e =>
    exact one_congr s format order (confined e (List.mem_singleton_self e))
      (agree e (List.mem_singleton_self e))

theorem entries_congr {es : List (Entry τ)}
    (confined : ∀ e ∈ es, ∀ t, e.nested = some t → Confined nested slots t)
    (agree : Agree r r' (es.flatMap (Slot.ofEntry slots front))) :
    entries s format order nested r front es = entries s format order nested r' front es := by
  refine concat_congr fun c member => ?_
  refine cell_congr s format order (Cell.wellFormed_ofEntries c member)
    (fun e here => confined e (Cell.mem_of_mem_ofEntries member here)) fun e here => agree.mono ?_
  exact fun slot known => List.mem_flatMap.2 ⟨e, Cell.mem_of_mem_ofEntries member here, known⟩

theorem sectionBytes_congr {fields : List Field} {part : Section τ}
    (confined : ∀ e ∈ part.entries, ∀ t, e.nested = some t → Confined nested slots t)
    (agree : Agree r r' (Slot.ofSection fields slots front part)) :
    sectionBytes s format order fields nested r front part =
      sectionBytes s format order fields nested r' front part := by
  cases part with
  | plain es => exact entries_congr s format order confined agree
  | list count members =>
    have elements : (listOwner? fields count.label).map (fun f => r.list (front ++ f.name)) =
        (listOwner? fields count.label).map fun f => r'.list (front ++ f.name) := by
      cases owner : listOwner? fields count.label with
      | none => rfl
      | some f =>
        have same : r.list (front ++ f.name) = r'.list (front ++ f.name) := by
          refine agree.2 _ true (members.flatMap (Slot.ofEntry slots "")) ?_
          simp [Slot.ofSection, owner]
        rw [Option.map_some, Option.map_some, same]
    simp only [sectionBytes, elements]

end Encoding

/-- Encoding reads nothing but slots. -/
theorem TypeDef.encode_congr (s : Subject) (format : Format) {d : TypeDef}
    (validated : d.Everywhere Validated) :
    Encoding.Confined (fun t r front => t.encode s format r front) slots d := by
  induction validated with
  | @intro d here nested ih =>
    intro r r' front agree
    have balanced := here.balanced
    rw [slots_eq] at agree
    dsimp only
    rw [encode_eq, encode_eq]
    refine Encoding.concat_congr fun part known => ?_
    refine Encoding.sectionBytes_congr s format _
      (fun e member t found => ih e (mem_template balanced known member).1 t found) (agree.mono ?_)
    exact fun slot member => List.mem_flatMap.2 ⟨part, known, member⟩

end Rsrc
