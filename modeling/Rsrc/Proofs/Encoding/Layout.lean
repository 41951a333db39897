import Rsrc.Encoding.Decode

/-!
# Templates and the types behind them

Encoding and decoding recurse through `TypeDef.layout`, where every nested type is known to be
smaller. Nothing they do depends on that knowledge: sections, cells and the bytes of both are natural
in what an entry points at. So both satisfy the equation over the template itself, which is what
later proofs use.
-/

namespace Rsrc

variable {τ σ : Type} {h : τ → σ}

/-- Changes what an entry points at. -/
def Entry.map (h : τ → σ) (e : Entry τ) : Entry σ :=
  { label := e.label, tag := e.tag, nested := e.nested.map h, size := e.size }

@[simp] theorem Entry.map_label (e : Entry τ) : (e.map h).label = e.label := rfl

@[simp] theorem Entry.map_tag (e : Entry τ) : (e.map h).tag = e.tag := rfl

def Section.map (h : τ → σ) : Section τ → Section σ
  | .plain entries => .plain (entries.map (Entry.map h))
  | .list count members => .list (count.map h) (members.map (Entry.map h))

def Cell.map (h : τ → σ) : Cell τ → Cell σ
  | .bits run => .bits (run.map (Entry.map h))
  | .one e => .one (e.map h)

/-- The type itself. -/
def TypeDef.Below.type {d : TypeDef} (t : d.Below) : TypeDef := t.val

/-! ### Sections and cells -/

theorem Section.ofPlain_map (run : List (Entry τ)) :
    ofPlain (run.map (Entry.map h)) = (ofPlain run).map (Section.map h) := by
  cases run with
  | nil => rfl
  | cons e run => simp [ofPlain, Section.map]

theorem Section.outside_inside_map (es : List (Entry τ)) :
    (∀ run, outside (run.map (Entry.map h)) (es.map (Entry.map h)) =
      (outside run es).map (Section.map h)) ∧
    ∀ count members, inside (count.map h) (members.map (Entry.map h)) (es.map (Entry.map h)) =
      (inside count members es).map (Section.map h) := by
  induction es with
  | nil =>
    refine ⟨fun run => ?_, fun count members => ?_⟩
    · simp only [List.map_nil, outside, ofPlain_map]
    · simp [inside, Section.map]
  | cons e es ih =>
    obtain ⟨out, within⟩ := ih
    refine ⟨fun run => ?_, fun count members => ?_⟩
    · rw [List.map_cons, outside, outside, Entry.map_tag]
      have counted := within e []
      have fresh := out []
      have longer := out (e :: run)
      simp only [List.map_nil, List.map_cons] at counted fresh longer
      split <;> simp only [ofPlain_map, counted, fresh, longer, List.map_append]
    · rw [List.map_cons, inside, inside, Entry.map_tag]
      have fresh := out []
      have longer := within count (e :: members)
      simp only [List.map_nil, List.map_cons] at fresh longer
      split <;> simp [within, fresh, longer, Section.map]

theorem Cell.ofRun_map (run : List (Entry τ)) :
    ofRun (run.map (Entry.map h)) = (ofRun run).map (Cell.map h) := by
  cases run with
  | nil => rfl
  | cons e run => simp [ofRun, Cell.map]

theorem Cell.ofEntriesBehind_map (es run : List (Entry τ)) :
    ofEntriesBehind (run.map (Entry.map h)) (es.map (Entry.map h)) =
      (ofEntriesBehind run es).map (Cell.map h) := by
  induction es generalizing run with
  | nil => simp only [List.map_nil, ofEntriesBehind, ofRun_map]
  | cons e es ih =>
    have longer := ih (run ++ [e])
    have fresh := ih []
    simp only [List.map_append, List.map_cons, List.map_nil] at longer fresh
    rw [List.map_cons, ofEntriesBehind, ofEntriesBehind, Entry.map_tag, List.length_map]
    by_cases bit : e.tag = .bit
    · by_cases short : run.length < 7
      · simp only [if_pos bit, if_pos short, longer]
      · simp [if_pos bit, if_neg short, fresh, Cell.map]
    · simp [if_neg bit, ofRun_map, fresh, Cell.map]

theorem Cell.ofEntries_map (es : List (Entry τ)) :
    ofEntries (es.map (Entry.map h)) = (ofEntries es).map (Cell.map h) :=
  ofEntriesBehind_map es []

theorem TypeDef.layout_order (d : TypeDef) : d.layout.order = d.template.order := rfl

theorem TypeDef.layout_entries (d : TypeDef) :
    d.layout.entries.map (Entry.map TypeDef.Below.type) = d.template.entries := by
  simp only [layout, Template.mapNested, List.map_map]
  refine Eq.trans ?_ (List.attach_map_subtype_val d.template.entries)
  refine List.map_congr_left ?_
  -- The membership that `attach` adds is only used to bound what is nested.
  rintro ⟨⟨label, tag, nested, size⟩, member⟩ _
  cases nested <;> rfl

theorem TypeDef.layout_sections (d : TypeDef) :
    d.layout.sections.map (Section.map TypeDef.Below.type) = d.template.sections := by
  rw [Template.sections, Template.sections, ← layout_entries d]
  exact ((Section.outside_inside_map _).1 []).symm

/-! ### Encoding -/

namespace Encoding

variable (s : Subject) (format : Format) (order : ByteOrder) (nested : Nested σ) (h : τ → σ)

theorem concat_map {α β : Type} (f : β → Except EncodingError (List UInt8)) (g : α → β)
    (items : List α) : concat f (items.map g) = concat (fun a => f (g a)) items := by
  induction items with
  | nil => rfl
  | cons a items ih => rw [List.map_cons, concat, concat, ih]

theorem cell_map (r : Record) (front : String) (c : Cell τ) :
    cell s format order nested r front (c.map h) =
      cell s format order (fun t => nested (h t)) r front c := by
  cases c with
  | bits run => simp only [Cell.map, cell, List.mapM_map, Function.comp_def, Entry.map_label]
  | one e =>
    obtain ⟨label, tag, inner, size⟩ := e
    cases tag <;> cases inner <;> rfl

theorem entries_map (r : Record) (front : String) (es : List (Entry τ)) :
    entries s format order nested r front (es.map (Entry.map h)) =
      entries s format order (fun t => nested (h t)) r front es := by
  rw [entries, entries, Cell.ofEntries_map, concat_map]
  simp only [cell_map]

theorem sectionBytes_map (fields : List Field) (r : Record) (front : String) (part : Section τ) :
    sectionBytes s format order fields nested r front (part.map h) =
      sectionBytes s format order fields (fun t => nested (h t)) r front part := by
  cases part with
  | plain es => exact entries_map s format order nested h r front es
  | list count members =>
    simp only [Section.map, sectionBytes, entries_map, Entry.map_label]
    rfl

end Encoding

/-- Encoding over the template itself. -/
theorem TypeDef.encode_eq (s : Subject) (format : Format) (d : TypeDef) (r : Record)
    (front : String) :
    d.encode s format r front =
      Encoding.concat (Encoding.sectionBytes s format d.template.order d.fields
        (fun t r front => t.encode s format r front) r front) d.template.sections := by
  rw [encode, ← layout_sections, Encoding.concat_map]
  simp only [Encoding.sectionBytes_map, layout_order]
  rfl

/-! ### Decoding -/

namespace Decoding

variable (format : Format) (order : ByteOrder) (nested : Nested σ) (h : τ → σ)

theorem foldl_zip_map (front : String) (es : List (Entry τ)) (bits : List Bool) (r : Record) :
    ((es.map (Entry.map h)).zip bits).foldl
        (fun r (e, b) => r.set (front ++ e.label) (.boolean b)) r =
      (es.zip bits).foldl (fun r (e, b) => r.set (front ++ e.label) (.boolean b)) r := by
  rw [List.zip_map_left, List.foldl_map]
  rfl

theorem cell_map (front : String) (r : Record) (c : Cell τ) :
    cell format order nested front r (c.map h) =
      cell format order (fun t => nested (h t)) front r c := by
  cases c with
  | bits run =>
    cases run with
    | nil => rfl
    | cons e run =>
      have whole := foldl_zip_map h front (e :: run)
      rw [List.map_cons] at whole
      simp only [Cell.map, List.map_cons, cell, Entry.map_label, List.length_map, whole]
  | one e =>
    obtain ⟨label, tag, inner, size⟩ := e
    cases tag <;> cases inner <;> rfl

theorem entries_map (front : String) (r : Record) (es : List (Entry τ)) :
    entries format order nested front r (es.map (Entry.map h)) =
      entries format order (fun t => nested (h t)) front r es := by
  rw [entries, entries, Cell.ofEntries_map, List.foldlM_map]
  simp only [cell_map]

theorem readSection_map (fields : List Field) (front : String) (r : Record) (part : Section τ) :
    readSection format order fields nested front r (part.map h) =
      readSection format order fields (fun t => nested (h t)) front r part := by
  cases part with
  | plain es => exact entries_map format order nested h front r es
  | list count members => simp only [Section.map, readSection, entries_map, Entry.map_label]

end Decoding

/-- Decoding over the template itself. -/
theorem TypeDef.decodeInto_eq (format : Format) (d : TypeDef) (r : Record) (front : String) :
    d.decodeInto format r front =
      d.template.sections.foldlM (Decoding.readSection format d.template.order d.fields
        (fun t r front => t.decodeInto format r front) front) r := by
  rw [decodeInto, ← layout_sections, List.foldlM_map]
  simp only [Decoding.readSection_map]
  rfl

end Rsrc
