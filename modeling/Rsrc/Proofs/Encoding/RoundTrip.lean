import Rsrc.Proofs.Encoding.Regular

/-!
# Decoding gives back what was encoded

Two facts about every resource that can be encoded. Its bytes delimit themselves, unless they end in
hexadecimal data; and decoding them gives the canonical form of its values.
-/

namespace Rsrc

open Decoding (Reads)

/-! ### Data at the end -/

namespace Slot

theorem allInto_append (read : Tag → Option Value → Value) (source : Record)
    (front back : List Slot) (target : Record) :
    allInto read source (front ++ back) target =
      allInto read source back (allInto read source front target) := by
  simp only [allInto_eq_foldl, List.foldl_append]

theorem allHold_append {P : Tag → Option Value → Prop} {source : Record} {front back : List Slot}
    (h : AllHold P source (front ++ back)) : AllHold P source front ∧ AllHold P source back :=
  ⟨allHold_iff.2 fun slot member => allHold_iff.1 h slot (List.mem_append_left _ member),
    allHold_iff.2 fun slot member => allHold_iff.1 h slot (List.mem_append_right _ member)⟩

end Slot

namespace TypeDef

/-- Data up to the end is in the last entry of the type itself, if it is anywhere. -/
structure DataLast (d : TypeDef) : Prop where
  before : ∀ e ∈ d.template.entries.dropLast, e.tag ≠ .data
  nested : ∀ e ∈ d.template.entries, ∀ t, e.nested = some t → t.Everywhere Delimited

theorem DataLast.split {d : TypeDef} (h : d.DataLast) (someData : ¬ d.Delimited) :
    ∃ es e, d.template.entries = es ++ [e] ∧ e.tag = .data ∧ ∀ x ∈ es, x.tag ≠ .data := by
  have before := h.before
  rcases List.eq_nil_or_concat d.template.entries with none | ⟨es, e, split⟩
  · exact absurd (by simp [Delimited, none]) someData
  · rw [List.concat_eq_append] at split
    rw [split, List.dropLast_concat] at before
    refine ⟨es, e, split, ?_, before⟩
    by_contra other
    refine someData fun x member => ?_
    rw [split, List.mem_append, List.mem_singleton] at member
    rcases member with inside | rfl
    · exact before x inside
    · exact other

/-- A section that ends in data is read back from its bytes alone. -/
theorem run_entries_data {τ : Type} {s : Subject} {format : Format} {order : ByteOrder}
    {encode : Encoding.Nested τ} {decode : Decoding.Nested τ} {slots : τ → String → List Slot}
    {source : Record} {front : String} {bytes : List UInt8} {es : List (Entry τ)} {e : Entry τ}
    (closed : ∀ e ∈ es, e.Closed)
    (readable : ∀ e ∈ es, e.Readable format encode decode slots) (data : e.tag = .data)
    (free : Slot.AllHold Slot.NulFree source ((es ++ [e]).flatMap (Slot.ofEntry slots front)))
    (h : Encoding.entries s format order encode source front (es ++ [e]) = .ok bytes)
    (target : Record) :
    (Decoding.entries format order decode front target (es ++ [e])).run bytes =
      .ok (Slot.allInto (Slot.readBack format) source
        ((es ++ [e]).flatMap (Slot.ofEntry slots front)) target, []) := by
  obtain ⟨label, tag, nested, size⟩ := e
  obtain rfl : tag = .data := data
  have cells := Cell.ofEntriesBehind_concat
    (e := ⟨label, .data, nested, size⟩) (by simp) ([] : List (Entry τ)) es
  -- Data is a cell of its own. All cells before it take their own bytes, and it takes the rest.
  rw [List.flatMap_append] at free ⊢
  rw [Encoding.entries, Cell.ofEntries, cells] at h
  rw [Decoding.entries, Cell.ofEntries, cells, List.foldlM_append, Slot.allInto_append]
  obtain ⟨before, last, found, found', rfl⟩ := Encoding.concat_append_eq_ok h
  refine Decoding.run_bind_of_reads
    (reads_entries closed readable (Slot.allHold_append free).1 found target) ?_
  have value : (Decoding.value format order .data (front ++ label)).run last =
      .ok (Slot.canonicalValue format .data (source.get? (front ++ label)), []) :=
    Slot.run_data (s := s) (Encoding.concat_singleton_eq_ok found')
  rw [List.foldlM_cons]
  refine (Decoding.run_bind_ok (Decoding.run_bind_ok value)).trans ?_
  rfl

/-- Types that may end in data are read back from their bytes alone. -/
theorem run_decodeInto {s : Subject} {format : Format} {d : TypeDef}
    (balanced : d.Everywhere fun t => Template.Balanced t.template.entries)
    (dataLast : d.DataLast) {source : Record} {front : String} {bytes : List UInt8}
    (free : Slot.AllHold Slot.NulFree source (d.slots front))
    (h : d.encode s format source front = .ok bytes) (target : Record) :
    (d.decodeInto format target front).run bytes =
      .ok (Slot.allInto (Slot.readBack format) source (d.slots front) target, []) := by
  obtain ⟨here, nested⟩ := balanced
  have sound : ∀ e ∈ d.template.entries, ∀ t, e.nested = some t →
      t.Everywhere fun t => Template.Balanced t.template.entries ∧ t.Delimited :=
    fun e member t found => (nested e member t found).and (dataLast.nested e member t found)
  have readable : ∀ e ∈ d.template.entries, e.Readable format
      (fun t r front => t.encode s format r front) (fun t r front => t.decodeInto format r front)
      TypeDef.slots :=
    fun e member t found source front bytes free h =>
      reads_decodeInto s format (sound e member t found) source front bytes free h
  by_cases delimited : d.Delimited
  · have whole : d.Everywhere fun t => Template.Balanced t.template.entries ∧ t.Delimited :=
      .intro ⟨here, delimited⟩ sound
    simpa using (reads_decodeInto s format whole source front bytes free h target).all []
  · -- The last section ends in data, and the sections before it are closed.
    obtain ⟨es, e, split, data, before⟩ := dataLast.split delimited
    rw [split] at here
    have free' : e.tag.isListMarker = false := by rw [data]; rfl
    obtain ⟨parts, last, sections, others⟩ := Section.exists_last here free'
    have known (part : Section TypeDef) (inside : part ∈ parts ++ [.plain last]) (x : Entry TypeDef)
        (member : x ∈ part.entries) : x ∈ d.template.entries ∧ x.Closed := by
      obtain ⟨among, plain⟩ := others part inside x member
      exact ⟨by simp [split, among], plain, before x among⟩
    have inParts (part : Section TypeDef) (inside : part ∈ parts) :=
      known part (List.mem_append_left _ inside)
    have inLast := known (.plain last) (List.mem_append_right _ (List.mem_singleton_self _))
    have sections' : d.template.sections = parts ++ [.plain (last ++ [e])] := by
      rw [Template.sections, split, sections]
    rw [slots_eq, sections', List.flatMap_append, List.flatMap_singleton] at free ⊢
    rw [encode_eq, sections'] at h
    rw [decodeInto_eq, sections', List.foldlM_append, Slot.allInto_append]
    obtain ⟨first, rest, found, found', rfl⟩ := Encoding.concat_append_eq_ok h
    obtain ⟨freeParts, freeLast⟩ := Slot.allHold_append free
    refine Decoding.run_bind_of_reads (reads_sections
      (fun part inside x member => (inParts part inside x member).2)
      (fun part inside x member => readable x (inParts part inside x member).1)
      freeParts found target) ?_
    have read := run_entries_data (fun x member => (inLast x member).2)
      (fun x member => readable x (inLast x member).1) data freeLast
      (Encoding.concat_singleton_eq_ok found')
      (Slot.allInto (Slot.readBack format) source
        (parts.flatMap (Slot.ofSection d.fields TypeDef.slots front)) target)
    rw [List.foldlM_cons]
    exact Decoding.run_bind_ok read

end TypeDef

/-! ### A resource to try them on -/

namespace Sample

variable {tail : List (Entry TypeDef)}

def point : TypeDef where
  name := "Point"
  code := "PONT"
  template :=
    { order := .little
      entries := [{ label := "x", tag := .integer .two true },
        { label := "y", tag := .integer .two false }] }

def marks : Field where
  name := "marks"
  repetition := some ⟨0, 3, "count"⟩
  origin := { kind := .identifier, text := "marks", start := 0, stop := 5, source := default }

/-- A text, a bit, a nested point, a list of references, and possibly more. -/
def shape (tail : List (Entry TypeDef)) : TypeDef where
  name := "Shape"
  code := "SHAP"
  template :=
    { entries := [{ label := "title", tag := .terminatedText }, { label := "open", tag := .bit },
        { label := "center", tag := .nested "Point", nested := some point },
        { label := "count", tag := .count }, { label := "begin", tag := .listStart },
        { label := "mark", tag := .reference }, { label := "end", tag := .listEnd }] ++ tail
      groups := [⟨3, 4, 6⟩] }
  fields := [marks]

def picture : Reference := { id := 7, typeCode := some "PICT" }

def values : Record where
  values := .ofList
    [("title", .string "Ab"), ("center.y", .integer (-2)), ("rest", .string "+5 0a")]
  lists := .ofList [("marks", [{}, { values := .ofList [("mark", .reference picture)] }])]

def resource (tail : List (Entry TypeDef)) : Resource :=
  { reference := { id := 1 }, definition := shape tail, values }

/-- Hexadecimal data at the end. -/
def rest : Entry TypeDef := { label := "rest", tag := .data }

theorem nested_shape (flat : ∀ e ∈ tail, e.nested = none) {e : Entry TypeDef}
    (h : e ∈ (shape tail).template.entries) {t : TypeDef} (found : e.nested = some t) :
    t = point := by
  rcases List.mem_append.1 h with inside | behind
  · simp only [List.mem_cons, List.not_mem_nil, or_false] at inside
    rcases inside with rfl | rfl | rfl | rfl | rfl | rfl | rfl <;> cases found
    rfl
  · rw [flat e behind] at found
    cases found

theorem everywhere_point {P : TypeDef → Prop} (h : P point) : point.Everywhere P := by
  refine .intro h fun e member t found => ?_
  simp only [point, List.mem_cons, List.not_mem_nil, or_false] at member
  rcases member with rfl | rfl <;> cases found

theorem slots_shape (parts : List Slot)
    (h : (Section.outside [] tail).flatMap (Slot.ofSection [marks] TypeDef.slots "") = parts) :
    (shape tail).slots "" =
      [.value "title" .terminatedText, .value "open" .bit, .value "center.x" (.integer .two true),
        .value "center.y" (.integer .two false),
        .list "marks" true [.value "mark" .reference]] ++ parts := by
  have inner : point.slots "center." =
      [.value "center.x" (.integer .two true), .value "center.y" (.integer .two false)] := by
    rw [TypeDef.slots_eq]
    rfl
  rw [TypeDef.slots_eq, ← h]
  change [_, _] ++ (point.slots "center." ++ []) ++ _ = _
  rw [inner]
  rfl

theorem title_free : Slot.Holds Slot.NulFree values (.value "title" .terminatedText) := by
  change '\x00' ∉ "Ab".toList
  decide

theorem point_built : point.Built :=
  .template (t := { order := .little, entries := point.template.entries })
    (.new "Point" "PONT" {} none) (.ofEntries .little (by decide)) rfl

theorem encode_shape (bytes : List UInt8)
    (h : ∀ s, Encoding.concat (Encoding.sectionBytes s .classic .big [marks]
      (fun t r front => t.encode s .classic r front) values "") (Section.outside [] tail) =
      .ok bytes) :
    (resource tail).encode .classic =
      .ok ([65, 98, 0, 0, 0, 0, 0xFE, 0xFF] ++ ([0, 2, 0xFF, 0xFF, 0, 7] ++ bytes)) := by
  have title (s : Subject) : Encoding.value s .classic .big .terminatedText "title"
      (values.get? "title") = .ok [65, 98, 0] := by
    have text : Text.encode "Ab" = [65, 98] := by
      rw [Text.encode_eq]
      rfl
    exact congrArg (fun stored => Except.ok (stored ++ [0])) text
  have inner (s : Subject) :
      point.encode s .classic values "center." = .ok [0, 0, 0xFE, 0xFF] := by
    rw [TypeDef.encode_eq]
    rfl
  have list (s : Subject) (nested : Encoding.Nested TypeDef) :
      Encoding.sectionBytes s .classic .big [marks] nested values ""
        (.list { label := "count", tag := .count } [{ label := "mark", tag := .reference }]) =
        .ok [0, 2, 0xFF, 0xFF, 0, 7] := rfl
  rw [Resource.encode, TypeDef.encode_eq]
  refine Encoding.concat_cons (x := [65, 98, 0, 0, 0, 0, 0xFE, 0xFF]) ?_ ?_
  · refine Encoding.concat_cons (x := [65, 98, 0]) (title _) ?_
    refine Encoding.concat_cons (x := [0]) rfl ?_
    exact Encoding.concat_cons (x := [0, 0, 0xFE, 0xFF]) (inner _) rfl
  · exact Encoding.concat_cons (x := [0, 2, 0xFF, 0xFF, 0, 7]) (list _ _) (h _)

end Sample

/-- Encoded resources delimit themselves: what follows them changes nothing, and nothing short of
them can be read. -/
theorem Resource.encode_delimits {format : Format} {r : Resource} {bytes : List UInt8}
    (validated : r.definition.Everywhere TypeDef.Validated)
    (delimited : r.definition.Everywhere TypeDef.Delimited)
    (free : Slot.AllHold Slot.NulFree r.values (r.definition.slots ""))
    (h : r.encode format = .ok bytes) :
    (∃ values, r.definition.decode format bytes = .ok values ∧
      ∀ rest, r.definition.decode format (bytes ++ rest) = .ok values) ∧
    ∀ front back, front ++ back = bytes → back ≠ [] →
      ∃ key, r.definition.decode format front = .error (.truncated key) := by
  have sound := (validated.mono fun t => TypeDef.Validated.balanced).and delimited
  have read := TypeDef.reads_decodeInto r.subject format sound r.values "" bytes free h {}
  have longer : ∀ rest, r.definition.decode format (bytes ++ rest) = .ok
      (Slot.allInto (Slot.readBack format) r.values (r.definition.slots "") {}) := by
    intro rest
    rw [TypeDef.decode, read.all]
    rfl
  refine ⟨⟨_, ?_, longer⟩, ?_⟩
  · simpa using longer []
  · intro front back split nonempty
    obtain ⟨key, short⟩ := read.cut front back split nonempty
    refine ⟨key, ?_⟩
    rw [TypeDef.decode, short]
    rfl

theorem Sample.shape_delimits :
    (∃ values, (shape []).decode .classic [65, 98, 0, 0, 0, 0, 0xFE, 0xFF, 0, 2, 0xFF, 0xFF, 0, 7] =
        .ok values ∧
      ∀ rest, (shape []).decode .classic
        ([65, 98, 0, 0, 0, 0, 0xFE, 0xFF, 0, 2, 0xFF, 0xFF, 0, 7] ++ rest) = .ok values) ∧
    ∀ front back, front ++ back = [65, 98, 0, 0, 0, 0, 0xFE, 0xFF, 0, 2, 0xFF, 0xFF, 0, 7] →
      back ≠ [] → ∃ key, (shape []).decode .classic front = .error (.truncated key) := by
  refine Resource.encode_delimits (r := resource []) ?_ ?_ ?_ (encode_shape [] fun _ => rfl)
  · refine .intro ⟨{ entries := (shape []).template.entries }, rfl⟩ fun e member t found => ?_
    rw [nested_shape (by simp) member found]
    exact everywhere_point ⟨point.template, rfl⟩
  · refine .intro (by simp [TypeDef.Delimited, resource, shape]) fun e member t found => ?_
    rw [nested_shape (by simp) member found]
    exact everywhere_point (by simp [TypeDef.Delimited, point])
  · change Slot.AllHold Slot.NulFree values ((shape []).slots "")
    rw [slots_shape [] rfl]
    exact ⟨title_free, trivial, trivial, trivial, fun _ _ _ => ⟨trivial, trivial⟩, trivial⟩

/-- Decoding undoes encoding: the bytes of a resource are read back as the canonical form of its
values. -/
theorem Resource.decode_encode {format : Format} {r : Resource} {bytes : List UInt8}
    (regular : r.definition.Everywhere TypeDef.Regular) (dataLast : r.definition.DataLast)
    (free : Slot.AllHold Slot.NulFree r.values (r.definition.slots ""))
    (codes : Slot.AllHold Slot.FourByteCode r.values (r.definition.slots ""))
    (h : r.encode format = .ok bytes) :
    r.definition.decode format bytes = .ok (r.definition.canonical format r.values) := by
  have balanced := regular.mono fun t regular => regular.built.consistent.validated.balanced
  have distinct := (TypeDef.Regular.separate regular "").1
  have read := TypeDef.run_decodeInto balanced dataLast free h {}
  have asStored : ∀ tag v, Slot.FourByteCode tag v →
      Slot.readBack format tag v = Slot.canonicalValue format tag v := fun tag v => Slot.asRead_eq
  rw [Slot.allInto_congr asStored r.values {} _ codes, Slot.allInto_empty format distinct] at read
  rw [TypeDef.decode, read]
  rfl

theorem Sample.shape_round_trip :
    (shape [rest]).decode .classic
        [65, 98, 0, 0, 0, 0, 0xFE, 0xFF, 0, 2, 0xFF, 0xFF, 0, 7, 5, 10] =
      .ok ((shape [rest]).canonical .classic values) := by
  have flat : ∀ e ∈ [rest], e.nested = none := by simp [rest]
  refine Resource.decode_encode (r := resource [rest]) ?_ ?_ ?_ ?_
    (encode_shape [5, 10] fun _ => rfl)
  · refine .intro ⟨?_, ?_, ?_⟩ fun e member t found => ?_
    · have named : TypeDef.Built
          { name := "Shape", code := "SHAP", template := (shape [rest]).template } :=
        .template (t := { entries := (shape [rest]).template.entries })
          (.new "Shape" "SHAP" {} none) (.ofEntries .big (by decide)) rfl
      exact .field (f := marks) named rfl
    · simp [resource, shape, rest]
    · simp [resource, shape, marks]
    · rw [nested_shape flat member found]
      exact everywhere_point ⟨point_built, by simp [point], by simp [point]⟩
  · refine ⟨by simp [resource, shape, rest], fun e member t found => ?_⟩
    rw [nested_shape flat member found]
    exact everywhere_point (by simp [TypeDef.Delimited, point])
  · change Slot.AllHold Slot.NulFree values ((shape [rest]).slots "")
    rw [slots_shape [.value "rest" .data] rfl]
    exact ⟨title_free, trivial, trivial, trivial, fun _ _ _ => ⟨trivial, trivial⟩, trivial, trivial⟩
  · change Slot.AllHold Slot.FourByteCode values ((shape [rest]).slots "")
    rw [slots_shape [.value "rest" .data] rfl]
    refine ⟨trivial, trivial, trivial, trivial, fun _ element member => ⟨?_, trivial⟩, trivial,
      trivial⟩
    intro code present
    change element ∈ [_, _] at member
    rcases List.mem_pair.1 member with rfl | rfl
    · cases present
    · cases present
      rfl

end Rsrc
