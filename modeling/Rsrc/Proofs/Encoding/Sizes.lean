import Rsrc.Proofs.Encoding.Section

/-!
# Least sizes

The least size of a type is counted entry by entry, where a counter of bits says which of them begins
a byte. That is the sum of the sizes of its cells, and what is stored for a cell is at least as long
as that in the extended format (`TypeDef.covers_encode`).
-/

namespace Rsrc

variable {τ : Type}

/-! ### The sizes of sections -/

def Cell.size : Cell τ → Nat
  | bits _ => 1
  | one e => e.size

/-- The size without the elements of lists. -/
def Section.size : Section τ → Nat
  | plain es => ((Cell.ofEntries es).map Cell.size).sum
  | list _ _ => 2

namespace Template

variable {t : Template τ} {index bits size : Nat} {run es : List (Entry τ)} {groups : List ListGroup}
  {members : List (Entry τ)}

/-- The bytes that an entry begins behind `bits` bits in a row. -/
def begun (bits : Nat) (e : Entry τ) : Nat := if e.tag = .bit then 1 - bits % 8 else e.size

/-- The bits in a row that end with an entry. -/
def bitsUpTo (bits : Nat) (e : Entry τ) : Nat := if e.tag = .bit then bits + 1 else 0

/-- The size of entries outside lists, behind `bits` bits in a row. -/
def plainSize (bits : Nat) : List (Entry τ) → Nat
  | [] => 0
  | e :: es => begun bits e + plainSize (bitsUpTo bits e) es

theorem size_ofRun : ((Cell.ofRun run).map Cell.size).sum = min 1 run.length := by
  cases run with
  | nil => rfl
  | cons e run =>
    simp [Cell.ofRun, Cell.size]

/-- A byte is counted with its first bit, and stored when it is full or no bit follows. -/
theorem size_ofEntriesBehind (pending : run.length = bits % 8) :
    ((Cell.ofEntriesBehind run es).map Cell.size).sum = min 1 (bits % 8) + plainSize bits es := by
  induction es generalizing run bits with
  | nil => simp [Cell.ofEntriesBehind, plainSize, size_ofRun, pending]
  | cons e es ih =>
    rw [Cell.ofEntriesBehind, plainSize, begun, bitsUpTo]
    by_cases bit : e.tag = .bit
    · rw [if_pos bit, if_pos bit, if_pos bit]
      by_cases room : run.length < 7
      · have next : (run ++ [e]).length = (bits + 1) % 8 := by
          rw [List.length_append, List.length_singleton]
          omega
        rw [if_pos room, ih next]
        omega
      · have next : ([] : List (Entry τ)).length = (bits + 1) % 8 := by
          rw [List.length_nil]
          omega
        rw [if_neg room, List.map_cons, List.sum_cons, Cell.size, ih next]
        omega
    · have next : ([] : List (Entry τ)).length = 0 % 8 := rfl
      rw [if_neg bit, if_neg bit, if_neg bit, List.map_append, List.sum_append, size_ofRun, List.map_cons,
        List.sum_cons, Cell.size, ih next, pending]
      omega

theorem size_plain : (Section.plain es).size = plainSize 0 es := by
  have none : ([] : List (Entry τ)).length = 0 % 8 := rfl
  exact (size_ofEntriesBehind none).trans (Nat.zero_add _)

theorem size_ofPlain : ((Section.ofPlain run).map Section.size).sum = plainSize 0 run.reverse := by
  cases run with
  | nil => rfl
  | cons e run => simp [Section.ofPlain, size_plain]

theorem sizeFrom_of_out (out : t.groupContaining? index = none) (e : Entry τ) :
    t.sizeFrom index bits (e :: es) =
      begun bits e + t.sizeFrom (index + 1) (bitsUpTo bits e) es := by
  rw [sizeFrom, out, begun, bitsUpTo]
  by_cases bit : e.tag = .bit
  · by_cases first : bits % 8 = 0 <;> simp [bit, first]
    omega
  · simp [bit]

theorem sizeFrom_members
    (inside : ∀ i, index ≤ i → i < index + members.length → (t.groupContaining? i).isSome) :
    t.sizeFrom index bits (members ++ es) = t.sizeFrom (index + members.length) bits es := by
  induction members generalizing index with
  | nil => rfl
  | cons e members ih =>
    rw [List.length_cons] at inside
    rw [List.cons_append, sizeFrom, if_pos (inside index (by omega) (by omega)),
      ih fun i low high => inside i (by omega) (by omega), List.length_cons]
    congr 1
    omega

theorem Grouped.lt_of_contains (h : Grouped index es groups) {g : ListGroup} (member : g ∈ groups)
    {i : Nat} (inside : g.contains i) : index + 1 < i := by
  obtain ⟨k, e, counts, starts, -⟩ := h.count_at member
  simp only [ListGroup.contains, Bool.and_eq_true, decide_eq_true_eq] at inside
  omega

/-- The groups from a position on are those of the template. -/
def Knows (t : Template τ) (index : Nat) (groups : List ListGroup) : Prop :=
  ∀ i, index ≤ i → ((t.groupContaining? i).isSome ↔ ∃ g ∈ groups, g.contains i)

theorem Knows.out (knows : t.Knows index groups) (h : Grouped index es groups) {i : Nat}
    (low : index ≤ i) (high : i ≤ index + 1) : t.groupContaining? i = none := by
  by_contra some
  obtain ⟨g, member, inside⟩ := (knows i low).1 (Option.isSome_iff_ne_none.2 some)
  have := h.lt_of_contains member inside
  omega

theorem sizeFrom_list {count start stop : Entry τ}
    (whole : Grouped index (count :: start :: (members ++ stop :: es))
      (⟨index, index + 1, index + 2 + members.length⟩ :: groups))
    (rest : Grouped (index + 2 + members.length + 1) es groups)
    (knows : t.Knows index (⟨index, index + 1, index + 2 + members.length⟩ :: groups))
    (counts : count.tag = .count) (starts : start.tag = .listStart) (stops : stop.tag = .listEnd) :
    t.sizeFrom index bits (count :: start :: (members ++ stop :: es)) =
      count.size + start.size + stop.size + t.sizeFrom (index + 2 + members.length + 1) 0 es := by
  have inside : ∀ i, index + 1 + 1 ≤ i → i < index + 1 + 1 + members.length →
      (t.groupContaining? i).isSome := by
    intro i low high
    refine (knows i (by omega)).2 ⟨_, List.mem_cons_self, ?_⟩
    simp [ListGroup.contains]
    omega
  have last : t.groupContaining? (index + 1 + 1 + members.length) = none := by
    by_contra some
    obtain ⟨g, member, inside⟩ := (knows _ (by omega)).1 (Option.isSome_iff_ne_none.2 some)
    rcases List.mem_cons.1 member with rfl | later
    · simp [ListGroup.contains] at inside
    · have := rest.lt_of_contains later inside
      omega
  rw [sizeFrom_of_out (knows.out whole (Nat.le_refl _) (by omega)),
    sizeFrom_of_out (knows.out whole (by omega) (by omega)), sizeFrom_members inside,
    sizeFrom_of_out last]
  simp [begun, bitsUpTo, counts, starts, stops, Nat.add_assoc]

theorem size_outside (grouped : Grouped index es groups) (knows : t.Knows index groups)
    (markers : ∀ e ∈ es, e.tag.isListMarker → e.size = e.tag.fixedSize)
    (run : List (Entry τ)) (size bits : Nat)
    (before : ∀ es, plainSize 0 (run.reverse ++ es) = size + plainSize bits es) :
    ((Section.outside run es).map Section.size).sum = size + t.sizeFrom index bits es := by
  induction grouped generalizing run size bits with
  | nil index =>
    rw [Section.outside, size_ofPlain]
    simpa [sizeFrom, plainSize] using before []
  | @plain index e es groups free rest ih =>
    rw [Section.outside_plain free,
      sizeFrom_of_out (knows.out (.plain free rest) (Nat.le_refl _) (by omega)), ← Nat.add_assoc]
    refine ih (fun i low => knows i (by omega)) (fun e' member =>
      markers e' (List.mem_cons_of_mem _ member)) _ _ _ fun es' => ?_
    rw [List.reverse_cons, List.append_assoc, List.singleton_append, before, plainSize, Nat.add_assoc]
  | @list index count start stop members es groups counts starts free stops rest ih =>
    have known : t.Knows (index + 2 + members.length + 1) groups := by
      intro i low
      rw [knows i (by omega)]
      simp [ListGroup.contains, show ¬ i < index + 2 + members.length by omega]
    -- what stands before the list is complete, and bits are counted anew behind it
    have later := ih known (fun e member => markers e (by simp [member])) [] 0 0 fun es => by simp
    have sized {e : Entry τ} {tag : Tag} (member : e ∈ count :: start :: (members ++ stop :: es))
        (same : e.tag = tag) (marker : tag.isListMarker) : e.size = tag.fixedSize := by
      subst same
      exact markers e member marker
    have two : count.size = 2 := sized (by simp) counts rfl
    have none : start.size = 0 := sized (by simp) starts rfl
    have none' : stop.size = 0 := sized (by simp) stops rfl
    have front : plainSize 0 run.reverse = size := by simpa [plainSize] using before []
    rw [Section.outside_list counts starts free stops, List.map_append, List.sum_append, size_ofPlain,
      List.map_cons, List.sum_cons, Section.size, later,
      sizeFrom_list (.list counts starts free stops rest) rest knows counts starts stops]
    omega

theorem minimumSize_of_validate {t' : Template τ} (accepted : t'.validate = .ok t)
    (markers : ∀ e ∈ t.entries, e.tag.isListMarker → e.size = e.tag.fixedSize) :
    t.minimumSize = (t.sections.map Section.size).sum := by
  have knows : t.Knows 0 t.groups := fun i _ => by rw [groupContaining?, List.find?_isSome]
  have size := size_outside (grouped_of_validate accepted) knows markers [] 0 0 fun es => by simp
  rw [minimumSize, sections, size, Nat.zero_add]

end Template

/-! ### The sizes of what is stored -/

/-- The tags whose values take as many bytes in every format. -/
def Tag.isRigid : Tag → Bool
  | integer _ _ | char | boolean | bit | rect | nested _ => true
  | _ => false

namespace TypeDef

/-- Every entry, nested types included, has a tag whose values take as many bytes in every format. -/
def Rigid (d : TypeDef) : Prop := d.Everywhere fun t => ∀ e ∈ t.template.entries, e.tag.isRigid

/-- The entries are the sides of a rectangle. -/
def IsRect (d : TypeDef) : Prop :=
  d.template.entries.map (fun e => (e.label, e.tag)) =
    Encoding.rectSides.map fun side => (side, .integer .two true)

end TypeDef

/-- The entries that a template can have: a nested type is known, and what stands behind a rectangle,
if anything, has its sides. -/
inductive Entry.Linked : Entry TypeDef → Prop
  | nested (label name : String) (t : TypeDef) :
      Linked (.make TypeDef.minimumSize label (.nested name) (some t))
  | rect (label : String) (t : TypeDef) (h : t.IsRect) :
      Linked (.make TypeDef.minimumSize label .rect (some t))
  | plain (label : String) (tag : Tag) (h : ∀ name, tag ≠ .nested name) :
      Linked (.make TypeDef.minimumSize label tag none)

def TypeDef.Linked (d : TypeDef) : Prop := d.Validated ∧ ∀ e ∈ d.template.entries, e.Linked

theorem Entry.make_none (size : τ → Nat) (label : String) (tag : Tag) :
    Entry.make size label tag none = { label, tag } := by
  cases tag <;> rfl

theorem Entry.Linked.size_marker {e : Entry TypeDef} (h : e.Linked) (marker : e.tag.isListMarker) :
    e.size = e.tag.fixedSize := by
  cases h with
  | nested | rect => cases marker
  | plain => rw [make_none]

theorem TypeDef.Linked.minimumSize_eq {d : TypeDef} (h : d.Linked) :
    d.minimumSize = (d.template.sections.map Section.size).sum := by
  obtain ⟨⟨t, accepted⟩, linked⟩ := h
  exact Template.minimumSize_of_validate accepted fun e member => (linked e member).size_marker

/-- The length is at least the size, or just the size, under conditions. -/
def Covers (least just : Prop) (size length : Nat) : Prop :=
  (least → size ≤ length) ∧ (just → length = size)

namespace Encoding

variable {least just : Prop} {s : Subject} {format : Format} {order : ByteOrder} {key : String}
  {v : Option Value} {bytes : List UInt8}

theorem covers_concat {α : Type} {f : α → Except EncodingError (List UInt8)} {size : α → Nat}
    {items : List α} (h : concat f items = .ok bytes)
    (each : ∀ a ∈ items, ∀ {bytes}, f a = .ok bytes → Covers least just (size a) bytes.length) :
    Covers least just (items.map size).sum bytes.length := by
  induction items generalizing bytes with
  | nil =>
    cases h
    exact ⟨fun _ => Nat.le_refl _, fun _ => rfl⟩
  | cons a items ih =>
    obtain ⟨first, stored, h⟩ := exists_of_bind_eq_ok h
    obtain ⟨others, stored', h⟩ := exists_of_bind_eq_ok h
    cases h
    obtain ⟨below, equal⟩ := each a List.mem_cons_self stored
    obtain ⟨below', equal'⟩ := ih stored' fun a' member => each a' (List.mem_cons_of_mem _ member)
    rw [List.map_cons, List.sum_cons, List.length_append]
    exact ⟨fun h => Nat.add_le_add (below h) (below' h), fun h => by rw [equal h, equal' h]⟩

theorem covers_of_eq {size : Nat} (h : bytes.length = size) : Covers least just size bytes.length :=
  ⟨fun _ => h.ge, fun _ => h⟩

/-- What is stored for a tag that `value` knows. -/
theorem covers_value {tag : Tag} (h : value s format order tag key v = .ok bytes)
    (bit : tag ≠ .bit) (rect : tag ≠ .rect) (nested : ∀ name, tag ≠ .nested name)
    (free : tag.isListMarker = false) :
    Covers (format = .extended) tag.isRigid tag.fixedSize bytes.length := by
  cases tag with
  | integer width signed =>
    obtain ⟨n, -, h⟩ := exists_of_bind_eq_ok h
    rw [(Slot.eq_write h).2]
    exact covers_of_eq (ByteOrder.length_write ..)
  | char =>
    obtain ⟨n, -, h⟩ := exists_of_bind_eq_ok h
    split at h
    · cases h
      exact covers_of_eq rfl
    · cases h
  | boolean =>
    obtain ⟨b, -, h⟩ := exists_of_bind_eq_ok h
    cases h
    exact covers_of_eq rfl
  | reference =>
    obtain ⟨r, -, h⟩ := exists_of_bind_eq_ok h
    refine ⟨?_, fun rigid => by cases rigid⟩
    rintro rfl
    obtain ⟨container, -, h⟩ := exists_of_bind_eq_ok h
    cases h
    simp only [Tag.fixedSize, List.length_cons, List.length_append, ByteOrder.length_write]
    omega
  | shortText | terminatedText | longText | fixedText | data =>
    exact ⟨fun _ => Nat.zero_le _, fun rigid => by cases rigid⟩
  | bit => exact absurd rfl bit
  | rect => exact absurd rfl rect
  | nested name => exact absurd rfl (nested name)
  | count | listStart | listEnd => cases free

theorem covers_sides {r : Record} (h : concat (fun name =>
    side s order (key ++ "." ++ name) (r.get? (key ++ "." ++ name))) rectSides = .ok bytes) :
    Covers least just 8 bytes.length := by
  have sum : Covers least just (rectSides.map fun _ => 2).sum bytes.length := by
    refine covers_concat h fun name _ bytes stored => ?_
    rw [(Slot.eq_write (Slot.integer_of_side stored)).2]
    exact covers_of_eq (ByteOrder.length_write ..)
  exact sum

end Encoding

namespace TypeDef

open Encoding

theorem IsRect.tag_eq {d : TypeDef} (h : d.IsRect) {e : Entry TypeDef}
    (member : e ∈ d.template.entries) : e.tag = .integer .two true := by
  have known := List.mem_map_of_mem (f := fun e => (e.label, e.tag)) member
  rw [h] at known
  obtain ⟨side, -, same⟩ := List.mem_map.1 known
  exact (congrArg Prod.snd same).symm

theorem IsRect.rigid {d : TypeDef} (h : d.IsRect) (linked : d.Linked) : d.Rigid := by
  refine .intro (fun e member => by rw [h.tag_eq member]; rfl) fun e member t found => ?_
  have tag := h.tag_eq member
  cases linked.2 e member with
  | nested | rect => cases tag
  | plain =>
    rw [Entry.make_none] at found
    cases found

theorem IsRect.minimumSize {d : TypeDef} (h : d.IsRect) (linked : d.Linked) : d.minimumSize = 8 := by
  have each {e : Entry TypeDef} (member : e ∈ d.template.entries) :
      e.tag = .integer .two true ∧ e.size = 2 := by
    have tag := h.tag_eq member
    refine ⟨tag, ?_⟩
    cases linked.2 e member with
    | nested | rect => cases tag
    | plain label tag' =>
      rw [Entry.make_none] at tag ⊢
      exact congrArg Tag.fixedSize tag
  obtain ⟨a, _, split, -, h⟩ := List.map_eq_cons_iff.1 h
  obtain ⟨b, _, rfl, -, h⟩ := List.map_eq_cons_iff.1 h
  obtain ⟨c, _, rfl, -, h⟩ := List.map_eq_cons_iff.1 h
  obtain ⟨e, _, rfl, -, h⟩ := List.map_eq_cons_iff.1 h
  obtain rfl := List.map_eq_nil_iff.1 h
  simp only [split, List.mem_cons, List.not_mem_nil, or_false] at each
  rw [linked.minimumSize_eq, Template.sections, split]
  simp [Section.outside, Section.ofPlain, Section.size, Cell.ofEntries, Cell.ofEntriesBehind,
    Cell.ofRun, Cell.size, each]

/-- Where nothing is a list marker, there are no lists. -/
theorem not_list_mem {count : Entry τ} {members run es : List (Entry τ)}
    (free : ∀ e ∈ es, e.tag.isListMarker = false) :
    .list count members ∉ Section.outside run es := by
  induction es generalizing run with
  | nil =>
    intro member
    cases Section.mem_ofPlain member
  | cons e es ih =>
    rw [Section.outside_plain (free e List.mem_cons_self)]
    exact ih fun e' member => free e' (List.mem_cons_of_mem _ member)

theorem isListMarker_of_isRigid {tag : Tag} (h : tag.isRigid) : tag.isListMarker = false := by
  cases tag <;> first | rfl | cases h

theorem covers_one {e : Entry TypeDef} (linked : e.Linked) (bit : e.tag ≠ .bit)
    (free : e.tag.isListMarker = false) {s : Subject} {format : Format} {order : ByteOrder}
    {encode : Nested TypeDef} {just : Prop} (rigid : just → e.tag.isRigid)
    (inner : ∀ t, e.nested = some t → t.Linked ∧ (just → t.Rigid) ∧ ∀ r front {bytes},
      encode t r front = .ok bytes → Covers (format = .extended) t.Rigid t.minimumSize bytes.length)
    {r : Record} {front : String} {bytes : List UInt8}
    (h : cell s format order encode r front (.one e) = .ok bytes) :
    Covers (format = .extended) just e.size bytes.length := by
  cases linked with
  | nested label name t =>
    obtain ⟨-, rigid, inner⟩ := inner t rfl
    have covered := inner r _ h
    exact ⟨covered.1, fun h => covered.2 (rigid h)⟩
  | rect label t isRect =>
    obtain ⟨linked, -, inner⟩ := inner t rfl
    have covered := inner r _ h
    exact covers_of_eq ((covered.2 (isRect.rigid linked)).trans (isRect.minimumSize linked))
  | plain label tag other =>
    rw [Entry.make_none] at *
    by_cases rect : tag = .rect
    · subst rect
      exact covers_sides h
    · have stored : value s format order tag (front ++ label) (r.get? (front ++ label)) = .ok bytes := by
        cases tag <;> first | exact h | exact absurd rfl (other _) | exact absurd rfl rect
      have covered := covers_value stored bit rect other free
      exact ⟨covered.1, fun h => covered.2 (rigid h)⟩

/-- The bytes of a type, by its least size. -/
theorem covers_encode {d : TypeDef} (linked : d.Everywhere Linked) (s : Subject) (format : Format)
    (r : Record) (front : String) {bytes : List UInt8} (h : d.encode s format r front = .ok bytes) :
    Covers (format = .extended) d.Rigid d.minimumSize bytes.length := by
  induction linked generalizing r front bytes with
  | @intro d here nested ih =>
    have balanced := here.1.balanced
    rw [encode_eq] at h
    rw [here.minimumSize_eq]
    refine covers_concat h fun part known bytes stored => ?_
    cases part with
    | list count members =>
      obtain ⟨more, -, -, rfl⟩ := sectionBytes_list stored
      rw [List.length_append, ByteOrder.length_write]
      refine ⟨fun _ => Nat.le_add_right .., fun rigid => ?_⟩
      exact absurd known (not_list_mem fun e member => isListMarker_of_isRigid (rigid.here e member))
    | plain es =>
      refine covers_concat stored fun c member bytes stored => ?_
      have formed := Cell.wellFormed_ofEntries c member
      cases c with
      | bits run =>
        obtain ⟨bits, -, h⟩ := exists_of_bind_eq_ok stored
        cases h
        exact covers_of_eq rfl
      | one e =>
        obtain ⟨inside, free⟩ :=
          mem_template balanced known (Cell.mem_of_mem_ofEntries member List.mem_cons_self)
        refine covers_one (here.2 e inside) formed free (fun rigid => rigid.here e inside)
          (fun t found => ⟨(nested e inside t found).here, fun rigid => ?_, ih e inside t found⟩) stored
        obtain ⟨-, inner⟩ := rigid
        exact inner e inside t found

/-- The least size and the sums that lead up to it are machine words, if the length of what is stored is
one. -/
theorem minimumSize_lt_of_encode {d : TypeDef} (linked : d.Everywhere Linked) {s : Subject}
    {format : Format} {r : Record} {front : String} {bytes : List UInt8}
    (h : d.encode s format r front = .ok bytes) (known : format = .extended ∨ d.Rigid)
    (word : bytes.length < UInt64.size) : d.minimumSize < UInt64.size := by
  obtain ⟨below, equal⟩ := covers_encode linked s format r front h
  rcases known with extended | rigid
  · exact Nat.lt_of_le_of_lt (below extended) word
  · exact equal rigid ▸ word

end TypeDef

/-- A resource takes at least its least size in the extended format, and just that if all is rigid. -/
theorem Resource.length_of_encode {r : Resource} (linked : r.definition.Everywhere TypeDef.Linked)
    {format : Format} {bytes : List UInt8} (h : r.encode format = .ok bytes) :
    (format = .extended → r.definition.minimumSize ≤ bytes.length) ∧
      (r.definition.Rigid → bytes.length = r.definition.minimumSize) :=
  TypeDef.covers_encode linked r.subject format r.values "" h

namespace Sample

def sides : TypeDef where
  name := "Rect"
  code := "RECT"
  template :=
    { entries := Encoding.rectSides.map fun side => { label := side, tag := .integer .two true } }

/-- Two bits and two rectangles. -/
def gauge : TypeDef where
  name := "Gauge"
  code := "GAUG"
  template :=
    { entries := [{ label := "on", tag := .bit }, { label := "hot", tag := .bit },
        .make TypeDef.minimumSize "frame" .rect (some sides),
        .make TypeDef.minimumSize "scale" (.nested "Rect") (some sides)] }

theorem everywhere_gauge {P : TypeDef → Prop} (outer : P gauge) (inner : P sides) :
    gauge.Everywhere P := by
  have flat : sides.Everywhere P := .intro inner fun e member t found => by
    obtain ⟨side, -, rfl⟩ := List.mem_map.1 member
    cases found
  refine .intro outer fun e member t found => ?_
  simp only [gauge, List.mem_cons, List.not_mem_nil, or_false] at member
  rcases member with rfl | rfl | rfl | rfl <;> cases found <;> exact flat

theorem linked_gauge : gauge.Everywhere TypeDef.Linked := by
  refine everywhere_gauge ⟨⟨gauge.template, rfl⟩, ?_⟩ ⟨⟨sides.template, rfl⟩, ?_⟩
  · intro e member
    simp only [gauge, List.mem_cons, List.not_mem_nil, or_false] at member
    rcases member with rfl | rfl | rfl | rfl
    · exact .plain "on" .bit (by simp)
    · exact .plain "hot" .bit (by simp)
    · exact .rect "frame" sides rfl
    · exact .nested "scale" "Rect" sides
  · intro e member
    obtain ⟨side, -, rfl⟩ := List.mem_map.1 member
    exact .plain side (.integer .two true) (by simp)

end Sample

theorem Resource.length_of_encode_gauge : ∃ bytes,
    ({ reference := { id := 1 }, definition := Sample.gauge } : Resource).encode .classic = .ok bytes ∧
      bytes.length = Sample.gauge.minimumSize := by
  have stored : (({ reference := { id := 1 }, definition := Sample.gauge } : Resource).encode
      .classic).toBool = true := by decide +kernel
  have rigid : Sample.gauge.Rigid := Sample.everywhere_gauge (by decide) (by decide)
  cases ran : ({ reference := { id := 1 }, definition := Sample.gauge } : Resource).encode .classic with
  | error e =>
    rw [ran] at stored
    cases stored
  | ok bytes => exact ⟨bytes, rfl, (length_of_encode Sample.linked_gauge ran).2 rigid⟩

end Rsrc
