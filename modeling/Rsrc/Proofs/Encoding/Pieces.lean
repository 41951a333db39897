import Rsrc.Proofs.Encoding.Confined

/-!
# The pieces of an encoding

What is stored for a record, from the first byte to the last: one piece for every value, run of
bits, side of a rectangle and count of elements, with nested types and lists opened up. Encoding puts
the bytes of the pieces one after another and fails where the first of them does, so that statements
about one entry reach the whole resource.
-/

namespace Rsrc

variable {τ : Type}

/-- Something that is stored on its own, with the value that is to be stored. -/
inductive Piece where
  | value (order : ByteOrder) (tag : Tag) (key : String) (v : Option Value)
  | bits (run : List (String × Option Value))
  | side (order : ByteOrder) (key : String) (v : Option Value)
  /-- The number of elements of a list, with the bounds on it. -/
  | count (order : ByteOrder) (field : String) (n : Nat) (lower upper : Int64)

namespace Piece

/-- Stores one piece. -/
def encode (s : Subject) (format : Format) : Piece → Except EncodingError (List UInt8)
  | value order tag key v => Encoding.value s format order tag key v
  | bits run => do
    let bits ← run.mapM fun b => Encoding.booleanOf s b.1 b.2
    return [Encoding.packBits bits]
  | side order key v => Encoding.side s order key v
  | count order field n lower upper =>
    if n < lower.toInt || upper.toInt < n || Encoding.maxElements < n then
      s.reject field (.repeatCount n lower upper)
    else .ok (order.write 2 (Int64.ofNat n))

/-- The pieces of the types that are nested. -/
abbrev Nested (τ : Type) := τ → Record → (front : String) → List Piece

/-- The sides of a rectangle that no type describes. -/
def sides (order : ByteOrder) (r : Record) (key : String) : List Piece :=
  Encoding.rectSides.map fun name => side order (key ++ "." ++ name) (r.get? (key ++ "." ++ name))

def ofCell (order : ByteOrder) (nested : Nested τ) (r : Record) (front : String) :
    Cell τ → List Piece
  | .bits run => [bits (run.map fun e => (front ++ e.label, r.get? (front ++ e.label)))]
  | .one e =>
    let key := front ++ e.label
    match e.tag, e.nested with
    | .rect, some t | .nested _, some t => nested t r (key ++ ".")
    | .rect, none | .nested _, none => sides order r key
    | tag, _ => [value order tag key (r.get? key)]

def ofEntries (order : ByteOrder) (nested : Nested τ) (r : Record) (front : String)
    (es : List (Entry τ)) : List Piece :=
  (Cell.ofEntries es).flatMap (ofCell order nested r front)

/-- The elements of a list stand behind their number, each with keys of its own. -/
def ofSection (order : ByteOrder) (fields : List Field) (nested : Nested τ) (r : Record)
    (front : String) : Section τ → List Piece
  | .plain es => ofEntries order nested r front es
  | .list c members =>
    let owner := listOwner? fields c.label
    let elements := Encoding.elements fields r front c
    let bounds := Encoding.listBounds owner
    count order ((owner.map (·.name)).getD (front ++ c.label)) elements.length bounds.1 bounds.2 ::
      elements.flatMap fun element => ofEntries order nested element "" members

end Piece

/-- The pieces of a type that are stored from a record, under keys behind `front`. -/
def TypeDef.pieces (d : TypeDef) (r : Record) (front : String) : List Piece :=
  d.layout.sections.flatMap
    (Piece.ofSection d.layout.order d.fields (fun ⟨t, _⟩ r front => t.pieces r front) r front)
termination_by sizeOf d

/-- The pieces of a resource. -/
def Resource.pieces (r : Resource) : List Piece := r.definition.pieces r.values ""

/-! ### Encoding piece by piece -/

namespace Encoding

variable {α β : Type} {f : α → Except EncodingError (List UInt8)} {items more : List α}

theorem concat_append (items more : List α) :
    concat f (items ++ more) = do
      let front ← concat f items
      let back ← concat f more
      return front ++ back := by
  induction items with
  | nil =>
    rw [List.nil_append, concat]
    cases concat f more <;> rfl
  | cons a items ih =>
    rw [List.cons_append, concat, concat, ih]
    cases f a with
    | error e => rfl
    | ok here =>
      cases concat f items with
      | error e => rfl
      | ok front =>
        cases concat f more with
        | error e => rfl
        | ok back => exact congrArg Except.ok (List.append_assoc here front back).symm

theorem concat_flatMap (f : β → Except EncodingError (List UInt8)) (g : α → List β) :
    concat f (items.flatMap g) = concat (fun a => concat f (g a)) items := by
  induction items with
  | nil => rfl
  | cons a items ih => rw [List.flatMap_cons, concat_append, ih, concat]

theorem concat_singleton (a : α) : concat f [a] = f a := by
  rw [concat, concat]
  cases f a with
  | error e => rfl
  | ok here => exact congrArg Except.ok (List.append_nil here)

/-- One item among others: its bytes stand between those of the others. -/
theorem concat_split_eq_ok_iff {a : α} {bytes : List UInt8} :
    concat f (items ++ a :: more) = .ok bytes ↔
      ∃ front here back, concat f items = .ok front ∧ f a = .ok here ∧
        concat f more = .ok back ∧ bytes = front ++ (here ++ back) := by
  constructor
  · intro h
    obtain ⟨front, rest, before, behind, rfl⟩ := concat_append_eq_ok h
    obtain ⟨here, first, behind⟩ := exists_of_bind_eq_ok behind
    obtain ⟨back, after, behind⟩ := exists_of_bind_eq_ok behind
    cases behind
    exact ⟨front, here, back, before, first, after, rfl⟩
  · rintro ⟨front, here, back, before, first, after, rfl⟩
    rw [concat_append, before, concat_cons first after]
    rfl

/-- The first item that can not be stored gives the error. -/
theorem concat_split_eq_error {a : α} {front : List UInt8} {e : EncodingError}
    (before : concat f items = .ok front) (h : f a = .error e) :
    concat f (items ++ a :: more) = .error e := by
  rw [concat_append, before, concat, h]
  rfl

end Encoding

namespace Piece

variable {s : Subject} {format : Format} {order : ByteOrder} {encode : Encoding.Nested τ}
  {pieces : Nested τ} {r : Record} {front : String}

theorem concat_sides (key : String) :
    Encoding.concat (Piece.encode s format) (sides order r key) =
      Encoding.concat (fun name => Encoding.side s order (key ++ "." ++ name)
        (r.get? (key ++ "." ++ name))) Encoding.rectSides :=
  Encoding.concat_map ..

theorem cell_eq_concat
    (nested : ∀ t r front,
      encode t r front = Encoding.concat (Piece.encode s format) (pieces t r front)) (c : Cell τ) :
    Encoding.cell s format order encode r front c =
      Encoding.concat (Piece.encode s format) (ofCell order pieces r front c) := by
  cases c with
  | bits run =>
    rw [ofCell, Encoding.concat_singleton, Piece.encode, List.mapM_map]
    rfl
  | one e =>
    obtain ⟨label, tag, inner, size⟩ := e
    cases tag with
    | rect =>
      cases inner with
      | none => exact (concat_sides (front ++ label)).symm
      | some t => exact nested t _ _
    | nested name =>
      cases inner with
      | none => exact (concat_sides (front ++ label)).symm
      | some t => exact nested t _ _
    | _ => exact (Encoding.concat_singleton _).symm

theorem entries_eq_concat
    (nested : ∀ t r front,
      encode t r front = Encoding.concat (Piece.encode s format) (pieces t r front))
    (es : List (Entry τ)) :
    Encoding.entries s format order encode r front es =
      Encoding.concat (Piece.encode s format) (ofEntries order pieces r front es) := by
  rw [Encoding.entries, ofEntries, Encoding.concat_flatMap]
  exact Encoding.concat_congr fun c _ => cell_eq_concat nested c

theorem sectionBytes_eq_concat
    (nested : ∀ t r front,
      encode t r front = Encoding.concat (Piece.encode s format) (pieces t r front))
    (fields : List Field) (part : Section τ) :
    Encoding.sectionBytes s format order fields encode r front part =
      Encoding.concat (Piece.encode s format) (ofSection order fields pieces r front part) := by
  cases part with
  | plain es => exact entries_eq_concat nested es
  | list c members =>
    have elements : Encoding.concat
        (fun element => Encoding.entries s format order encode element "" members)
        (Encoding.elements fields r front c) =
        Encoding.concat (Piece.encode s format) ((Encoding.elements fields r front c).flatMap
          fun element => ofEntries order pieces element "" members) := by
      rw [Encoding.concat_flatMap]
      exact Encoding.concat_congr fun element _ => entries_eq_concat nested members
    rw [ofSection, Encoding.concat, ← elements]
    simp only [Encoding.sectionBytes]
    split
    · rename_i outside
      exact Eq.symm (congrArg (· >>= _) (if_pos outside))
    · rename_i within
      exact Eq.symm (congrArg (· >>= _) (if_neg within))

end Piece

/-- Encoding puts the pieces of a type one after another. -/
theorem TypeDef.encode_eq_concat (s : Subject) (format : Format) (d : TypeDef) (r : Record)
    (front : String) :
    d.encode s format r front = Encoding.concat (Piece.encode s format) (d.pieces r front) := by
  rw [encode, pieces, Encoding.concat_flatMap]
  refine Encoding.concat_congr fun part _ => ?_
  refine Piece.sectionBytes_eq_concat (fun t r front => ?_) d.fields part
  have smaller := t.2
  exact encode_eq_concat s format t.1 r front
termination_by sizeOf d

theorem Resource.encode_eq_concat (format : Format) (r : Resource) :
    r.encode format = Encoding.concat (Piece.encode r.subject format) r.pieces :=
  r.definition.encode_eq_concat r.subject format r.values ""

end Rsrc
