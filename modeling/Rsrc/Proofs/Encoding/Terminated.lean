import Rsrc.Proofs.Encoding.Pieces
import Rsrc.Proofs.Encoding.RoundTrip

/-!
# Texts that end at a NUL

A text before a NUL, or in a place padded with NULs, is read back exactly if it has no NUL in
itself; then what is read ends where the next piece begins. A text with a NUL is stored all the
same, if it is short enough. It is read back up to the NUL, and where no size is fixed the rest of it
is left to the pieces behind it.
-/

namespace Rsrc

namespace Tag

/-- Texts whose end is marked by a NUL. -/
def isTerminated : Tag → Bool
  | terminatedText | fixedText _ => true
  | _ => false

/-- The text fits into its place, with a NUL behind it. -/
def HasRoom (tag : Tag) (text : String) : Prop :=
  match tag with
  | fixedText size => (Text.encode text).length < size
  | _ => True

/-- The NULs that stand behind a text. -/
def padding (tag : Tag) (text : String) : List UInt8 :=
  match tag with
  | fixedText size => List.replicate (size - (Text.encode text).length) 0
  | _ => [0]

/-- What reading up to a NUL leaves of a stored text, where `behind` follows the NUL. -/
def unread (tag : Tag) (behind : List Char) : List UInt8 :=
  match tag with
  | terminatedText => Text.encode (String.ofList behind) ++ [0]
  | _ => []

end Tag

/-! ### The bytes of a text with a NUL -/

theorem Text.encode_ofList_append (front back : List Char) :
    encode (String.ofList (front ++ back)) =
      encode (String.ofList front) ++ encode (String.ofList back) := by
  simp only [encode_eq, String.toList_ofList, List.flatMap_append]

theorem Text.encode_nul (behind : List Char) :
    encode (String.ofList ('\x00' :: behind)) = 0 :: encode (String.ofList behind) := by
  simp only [encode_eq, String.toList_ofList, List.flatMap_cons]
  rfl

theorem Text.encode_of_nul {text : String} {front behind : List Char}
    (h : text.toList = front ++ '\x00' :: behind) :
    encode text = encode (String.ofList front) ++ 0 :: encode (String.ofList behind) := by
  rw [← String.ofList_toList (s := text), h, encode_ofList_append, encode_nul]

namespace Slot

open Decoding (Reads)

variable (s : Subject) {format : Format} {order : ByteOrder} {tag : Tag} {key text : String}
  {bytes : List UInt8}

/-! ### Storing -/

theorem text_eq_ok_iff (terminated : tag.isTerminated = true) :
    Encoding.text s order tag key (Text.encode text) = .ok bytes ↔
      tag.HasRoom text ∧ bytes = Text.encode text ++ tag.padding text := by
  cases tag with
  | terminatedText =>
    simp only [Encoding.text, Tag.HasRoom, Tag.padding, Except.ok.injEq, true_and]
    exact eq_comm
  | fixedText size =>
    simp only [Encoding.text, Tag.HasRoom, Tag.padding]
    split
    · rename_i short
      simp only [Except.ok.injEq, short, true_and]
      exact eq_comm
    · rename_i long
      simp [Subject.reject, long]
  | _ => cases terminated

theorem textOf_eq_ok_iff {expected : String} {v : Option Value} :
    Encoding.textOf s key expected v = .ok text ↔ v.getD (.string "") = .string text := by
  cases v with
  | none => simp [Encoding.textOf]
  | some v => cases v <;> simp [Encoding.textOf, Subject.mismatch, Subject.reject]

/-- Whether a text is stored depends on its length alone. -/
theorem encode_terminated_eq_ok_iff (terminated : tag.isTerminated = true) {v : Option Value} :
    (Piece.value order tag key v).encode s format = .ok bytes ↔
      ∃ text, v.getD (.string "") = .string text ∧ tag.HasRoom text ∧
        bytes = Text.encode text ++ tag.padding text := by
  have opened : (Piece.value order tag key v).encode s format =
      Encoding.textOf s key "a string" v >>= fun text =>
        Encoding.text s order tag key (Text.encode text) := by
    cases tag with
    | terminatedText | fixedText size => rfl
    | _ => cases terminated
  rw [opened]
  constructor
  · intro h
    obtain ⟨text, found, h⟩ := exists_of_bind_eq_ok h
    exact ⟨text, (textOf_eq_ok_iff s).1 found, (text_eq_ok_iff s terminated).1 h⟩
  · rintro ⟨text, found, stored⟩
    rw [(textOf_eq_ok_iff s).2 found]
    exact (text_eq_ok_iff s terminated).2 stored

/-! ### Reading -/

/-- A text without a NUL is read back, and nothing else. -/
theorem run_value_of_free (s : Subject) (terminated : tag.isTerminated = true)
    (room : tag.HasRoom text) (free : '\x00' ∉ text.toList) (rest : List UInt8) :
    (Decoding.value format order tag key).run (Text.encode text ++ tag.padding text ++ rest) =
      .ok (.string text, rest) := by
  have isText : tag.isText = true ∧ NulFree tag (some (.string text)) := by
    cases tag with
    | terminatedText | fixedText size => exact ⟨rfl, free⟩
    | _ => cases terminated
  exact (reads_text isText.1 isText.2 ((text_eq_ok_iff s terminated).2 ⟨room, rfl⟩)).all rest

theorem takeWhile_before_nul (free : ∀ b ∈ bytes, b ≠ 0) (rest padding : List UInt8) :
    (bytes ++ 0 :: rest ++ padding).takeWhile (· != 0) = bytes := by
  rw [List.append_assoc, List.takeWhile_append_of_pos (by simpa using free)]
  simp

/-- A text with a NUL in it is read up to the NUL. -/
theorem run_value_of_nul (terminated : tag.isTerminated = true) (room : tag.HasRoom text)
    {front behind : List Char} (nul : text.toList = front ++ '\x00' :: behind)
    (free : '\x00' ∉ front) (rest : List UInt8) :
    (Decoding.value format order tag key).run (Text.encode text ++ tag.padding text ++ rest) =
      .ok (.string (String.ofList front), tag.unread behind ++ rest) := by
  have nonzero : ∀ b ∈ Text.encode (String.ofList front), b ≠ 0 :=
    encode_ne_zero (by rwa [String.toList_ofList])
  cases tag with
  | terminatedText =>
    have read : Reads (Decoding.value format order .terminatedText key)
        (Text.encode (String.ofList front) ++ [0]) _ :=
      (Reads.takeTerminated nonzero key).map fun raw => Value.string (Text.decodeLossy raw)
    rw [Text.decodeLossy_encode] at read
    -- The NUL of the text ends it, and its own NUL ends what is left.
    rw [Text.encode_of_nul nul]
    simpa [Tag.padding, Tag.unread] using read.all (Tag.unread .terminatedText behind ++ rest)
  | fixedText size =>
    have read : Reads (Decoding.value format order (.fixedText size) key) _ _ :=
      (Reads.take (length_padded room) key).map fun raw =>
        Value.string (Text.decodeLossy (raw.takeWhile (· != 0)))
    have cut : (Text.encode text ++ List.replicate (size - (Text.encode text).length) 0).takeWhile
        (· != 0) = Text.encode (String.ofList front) := by
      rw [Text.encode_of_nul nul, takeWhile_before_nul nonzero]
    rw [cut, Text.decodeLossy_encode] at read
    exact read.all rest
  | _ => cases terminated

end Slot

/-- A text that ends at a NUL is stored, between the bytes of the other pieces, if it is short
enough. From its bytes it is read back, up to the next piece, if it has no NUL; otherwise what stands
before the first NUL is read. Where no text has a NUL, reading a resource keeps in step with what was
stored. -/
theorem Resource.encode_terminated (format : Format) {r : Resource} {before after : List Piece}
    {order : ByteOrder} {tag : Tag} {key : String} {v : Option Value}
    (terminated : tag.isTerminated = true)
    (place : r.pieces = before ++ .value order tag key v :: after) :
    (∀ bytes, r.encode format = .ok bytes ↔ ∃ front text back,
      Encoding.concat (Piece.encode r.subject format) before = .ok front ∧
        v.getD (.string "") = .string text ∧ tag.HasRoom text ∧
        Encoding.concat (Piece.encode r.subject format) after = .ok back ∧
        bytes = front ++ (Text.encode text ++ tag.padding text ++ back)) ∧
    (∀ text back, tag.HasRoom text → '\x00' ∉ text.toList →
      (Decoding.value format order tag key).run (Text.encode text ++ tag.padding text ++ back) =
        .ok (.string text, back)) ∧
    (∀ text front behind back, tag.HasRoom text → text.toList = front ++ '\x00' :: behind →
      '\x00' ∉ front →
      (Decoding.value format order tag key).run (Text.encode text ++ tag.padding text ++ back) =
        .ok (.string (String.ofList front), tag.unread behind ++ back)) ∧
    ∀ bytes, r.definition.Everywhere TypeDef.Validated → r.definition.DataLast →
      Slot.AllHold Slot.NulFree r.values (r.definition.slots "") → r.encode format = .ok bytes →
      (r.definition.decodeInto format {} "").run bytes =
        .ok (Slot.allInto (Slot.readBack format) r.values (r.definition.slots "") {}, []) := by
  refine ⟨fun bytes => ?_, fun text back room free => ?_,
    fun text front behind back room nul free => ?_, fun bytes validated dataLast free h => ?_⟩
  · rw [encode_eq_concat, place, Encoding.concat_split_eq_ok_iff]
    constructor
    · rintro ⟨front, here, back, stored, found, behind, rfl⟩
      obtain ⟨text, assigned, room, rfl⟩ := (Slot.encode_terminated_eq_ok_iff _ terminated).1 found
      exact ⟨front, text, back, stored, assigned, room, behind, rfl⟩
    · rintro ⟨front, text, back, stored, assigned, room, behind, rfl⟩
      exact ⟨front, _, back, stored,
        (Slot.encode_terminated_eq_ok_iff _ terminated).2 ⟨text, assigned, room, rfl⟩, behind, rfl⟩
  · exact Slot.run_value_of_free r.subject terminated room free back
  · exact Slot.run_value_of_nul terminated room nul free back
  · have balanced := validated.mono fun t => TypeDef.Validated.balanced
    exact TypeDef.run_decodeInto balanced dataLast free h {}

/-! ### A resource to try it on -/

namespace Sample

/-- A text up to a NUL and a number behind it. -/
def item : TypeDef where
  name := "Item"
  code := "ITEM"
  template :=
    { entries := [{ label := "title", tag := .terminatedText },
        { label := "price", tag := .integer .two false }] }

def itemOf (title : String) : Resource :=
  { reference := { id := 128 }, definition := item
    values := { values := .ofList [("title", .string title), ("price", .integer 7)] } }

theorem pieces_itemOf (title : String) :
    (itemOf title).pieces = [] ++ .value .big .terminatedText "title" (some (.string title)) ::
      [.value .big (.integer .two false) "price" (some (.integer 7))] := by
  rw [Resource.pieces, TypeDef.pieces]
  rfl

theorem encode_withNul : Text.encode "a\x00b" = [0x61, 0, 0x62] := by
  rw [Text.encode_eq]
  rfl

theorem flat_item {e : Entry TypeDef} (h : e ∈ item.template.entries) : e.nested = none := by
  simp only [item, List.mem_cons, List.not_mem_nil, or_false] at h
  rcases h with rfl | rfl <;> rfl

end Sample

theorem Resource.encode_terminated_item :
    (Sample.itemOf "a\x00b").encode .classic = .ok [0x61, 0, 0x62, 0, 0, 7] ∧
      (Decoding.value .classic .big .terminatedText "title").run [0x61, 0, 0x62, 0, 0, 7] =
        .ok (.string "a", [0x62, 0, 0, 7]) ∧
      (Sample.item.decodeInto .classic {} "").run [0x41, 0x62, 0, 0, 7] =
        .ok (Slot.allInto (Slot.readBack .classic) (Sample.itemOf "Ab").values
          (Sample.item.slots "") {}, []) := by
  have nul := encode_terminated .classic rfl (Sample.pieces_itemOf "a\x00b")
  have free := encode_terminated .classic rfl (Sample.pieces_itemOf "Ab")
  have text : Text.encode "Ab" = [0x41, 0x62] := by
    rw [Text.encode_eq]
    rfl
  have left : Text.encode (String.ofList ['b']) = [0x62] := by
    rw [Text.encode_eq]
    rfl
  refine ⟨(nul.1 _).2 ⟨[], _, [0, 7], rfl, rfl, trivial, rfl, ?_⟩, ?_, ?_⟩
  · rw [Sample.encode_withNul]
    rfl
  · have read := nul.2.2.1 "a\x00b" ['a'] ['b'] [0, 7] trivial (by decide +kernel) (by decide)
    rw [Tag.unread, left, Sample.encode_withNul] at read
    exact read
  · refine free.2.2.2 _ ?_ ?_ ?_ ((free.1 _).2 ⟨[], _, [0, 7], rfl, rfl, trivial, rfl, ?_⟩)
    · refine .intro ⟨Sample.item.template, rfl⟩ fun e member t found => ?_
      rw [Sample.flat_item member] at found
      cases found
    · refine ⟨by simp [Sample.itemOf, Sample.item], fun e member t found => ?_⟩
      rw [Sample.flat_item member] at found
      cases found
    · change Slot.AllHold Slot.NulFree _ (Sample.item.slots "")
      rw [TypeDef.slots_eq]
      refine ⟨?_, trivial, trivial⟩
      change '\x00' ∉ "Ab".toList
      decide +kernel
    · rw [text]
      rfl

/-- A text with a NUL is not rejected, and moves the number behind it. -/
theorem Resource.decode_moved :
    (Sample.itemOf "a\x00b").encode .classic = .ok [0x61, 0, 0x62, 0, 0, 7] ∧
      ∃ values, Sample.item.decode .classic [0x61, 0, 0x62, 0, 0, 7] = .ok values ∧
        values.get? "title" = some (.string "a") ∧
        values.get? "price" = some (.integer 0x6200) := by
  constructor
  · rw [encode_eq_concat, Sample.pieces_itemOf]
    exact Encoding.concat_cons (x := [0x61, 0, 0x62, 0])
      (congrArg (fun stored => Except.ok (stored ++ [0])) Sample.encode_withNul) rfl
  · rw [TypeDef.decode, TypeDef.decodeInto_eq]
    have title : Text.decodeLossy [0x61] = "a" := by decide +kernel
    exact ⟨_, rfl, congrArg (some ∘ Value.string) title, rfl⟩

end Rsrc
