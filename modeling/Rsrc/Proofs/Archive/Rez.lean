import Rsrc.Proofs.Archive.Classic
import Rsrc.Proofs.Archive.Filling
import Std.Data.String.ToInt

/-!
# Reading rez text

A reader for rez text meets codes and names that may contain whatever the text is divided by. It
gets past a code by its size, and past a name because every quotation mark in it is behind a
backslash. Data has no brace before the one that ends it, so that its digits can be picked out.
-/

namespace Rsrc.Archive

open Classic (kept)

namespace Rez

variable {bytes : List UInt8} {e : ArchiveEntry} {id : Int64}

/-! ### The reader -/

/-- A reader of text, which leaves what it does not take. -/
abbrev Scanning := StateT (List Char) Option

def literal (text : String) : Scanning Unit := fun cs =>
  if text.toList.isPrefixOf cs then some ((), cs.drop text.length) else none

/-- Takes characters that have the given number of bytes together. -/
def sized : Nat → Scanning (List Char)
  | 0, cs => some ([], cs)
  | _ + 1, [] => none
  | size + 1, c :: cs =>
    if c.utf8Size ≤ size + 1 then
      (sized (size + 1 - c.utf8Size) cs).map fun (front, rest) => (c :: front, rest)
    else none

/-- Takes characters up to the first of `stops`, which is taken as well. -/
def upTo (stops : List Char) : Scanning (List Char × Char)
  | [] => none
  | c :: cs =>
    if c ∈ stops then some (([], c), cs)
    else (upTo stops cs).map fun ((front, stop), rest) => ((c :: front, stop), rest)

/-- Takes escaped text up to the quotation mark behind it. -/
def unquote : Scanning (List Char)
  | [] => none
  | '\x22' :: cs => some ([], cs)
  | '\\' :: c :: cs => (unquote cs).map fun (text, rest) => (c :: text, rest)
  | c :: cs => (unquote cs).map fun (text, rest) => (c :: text, rest)

/-- The name that a comma announces. -/
def readName (stop : Char) : Scanning String :=
  if stop = ',' then do
    literal " \""
    let name ← unquote
    literal ")"
    return String.ofList name
  else return ""

def readInteger (digits : List Char) : Scanning Int64 :=
  liftM ((String.ofList digits).toInt?.map Int64.ofInt)

def isHex (c : Char) : Bool := (Integer.hexDigit? c).isSome

/-- The bytes of all hexadecimal digits in a text. -/
def readDigits (text : List Char) : Scanning ByteArray :=
  liftM ((Encoding.hexPairs? (text.filter isHex)).map List.toByteArray)

def readBlock : Scanning ArchiveEntry := do
  literal "data '"
  let code ← sized 4
  literal "' ("
  let (digits, stop) ← upTo [',', ')']
  let id ← readInteger digits
  let name ← readName stop
  literal " \x7b\n"
  let (text, _) ← upTo ['\x7d']
  let data ← readDigits text
  literal ";\n\n"
  return { code := String.ofList code, id, name, data }

/-- Reads blocks to the end of the text. -/
def readBlocks (cs : List Char) : Option (List ArchiveEntry) :=
  if cs.isEmpty then some [] else do
    let (e, rest) ← readBlock cs
    if _shorter : rest.length < cs.length then return e :: (← readBlocks rest) else none
termination_by cs.length

/-- All resources of an archive. -/
def read (bytes : List UInt8) : Option (List ArchiveEntry) :=
  readBlocks (Text.decodeLossy bytes).toList

/-! ### What the readers take -/

/-- The reader `x` takes `text` off the front of whatever starts with it. -/
def Takes {α : Type} (x : Scanning α) (text : List Char) (a : α) : Prop :=
  ∀ rest, x (text ++ rest) = some (a, rest)

namespace Takes

variable {α β : Type}

theorem pure (a : α) : Takes (Pure.pure a) [] a := fun _ => rfl

theorem lift {o : Option α} {a : α} (h : o = some a) : Takes (liftM o) [] a := by
  intro rest
  rw [h]
  rfl

theorem bind {x : Scanning α} {f : α → Scanning β} {text more : List Char} {a : α} {b : β}
    (first : Takes x text a) (second : Takes (f a) more b) : Takes (x >>= f) (text ++ more) b := by
  intro rest
  show (x (text ++ more ++ rest)).bind (fun p => f p.1 p.2) = _
  rw [List.append_assoc, first]
  exact second rest

theorem literal (text : String) : Takes (Rez.literal text) text.toList () := by
  intro rest
  rw [Rez.literal, if_pos (by simp), ← String.length_toList, List.drop_left]

theorem sized (cs : List Char) : Takes (Rez.sized (String.ofList cs).utf8ByteSize) cs cs := by
  intro rest
  induction cs with
  | nil => rw [String.ofList_nil, String.utf8ByteSize_empty, List.nil_append, Rez.sized]
  | cons c cs ih =>
    have whole : (String.ofList (c :: cs)).utf8ByteSize =
        c.utf8Size + (String.ofList cs).utf8ByteSize := by
      rw [String.ofList_cons, String.utf8ByteSize_append, String.utf8ByteSize_singleton]
    -- A character has at least one byte, so the size is a successor.
    have positive := c.utf8Size_pos
    obtain ⟨size, more⟩ : ∃ size, c.utf8Size + (String.ofList cs).utf8ByteSize = size + 1 :=
      ⟨c.utf8Size + (String.ofList cs).utf8ByteSize - 1, by omega⟩
    have left : size + 1 - c.utf8Size = (String.ofList cs).utf8ByteSize := by omega
    rw [whole, more, List.cons_append, Rez.sized, if_pos (by omega), left, ih]
    rfl

theorem upTo {stops front : List Char} (clear : ∀ c ∈ front, c ∉ stops) {stop : Char}
    (ends : stop ∈ stops) : Takes (Rez.upTo stops) (front ++ [stop]) (front, stop) := by
  intro rest
  induction front with
  | nil => rw [List.nil_append, List.singleton_append, Rez.upTo, if_pos ends]
  | cons c front ih =>
    rw [List.cons_append, List.cons_append, Rez.upTo, if_neg (clear c (by simp)),
      ih fun d member => clear d (by simp [member])]
    rfl

/-- A quotation mark of the text itself is behind a backslash, and so are backslashes: a mark
without one can only be the end. -/
theorem unquote (text : List Char) : Takes Rez.unquote (escape text ++ ['\x22']) text := by
  intro rest
  induction text with
  | nil => rfl
  | cons c text ih =>
    rw [escape]
    by_cases special : c = '\\' ∨ c = '\x22'
    · rw [if_pos (by simpa using special), List.cons_append, List.cons_append, List.cons_append,
        List.cons_append, Rez.unquote, ih]
      rfl
    · obtain ⟨notSlash, notQuote⟩ := not_or.1 special
      rw [if_neg (by simpa using special), List.cons_append, List.cons_append, Rez.unquote, ih]
      · rfl
      · exact notQuote
      · exact fun _ _ slash => absurd slash notSlash

end Takes

/-! ### Ids -/

theorem mem_digits {c : Char} (h : c ∈ (toString id).toList) : c.isDigit = true ∨ c = '-' := by
  have natural : ∀ {n : Nat}, c ∈ n.repr.toList → c.isDigit = true := by
    intro n member
    rw [Nat.toList_repr] at member
    exact Nat.isDigit_of_mem_toDigits (by decide) (by decide) member
  have member : c ∈ id.toInt.repr.toList := by rwa [← Int.toString_eq_repr]
  rw [Int.repr_eq_if] at member
  split at member
  · exact .inl (natural member)
  · rw [String.toList_append, List.mem_append] at member
    rcases member with sign | digit
    · exact .inr (by simpa using sign)
    · exact .inl (natural digit)

theorem takes_integer : Takes (readInteger (toString id).toList) [] id := by
  apply Takes.lift
  have text : toString id = id.toInt.repr := Int.toString_eq_repr
  rw [String.ofList_toList, text, Int.toInt?_repr, Option.map_some, Int64.ofInt_toInt]

/-! ### Data -/

theorem hexDigit?_digit {n : Nat} (h : n < 16) : Integer.hexDigit? (Hex.digit n) = some n := by
  revert h
  revert n
  decide

theorem hexPairs?_plain : Encoding.hexPairs? (Hex.plain bytes) = some bytes := by
  induction bytes with
  | nil => rfl
  | cons b bytes ih =>
    have bound := b.toNat_lt
    have high : b.toNat / 16 < 16 := by omega
    have low : b.toNat % 16 < 16 := by omega
    have pair :
        Encoding.hexPair? (Hex.digit (b.toNat / 16)) (Hex.digit (b.toNat % 16)) = some b := by
      rw [Encoding.hexPair?, hexDigit?_digit high, hexDigit?_digit low]
      show some (UInt8.ofNat (b.toNat / 16 * 16 + b.toNat % 16)) = some b
      rw [Nat.div_add_mod', UInt8.ofNat_toNat]
    show Encoding.hexPairs? (Hex.digit (b.toNat / 16) :: Hex.digit (b.toNat % 16) ::
      Hex.plain bytes) = _
    rw [Encoding.hexPairs?, pair, ih]
    rfl

theorem chunksFrom_flatten {α : Type} (size : Nat) (taken items : List α) :
    (chunksFrom size taken items).flatten = taken.reverse ++ items := by
  induction items generalizing taken with
  | nil =>
    rw [chunksFrom]
    cases taken <;> simp
  | cons a items ih =>
    rw [chunksFrom]
    split
    · rw [ih]
      simp
    · rw [List.flatten_cons, ih]
      simp

theorem filter_ofByte (b : UInt8) : (Hex.ofByte b).filter isHex = Hex.ofByte b := by
  have bound := b.toNat_lt
  have high : isHex (Hex.digit (b.toNat / 16)) = true := by
    rw [isHex, hexDigit?_digit (by omega)]
    rfl
  have low : isHex (Hex.digit (b.toNat % 16)) = true := by
    rw [isHex, hexDigit?_digit (by omega)]
    rfl
  rw [Hex.ofByte, List.filter_cons_of_pos high, List.filter_cons_of_pos low, List.filter_nil]

theorem filter_groups : (Hex.groups bytes).filter isHex = Hex.plain bytes := by
  fun_induction Hex.groups bytes with
  | case1 => rfl
  | case2 a => simp [Hex.plain, filter_ofByte]
  | case3 a b => simp [Hex.plain, filter_ofByte]
  | case4 a b rest _ ih =>
    have blank : isHex ' ' = false := rfl
    simp [Hex.plain, filter_ofByte, blank, ih]

theorem brace_notMem_groups : '\x7d' ∉ Hex.groups bytes := by
  have digits : ∀ b, '\x7d' ∉ Hex.ofByte b := by
    intro b member
    rw [← filter_ofByte] at member
    exact absurd (List.mem_filter.1 member).2 (by decide)
  fun_induction Hex.groups bytes with
  | case1 => simp
  | case2 a => exact digits a
  | case3 a b => simp [digits]
  | case4 a b rest _ ih => simp [digits, ih]

/-- The text of data. -/
def dataText (data : ByteArray) : List Char := (lines data).flatMap fun bytes => (line bytes).toList

variable (data : ByteArray)

theorem filter_dataText : (dataText data).filter isHex = Hex.plain data.toList := by
  have each : ∀ bytes, (line bytes).toList.filter isHex = Hex.plain bytes := by
    intro bytes
    have front : "\t$\"".toList.filter isHex = [] := by decide
    have back : "\"\n".toList.filter isHex = [] := by decide
    rw [line, String.toList_append, String.toList_append, List.filter_append, List.filter_append,
      front, back, String.toList_ofList, filter_groups, List.nil_append, List.append_nil]
  have whole : (lines data).flatten = data.toList := chunksFrom_flatten _ [] _
  calc (dataText data).filter isHex
      = (lines data).flatMap fun bytes => (line bytes).toList.filter isHex := List.filter_flatMap ..
    _ = (lines data).flatMap Hex.plain := by simp only [each]
    _ = Hex.plain ((lines data).flatMap id) := List.flatMap_assoc.symm
    _ = Hex.plain data.toList := by rw [List.flatMap_id, whole]

theorem brace_notMem_dataText : '\x7d' ∉ dataText data := by
  intro member
  obtain ⟨bytes, -, member⟩ := List.mem_flatMap.1 member
  simp only [line, String.toList_append, String.toList_ofList, List.mem_append] at member
  rcases member with (front | digits) | back
  · exact absurd front (by decide)
  · exact brace_notMem_groups digits
  · exact absurd back (by decide)

theorem takes_digits : Takes (readDigits (dataText data)) [] data := by
  apply Takes.lift
  rw [filter_dataText, hexPairs?_plain, Option.map_some, toByteArray_toList]

/-! ### Blocks -/

theorem takes_id {stop : Char} (stops : stop ∈ [',', ')']) :
    Takes (upTo [',', ')']) ((toString id).toList ++ [stop]) ((toString id).toList, stop) := by
  apply Takes.upTo _ stops
  intro c member stop
  rcases mem_digits member with digit | rfl
  · rcases List.mem_pair.1 stop with rfl | rfl <;> cases digit
  · exact absurd stop (by decide)

/-- What stands behind an id, up to the closing parenthesis, starts with a comma if there is a
name. -/
theorem exists_takes_name (name : String) : ∃ stop more, stop ∈ [',', ')'] ∧
    (nameText name).toList ++ [')'] = stop :: more ∧ Takes (readName stop) more name := by
  rw [nameText]
  by_cases empty : name.isEmpty
  · refine ⟨')', [], by simp, by simp [empty], ?_⟩
    rw [String.isEmpty_iff.1 empty]
    exact .pure ""
  · have taken : Takes (readName ',')
        (" \"".toList ++ (escape name.toList ++ ['\x22'] ++ (")".toList ++ [])))
        (String.ofList name.toList) := by
      rw [readName, if_pos rfl]
      exact (Takes.literal _).bind ((Takes.unquote _).bind ((Takes.literal _).bind (.pure _)))
    rw [String.ofList_toList] at taken
    exact ⟨',', _, by simp, by simp [empty], taken⟩

theorem takes_data : Takes (upTo ['\x7d']) (dataText data ++ ['\x7d']) (dataText data, '\x7d') := by
  apply Takes.upTo _ (by simp)
  intro c member stop
  rw [List.mem_singleton.1 stop] at member
  exact brace_notMem_dataText data member

theorem toList_block : (block e).toList =
    "data '".toList ++ (e.code.toList ++ ("' (".toList ++ ((toString e.id).toList ++
      ((nameText e.name).toList ++ [')'] ++ (" \x7b\n".toList ++ (dataText e.data ++ ['\x7d'] ++
        ";\n\n".toList)))))) := by
  have data : (String.join ((lines e.data).map line)).toList = dataText e.data := by
    rw [String.toList_join, List.flatMap_map, dataText]
  have head : ") \x7b\n".toList = [')'] ++ " \x7b\n".toList := rfl
  have tail : "\x7d;\n\n".toList = ['\x7d'] ++ ";\n\n".toList := rfl
  show ("data '" ++ e.code ++ "' (" ++ toString e.id ++ nameText e.name ++ ") \x7b\n" ++
    String.join ((lines e.data).map line) ++ "\x7d;\n\n").toList = _
  rw [String.toList_append, String.toList_append, String.toList_append, String.toList_append,
    String.toList_append, String.toList_append, String.toList_append, data, head, tail]
  simp only [List.append_assoc]

theorem takes_block (code : e.code.utf8ByteSize = 4) : Takes readBlock (block e).toList (kept e) := by
  have sized := Takes.sized e.code.toList
  rw [String.ofList_toList, code] at sized
  obtain ⟨stop, more, stops, head, named⟩ := exists_takes_name e.name
  have whole : Takes readBlock ("data '".toList ++ (e.code.toList ++ ("' (".toList ++
      ((toString e.id).toList ++ [stop] ++ ([] ++ (more ++ (" \x7b\n".toList ++
        (dataText e.data ++ ['\x7d'] ++ ([] ++ (";\n\n".toList ++ []))))))))))
      { code := String.ofList e.code.toList, id := e.id, name := e.name, data := e.data } :=
    (Takes.literal _).bind <| sized.bind <| (Takes.literal _).bind <| (takes_id stops).bind <|
      takes_integer.bind <| named.bind <| (Takes.literal _).bind <|
      (takes_data e.data).bind <| (takes_digits e.data).bind <| (Takes.literal _).bind <| .pure _
  rw [String.ofList_toList] at whole
  rw [toList_block, head]
  simpa [kept] using whole

theorem readBlocks_append (code : e.code.utf8ByteSize = 4) (rest : List Char) :
    readBlocks ((block e).toList ++ rest) = (readBlocks rest).map (kept e :: ·) := by
  have nonempty : 0 < (block e).toList.length := by
    rw [toList_block, List.length_append]
    have front : "data '".toList.length = 6 := rfl
    omega
  have shorter : rest.length < ((block e).toList ++ rest).length := by
    rw [List.length_append]
    omega
  have more : ((block e).toList ++ rest).isEmpty = false := by
    rw [List.isEmpty_eq_false_iff, ← List.length_pos_iff]
    omega
  rw [readBlocks, more, takes_block code]
  simp only [Bool.false_eq_true, if_false, Option.bind_eq_bind, Option.bind_some, shorter, dif_pos]
  cases readBlocks rest <;> rfl

/-- Every block is read back, whatever its name and its code contain. -/
theorem read_layOut {es : List ArchiveEntry} (codes : ∀ e ∈ es, e.code.utf8ByteSize = 4) :
    read (layOut es).toUTF8.toList = some (es.map kept) := by
  rw [read, ← Text.encode, Text.decodeLossy_encode, layOut, String.toList_join, List.flatMap_map]
  induction es with
  | nil =>
    rw [readBlocks]
    rfl
  | cons e es ih =>
    rw [List.flatMap_cons, readBlocks_append (codes e (by simp)),
      ih fun e' member => codes e' (by simp [member])]
    rfl

end Rez

theorem Rez.read_toBytes {a : Archive} {bytes : ByteArray} (reachable : Reachable .rez a)
    (h : a.toBytes = .ok bytes) : Rez.read bytes.toList = some (a.sorted.map kept) := by
  obtain ⟨_, -, h⟩ := exists_of_bind_eq_ok h
  rw [reachable.format_eq] at h
  cases h
  exact Rez.read_layOut fun e member =>
    reachable.sound.codes e ((sorted_perm a).mem_iff.1 member)

/-- From the text of a rez archive every entry is read back, in the order in which they are laid out
and but for attributes. So another writer has the same text only if it has the same entries. -/
theorem read_rez {a : Archive} {bytes : ByteArray} (reachable : Reachable .rez a)
    (h : a.toBytes = .ok bytes) :
    Rez.read bytes.toList = some (a.sorted.map kept) ∧
    ∀ a', Reachable .rez a' → a'.toBytes = .ok bytes → a'.sorted.map kept = a.sorted.map kept := by
  have found := Rez.read_toBytes reachable h
  refine ⟨found, fun a' reachable' h' => ?_⟩
  have found' := Rez.read_toBytes reachable' h'
  exact Option.some.inj (found'.symm.trans found)

theorem sorted_pair (format : Format) (e e' : ArchiveEntry) :
    ({ format, entries := [e, e'] } : Archive).sorted =
      if (e.compare e').isLE then [e, e'] else [e', e] := by
  by_cases order : (e.compare e').isLE = true
  · simp [sorted, List.mergeSort, order]
  · simp [sorted, List.mergeSort, order]

/-- A code and a name that look like the text around them, an id at the lower limit, and data for
more than one line. -/
def Sample.disguised : ArchiveEntry where
  code := "' (1"
  id := -32768
  name := "\\\") \x7b\n\x7d;\n\ndata 'PICT' (2, \"x"
  data := ⟨#[0, 1, 2, 3, 4, 5, 6, 7, 8, 9, 10, 11, 12, 13, 14, 15, 255]⟩

/-- The disguised entry is read back, and the one behind it has lost its attributes only. -/
theorem read_rez_sample : ∃ bytes,
    Reachable .rez { format := .rez, entries := [Sample.face, Sample.disguised] } ∧
    ({ format := .rez, entries := [Sample.face, Sample.disguised] } : Archive).toBytes = .ok bytes ∧
    Rez.read bytes.toList = some [Sample.disguised, Sample.plain] ∧
    ∀ a', Reachable .rez a' → a'.toBytes = .ok bytes →
      a'.sorted.map kept = [Sample.disguised, Sample.plain] := by
  have reachable : Reachable .rez { format := .rez, entries := [Sample.face, Sample.disguised] } :=
    .accepted (e := Sample.disguised) (.accepted (e := Sample.face) .new rfl) rfl
  have order : (Sample.face.compare Sample.disguised).isLE = false := by decide
  have sorted := sorted_pair .rez Sample.face Sample.disguised
  rw [order] at sorted
  obtain ⟨bytes, written⟩ : ∃ bytes,
      ({ format := .rez, entries := [Sample.face, Sample.disguised] } : Archive).toBytes =
        .ok bytes := by
    rw [toBytes, sorted]
    exact ⟨_, rfl⟩
  obtain ⟨found, others⟩ := read_rez reachable written
  rw [sorted] at found others
  exact ⟨bytes, reachable, written, found, others⟩

end Rsrc.Archive
