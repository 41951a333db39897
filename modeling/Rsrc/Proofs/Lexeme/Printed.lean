import Rsrc.Proofs.Lexeme.Lines

/-!
# Printed references lex back

The text that displays a reference is one lexeme, with the reference as its value, if every name in
it is an identifier. A number is read back from its digits, `auto` is a name wherever a point
follows it, and the id that matches anything stands alone.
-/

namespace Rsrc

/-! ### Numbers -/

namespace Integer

theorem ofInt?_toInt (n : Int64) : ofInt? n.toInt = some n := by
  have lower := n.le_toInt
  have upper := n.toInt_lt
  have range : Int64.minValue.toInt ≤ n.toInt ∧ n.toInt ≤ Int64.maxValue.toInt := by
    simp only [Int64.toInt_minValue, Int64.toInt_maxValue]
    omega
  rw [ofInt?, if_pos range, Int64.ofInt_toInt]

theorem foldlM_digits {cs : List Char} (digits : ∀ c ∈ cs, c.isDigit = true) (n : Nat) :
    cs.foldlM (fun n c => if c.isDigit then some (n * 10 + (c.toNat - '0'.toNat)) else none) n =
      some (Nat.ofDigitChars 10 cs n) := by
  induction cs generalizing n with
  | nil => rfl
  | cons c cs ih =>
    have rest := ih (fun d member => digits d (List.mem_cons_of_mem c member))
      (n * 10 + (c.toNat - '0'.toNat))
    rw [List.foldlM_cons, if_pos (digits c List.mem_cons_self), Nat.ofDigitChars_cons,
      Nat.mul_comm 10 n]
    exact rest

theorem isDigit_toDigits {n : Nat} : ∀ c ∈ Nat.toDigits 10 n, c.isDigit = true :=
  fun _ member => Nat.isDigit_of_mem_toDigits (by decide) (by decide) member

theorem digits?_toDigits (n : Nat) : digits? (Nat.toDigits 10 n) = some n := by
  rw [digits?, if_neg (by simp [Nat.toDigits_ne_nil]), foldlM_digits isDigit_toDigits,
    Nat.ofDigitChars_toDigits (by decide) (by decide)]

/-- The characters of an integer: a digit or a minus sign, and digits behind it. -/
structure Decimal (c : Char) (cs : List Char) : Prop where
  first : c.isDigit = true ∨ c = '-' ∧ cs ≠ []
  digits : ∀ d ∈ cs, d.isDigit = true

theorem read?_of_digit {c : Char} {cs : List Char} (h : c.isDigit = true) :
    read? (c :: cs) = (digits? (c :: cs)).bind fun n => ofInt? n := by
  unfold read?
  split
  · rename_i minus
    cases minus
    cases h
  · rename_i plus
    cases plus
    cases h
  · rfl

/-- An integer is read back from its digits. -/
theorem read?_repr (n : Int64) :
    ∃ c cs, n.toInt.repr.toList = c :: cs ∧ Decimal c cs ∧ read? (c :: cs) = some n := by
  rw [Int.repr_eq_if]
  split
  · rename_i nonneg
    obtain ⟨c, cs, text⟩ : ∃ c cs, Nat.toDigits 10 n.toInt.toNat = c :: cs :=
      List.exists_cons_of_ne_nil Nat.toDigits_ne_nil
    have digits : ∀ d ∈ c :: cs, d.isDigit = true := text ▸ isDigit_toDigits
    refine ⟨c, cs, Nat.toList_repr.trans text, ⟨.inl (digits c List.mem_cons_self), ?_⟩, ?_⟩
    · exact fun d member => digits d (List.mem_cons_of_mem c member)
    · rw [read?_of_digit (digits c List.mem_cons_self), ← text, digits?_toDigits, Option.bind_some,
        Int.toNat_of_nonneg nonneg, ofInt?_toInt]
  · rename_i negative
    refine ⟨'-', Nat.toDigits 10 (-n.toInt).toNat, ?_, ⟨.inr ⟨rfl, Nat.toDigits_ne_nil⟩, ?_⟩, ?_⟩
    · rw [String.toList_append, Nat.toList_repr]
      rfl
    · exact isDigit_toDigits
    · have value : -((-n.toInt).toNat : Int) = n.toInt := by omega
      rw [read?, digits?_toDigits, Option.bind_some, value, ofInt?_toInt]

end Integer

namespace Lexeme

variable {id : Int64}

/-! ### Parts of a reference -/

/-- A letter or an underscore, and letters, digits and underscores behind it. -/
def IsIdentifier (name : String) : Prop :=
  ∃ c cs, name.toList = c :: cs ∧ isWordStart c = true ∧ ∀ d ∈ cs, isWordPart d = true

theorem not_number_of_isWordStart {c : Char} (h : isWordStart c = true) :
    (c.isDigit || c == '-') = false := by
  rw [Bool.eq_false_iff]
  intro number
  simp only [Bool.or_eq_true, beq_iff_eq] at number
  rcases number with digit | rfl
  · have start : (decide ('A'.val ≤ c.val ∧ c.val ≤ 'Z'.val) ||
        (decide ('a'.val ≤ c.val) && decide (c.val ≤ 'z'.val)) || c == '_') = true := h
    simp only [Char.isDigit, ge_iff_le, UInt32.le_iff_toNat_le, Bool.or_eq_true, Bool.and_eq_true,
      decide_eq_true_eq, beq_iff_eq] at start digit
    rcases start with letter | rfl
    · simp at letter digit
      omega
    · simp at digit
  · cases h

/-- A name that a point follows is a name, even if it is `auto`. -/
theorem part_identifier {name : String} (h : IsIdentifier name) (before rest : List Char) :
    part before (name.toList ++ '.' :: rest) =
      .ok (.name name.toList name.toList ('.' :: rest) rfl) := by
  obtain ⟨c, cs, text, start, word⟩ := h
  have taken : (cs ++ '.' :: rest).takeWhile isWordPart = cs := by
    rw [List.takeWhile_append_of_pos word]
    simp [isWordPart]
  have left : (cs ++ '.' :: rest).dropWhile isWordPart = '.' :: rest := by
    rw [List.dropWhile_append_of_pos word]
    simp [isWordPart]
  have number := not_number_of_isWordStart start
  rw [text]
  simp [part, number, start, taken, left]

theorem part_decimal {c : Char} {cs : List Char} (h : Integer.Decimal c cs)
    (read : Integer.read? (c :: cs) = some id) (before : List Char) :
    part before (c :: cs) = .ok (.id id (c :: cs) [] (List.append_nil _)) := by
  obtain ⟨first, digits⟩ := h
  have start : (c.isDigit || c == '-') = true := by
    rcases first with digit | ⟨rfl, -⟩
    · simp [digit]
    · rfl
  have inside : ∀ d ∈ cs, isDigitPart d = true := by
    intro d member
    simp [isDigitPart, digits d member]
  have taken : cs.takeWhile isDigitPart = cs := List.takeWhile_eq_self_iff.2 inside
  have left : cs.dropWhile isDigitPart = [] := List.dropWhile_eq_nil_iff.2 inside
  have more : c :: cs ≠ ['-'] := by
    rintro same
    cases same
    rcases first with digit | ⟨-, nonempty⟩
    · cases digit
    · exact nonempty rfl
  have clean : withoutUnderscores (c :: cs) = c :: cs := by
    refine List.filter_eq_self.2 fun d member => ?_
    rw [decide_eq_true_eq]
    rintro rfl
    rcases List.mem_cons.1 member with same | inside
    · rw [← same] at start
      cases start
    · cases digits _ inside
  simp [part, start, taken, left, more, clean, read]

/-- Every id but the one that matches anything ends a reference. -/
theorem part_idText (h : id ≠ Reference.anyId) (before : List Char) :
    part before (Reference.idText id).toList =
      .ok (.id id (Reference.idText id).toList [] (List.append_nil _)) := by
  by_cases auto : id = Reference.autoId
  · subst auto
    rfl
  · obtain ⟨c, cs, text, decimal, read⟩ := Integer.read?_repr id
    have same : (Reference.idText id).toList = c :: cs := by
      rw [Reference.idText, if_neg auto, if_neg h, Int.toString_eq_repr, text]
    rw [same]
    exact part_decimal decimal read before

/-! ### Whole references -/

/-- The names in front of an id, each with a point behind it. -/
def pointed (names : List String) : List Char := names.flatMap fun name => name.toList ++ ['.']

theorem parts_pointed {names : List String} (identifiers : ∀ name ∈ names, IsIdentifier name)
    (h : id ≠ Reference.anyId) (before : List Char) (known : List String) {r : Reference}
    (whole : ofParts (known ++ names) id = some r) :
    parts before known (pointed names ++ (Reference.idText id).toList) =
      .ok ⟨pointed names ++ (Reference.idText id).toList, ⟨[], List.append_nil _⟩, r⟩ := by
  induction names generalizing before known with
  | nil =>
    rw [List.append_nil] at whole
    rw [pointed, List.flatMap_nil, List.nil_append, parts, part_idText h]
    simp only [whole]
  | cons name names ih =>
    have inner := ih (fun other member => identifiers other (List.mem_cons_of_mem name member))
      (before ++ name.toList ++ ['.']) (known ++ [name]) (by simpa using whole)
    have first := part_identifier (identifiers name List.mem_cons_self) before
      (pointed names ++ (Reference.idText id).toList)
    have text : pointed (name :: names) ++ (Reference.idText id).toList =
        name.toList ++ '.' :: (pointed names ++ (Reference.idText id).toList) := by
      simp [pointed]
    rw [text, parts, first]
    simp only [afterPoint?, String.ofList_toList, inner]

/-- A question mark is no part, so where parts are read there is none in front. -/
theorem head?_of_parts {before input : List Char} {known : List String}
    {found : (taken : List Char) × { rest : List Char // taken ++ rest = input } × Reference}
    (h : parts before known input = .ok found) : input.head? ≠ some '?' := by
  intro mark
  obtain ⟨rest, rfl⟩ := List.head?_eq_some_iff.1 mark
  rw [parts] at h
  cases h

end Lexeme

namespace Reference

variable {r : Reference}

/-- A reference that its text tells: names are identifiers, only a type can have a container, and
the id that matches anything has neither. -/
structure Printable (r : Reference) : Prop where
  typeCode : r.typeCode = none
  typeName : ∀ name, r.typeName = some name → Lexeme.IsIdentifier name
  container : ∀ name, r.container = some name → Lexeme.IsIdentifier name
  typed : r.container ≠ none → r.typeName ≠ none
  any : r.id = anyId → r.typeName = none ∧ r.container = none

/-- The names of a reference as they are written. -/
def names (r : Reference) : List String := r.container.toList ++ r.typeName.toList

theorem Printable.identifiers (h : r.Printable) : ∀ name ∈ r.names, Lexeme.IsIdentifier name := by
  intro name member
  rcases List.mem_append.1 member with container | typeName
  · exact h.container name (Option.mem_toList.1 container)
  · exact h.typeName name (Option.mem_toList.1 typeName)

theorem Printable.ofParts (h : r.Printable) : Lexeme.ofParts r.names r.id = some r := by
  obtain ⟨id, typeName, typeCode, container⟩ := r
  obtain rfl : typeCode = none := h.typeCode
  cases container with
  | none => cases typeName <;> rfl
  | some container =>
    cases typeName with
    | none => exact absurd rfl (h.typed (by simp))
    | some typeName => rfl

theorem toList_partText (part : Option String) :
    (partText part).toList = Lexeme.pointed part.toList := by
  cases part with
  | none => rfl
  | some name => simp [partText, Lexeme.pointed]

/-- The characters behind the mark of a reference. -/
def body (r : Reference) : List Char := Lexeme.pointed r.names ++ (idText r.id).toList

theorem Printable.toList_display (h : r.Printable) : r.display.toList = '#' :: r.body := by
  have name : (r.typeName <|> r.typeCode) = r.typeName := by
    rw [h.typeCode]
    cases r.typeName <;> rfl
  rw [display, name, body, names]
  simp [toList_partText, Lexeme.pointed]

/-- What stands behind the mark is read as the reference. -/
theorem Printable.reference_body (h : r.Printable) :
    Lexeme.reference r.body = .ok (.slice .reference ('#' :: r.body) [] (List.append_nil _)
      (List.cons_ne_nil _ _) (some (.reference r))) := by
  by_cases any : r.id = anyId
  · -- Nothing stands in front of the id, so that the text is a question mark.
    obtain ⟨id, typeName, typeCode, container⟩ := r
    obtain rfl : typeCode = none := h.typeCode
    obtain ⟨rfl, rfl⟩ : typeName = none ∧ container = none := h.any any
    obtain rfl : id = anyId := any
    rfl
  · have read := Lexeme.parts_pointed h.identifiers any ['#'] [] h.ofParts
    rw [body, Lexeme.reference_of_parts (Lexeme.head?_of_parts read), read]

/-- Printed references lex back: the text that displays a reference is one lexeme, with the
reference as its value. -/
theorem lex_display {r : Reference} (h : r.Printable) (file : String) :
    Lexeme.lex ⟨file, r.display⟩ = .ok
      [{ kind := .reference, text := r.display, literal := some (.reference r), start := 0
         stop := r.display.utf8ByteSize, source := ⟨file, r.display⟩ }] := by
  have gap : Lexeme.gap ('#' :: r.body) = ⟨[], '#' :: r.body, rfl⟩ :=
    Lexeme.gap_of_starts ⟨by decide, by decide, by simp⟩
  have front : (Lexeme.gap ('#' :: r.body)).rest = '#' :: r.body := by rw [gap]
  have scanned : Lexeme.scan '#' r.body = _ := h.reference_body
  have behind : (Lexeme.gap []).rest = [] := by rw [Lexeme.gap]
  have text : String.ofList ('#' :: r.body) = r.display := by
    rw [← h.toList_display, String.ofList_toList]
  rw [Lexeme.lex]
  simp only [h.toList_display]
  rw [Lexeme.lexFrom_of_scan front scanned, gap]
  simp [Lexeme.Scan.slice, Lexeme.lexFrom_of_end behind, Except.map, Lexeme.ofScan,
    Text.byteSize_eq, text]

/-- The least id that is printed as a number, behind names that look like another id. -/
def lookalike : Reference :=
  { id := Int64.minValue + 2, typeName := some "auto", container := some "auto" }

theorem lex_display_lookalike :
    lookalike.display = "#auto.auto.-9223372036854775806" ∧
    Lexeme.lex ⟨"a.rdl", lookalike.display⟩ = .ok
      [{ kind := .reference, text := lookalike.display, literal := some (.reference lookalike)
         start := 0, stop := lookalike.display.utf8ByteSize
         source := ⟨"a.rdl", lookalike.display⟩ }] := by
  have auto : Lexeme.IsIdentifier "auto" :=
    ⟨'a', ['u', 't', 'o'], rfl, by decide, List.all_eq_true.1 (by decide)⟩
  refine ⟨by decide +kernel, lex_display ⟨rfl, ?_, ?_, by simp [lookalike], ?_⟩ "a.rdl"⟩
  · intro name found
    cases found
    exact auto
  · intro name found
    cases found
    exact auto
  · intro any
    exact absurd any (by decide)

end Reference

end Rsrc
