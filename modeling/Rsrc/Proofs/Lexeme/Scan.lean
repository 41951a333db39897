import Mathlib.Data.List.TakeWhile
import Rsrc.Lexeme.Scan

/-!
# What a scan depends on

A scanner takes as much as it can, and for that it looks at one or two characters behind what it
takes. What follows may be cut off at any place, or cut off and continued with another line: the
scan stays the same. Where a scan fails, the fault covers characters of the input.
-/

namespace Rsrc

/-- In a text that starts at byte `offset`, the span covers the characters `slice`. -/
def Span.Covers (span : Span) (offset : Nat) (text slice : List Char) : Prop :=
  ∃ before after, text = before ++ slice ++ after ∧
    span.start = offset + Text.byteSize before ∧ span.length = Text.byteSize slice

namespace Lexeme

variable {mark c : Char} {input cs rest : List Char} {fault : Fault}

/-- `next` goes on as `rest` does, up to a place where it ends or breaks the line. -/
inductive Broken : (rest next : List Char) → Prop
  | ends {rest : List Char} : Broken rest []
  | line {rest next : List Char} : Broken rest ('\n' :: next)
  | same {c : Char} {rest next : List Char} : Broken rest next → Broken (c :: rest) (c :: next)

namespace Broken

variable {rest next cs : List Char} {p : Char → Bool}

theorem append (front : List Char) (h : Broken rest next) :
    Broken (front ++ rest) (front ++ next) := by
  induction front with
  | nil => exact h
  | cons c front ih => exact ih.same

theorem newline (front next : List Char) : Broken front (front ++ '\n' :: next) := by
  induction front with
  | nil => exact .line
  | cons c front ih => exact ih.same

/-- A character in front of `next` is a line break, or it stands in front of `rest`. -/
theorem head {c : Char} (h : Broken rest (c :: next)) :
    c = '\n' ∨ ∃ more, rest = c :: more ∧ Broken more next := by
  cases h with
  | line => exact .inl rfl
  | same h => exact .inr ⟨_, rfl, h⟩

/-- A character other than a line break that is looked for is found in `next` only where it stands
in `rest`. -/
theorem head? {c : Char} (h : Broken rest next) (inLine : c ≠ '\n') (front : next.head? = some c) :
    rest.head? = some c := by
  obtain ⟨next, rfl⟩ := List.head?_eq_some_iff.1 front
  obtain line | ⟨more, rfl, -⟩ := h.head
  · exact absurd line inLine
  · rfl

/-- What ends a run of characters ends it also where the text is broken off. -/
theorem stops (h : Broken (cs.dropWhile p) next) (line : p '\n' = false) :
    next.takeWhile p = [] := by
  cases next with
  | nil => rfl
  | cons c next =>
    obtain rfl | ⟨more, stop, -⟩ := h.head
    · simp [line]
    · have last := List.head?_dropWhile_not p cs
      rw [stop] at last
      simp_all

theorem takeWhile_append (h : Broken (cs.dropWhile p) next) (line : p '\n' = false) :
    (cs.takeWhile p ++ next).takeWhile p = cs.takeWhile p ∧
      (cs.takeWhile p ++ next).dropWhile p = next := by
  have taken : (cs.takeWhile p ++ next).takeWhile p = cs.takeWhile p := by
    rw [List.takeWhile_append_of_pos fun c mem => List.mem_takeWhile_imp mem, h.stops line,
      List.append_nil]
  have whole := List.takeWhile_append_dropWhile (p := p) (l := cs.takeWhile p ++ next)
  rw [taken] at whole
  exact ⟨taken, List.append_cancel_left whole⟩

end Broken

/-- The lexeme that `s` found, in front of `next`. -/
def Scan.before {input input' : List Char} (s : Scan input) (next : List Char)
    (split : s.taken ++ next = input') : Scan input' :=
  { s with rest := next, split }

/-- A scanner of what stands behind `front` finds the same lexeme when the text behind it is
broken off. -/
def Stable (front : List Char) (scanner : ∀ cs, Except Fault (Scan (front ++ cs))) : Prop :=
  ∀ {cs next : List Char} {s : Scan (front ++ cs)}, scanner cs = .ok s → Broken s.rest next →
    ∃ cs' split, scanner cs' = .ok (s.before next split)

/-! ### Strings -/

theorem quote?_append {q : Quote input} (next : List Char) (h : quote? mark input = some q) :
    quote? mark (q.taken ++ next) = some ⟨q.text, q.taken, next, rfl⟩ := by
  fun_induction quote? mark input with
  | case1 => cases h
  | case2 cs =>
    cases h
    show quote? mark (mark :: next) = _
    rw [quote?.eq_def]
    exact if_pos rfl
  | case3 => cases h
  | case4 e rest inside ih =>
    obtain ⟨q', read, rfl⟩ := Option.map_eq_some_iff.1 h
    simp [quote?, inside, ih read]
  | case5 c cs inside plain ih =>
    obtain ⟨q', read, rfl⟩ := Option.map_eq_some_iff.1 h
    show quote? mark (c :: (q'.taken ++ next)) = _
    rw [quote?.eq_def]
    simp [inside, plain, ih read]

theorem stable_string : Stable [mark] (string mark) := by
  intro cs next s h _
  rw [string] at h
  split at h
  · cases h
  · rename_i q read
    cases h
    have again := quote?_append next read
    exact ⟨q.taken ++ next, rfl, by rw [string, again]; rfl⟩

/-! ### Numbers -/

theorem stable_hexNumber (zero mark : Char) : Stable [zero, mark] (hexNumber zero mark) := by
  intro cs next s h broken
  simp only [hexNumber] at h
  split at h
  · cases h
  · rename_i value read
    cases h
    obtain ⟨taken, rest⟩ := broken.takeWhile_append (p := isHexPart) (by decide)
    refine ⟨cs.takeWhile isHexPart ++ next, rfl, ?_⟩
    simp only [hexNumber, taken, rest, read]
    rfl

section

variable {input digits rest next : List Char} {split : digits ++ rest = input}
  {nonempty : digits ≠ []} {s : Scan input}

theorem wholeNumber_integer (plain : rest.head? ≠ some '%') : wholeNumber digits rest split nonempty =
      match Integer.read? (withoutUnderscores digits) with
      | none => .error (.invalidNumber digits)
      | some value => .ok (.slice .integer digits rest split nonempty (some (.integer value))) := by
  rw [wholeNumber]
  cases Integer.read? (withoutUnderscores digits) with
  | none => rfl
  | some value =>
    dsimp only
    split
    · cases plain rfl
    · rfl

/-- The last step of a number looks for the sign of a percentage. -/
theorem wholeNumber_broken (h : wholeNumber digits rest split nonempty = .ok s)
    (broken : Broken s.rest next) : ∃ rest', Broken rest rest' ∧
      ∃ split', wholeNumber digits rest' rfl nonempty = .ok (s.before next split') := by
  by_cases percent : rest.head? = some '%'
  · obtain ⟨rest, rfl⟩ := List.head?_eq_some_iff.1 percent
    rw [wholeNumber] at h
    split at h
    · cases h
    · rename_i value read
      cases h
      refine ⟨'%' :: next, broken.same, List.append_assoc digits ['%'] next, ?_⟩
      rw [wholeNumber, read]
      rfl
  · rw [wholeNumber_integer percent] at h
    split at h
    · cases h
    · rename_i value read
      cases h
      refine ⟨next, broken, rfl, ?_⟩
      rw [wholeNumber_integer fun sign => percent (broken.head? (by decide) sign), read]
      rfl

/-- A point is part of the number when a digit follows it. -/
def HasFraction (rest : List Char) : Prop := ∃ d more, rest = '.' :: d :: more ∧ d.isDigit = true

theorem Broken.hasFraction (broken : Broken rest next) (h : HasFraction next) :
    HasFraction rest := by
  obtain ⟨d, more, rfl, digit⟩ := h
  obtain line | ⟨rest, rfl, behind⟩ := broken.head
  · cases line
  · obtain line | ⟨rest, rfl, -⟩ := behind.head
    · rw [line] at digit
      cases digit
    · exact ⟨d, rest, rfl, digit⟩

theorem decimalNumber_whole (whole : ¬ HasFraction rest) :
    decimalNumber digits rest split nonempty = wholeNumber digits rest split nonempty := by
  unfold decimalNumber
  split
  · rename_i d rest _
    exact if_neg fun digit => whole ⟨d, rest, rfl, digit⟩
  · rfl

theorem decimalNumber_fraction {d : Char} (split : digits ++ '.' :: d :: rest = input)
    (digit : d.isDigit = true) :
    decimalNumber digits ('.' :: d :: rest) split nonempty =
      .ok (.slice .decimal (digits ++ '.' :: d :: rest.takeWhile isDigitPart)
        (rest.dropWhile isDigitPart) (by simpa using split) (by simp)
        (some (.decimal (decimalValue (withoutUnderscores digits)
          (withoutUnderscores (d :: rest.takeWhile isDigitPart)))))) := by
  have part : isDigitPart d = true := by simp [isDigitPart, digit]
  simp only [decimalNumber, if_pos digit, List.takeWhile_cons_of_pos part,
    List.dropWhile_cons_of_pos part]

theorem decimalNumber_broken (h : decimalNumber digits rest split nonempty = .ok s)
    (broken : Broken s.rest next) : ∃ rest', Broken rest rest' ∧
      ∃ split', decimalNumber digits rest' rfl nonempty = .ok (s.before next split') := by
  by_cases fraction : HasFraction rest
  · obtain ⟨d, rest, rfl, digit⟩ := fraction
    rw [decimalNumber_fraction split digit] at h
    cases h
    have behind := broken.append (rest.takeWhile isDigitPart)
    obtain ⟨taken, after⟩ := broken.takeWhile_append (p := isDigitPart) (by decide)
    rw [Scan.slice, List.takeWhile_append_dropWhile] at behind
    refine ⟨'.' :: d :: (rest.takeWhile isDigitPart ++ next), behind.same.same,
      List.append_assoc digits _ next, ?_⟩
    rw [decimalNumber_fraction rfl digit]
    simp only [taken, after]
    rfl
  · rw [decimalNumber_whole fraction] at h
    obtain ⟨rest', behind, split', same⟩ := wholeNumber_broken h broken
    refine ⟨rest', behind, split', ?_⟩
    rw [decimalNumber_whole fun point => fraction (behind.hasFraction point), same]

end

theorem number_decimal (plain : ¬ (c = '0' ∧ (cs.head? = some 'x' ∨ cs.head? = some 'X'))) :
    number c cs = decimalNumber (c :: cs.takeWhile isDigitPart) (cs.dropWhile isDigitPart)
      (by simp) (by simp) := by
  unfold number
  split
  · exact absurd ⟨rfl, .inl rfl⟩ plain
  · exact absurd ⟨rfl, .inr rfl⟩ plain
  · rfl

theorem stable_number : Stable [c] (number c) := by
  intro cs next s h broken
  by_cases hex : c = '0' ∧ (cs.head? = some 'x' ∨ cs.head? = some 'X')
  · obtain ⟨rfl, mark | mark⟩ := hex
    all_goals
      obtain ⟨cs, rfl⟩ := List.head?_eq_some_iff.1 mark
      obtain ⟨cs', split, same⟩ := stable_hexNumber _ _ h broken
      exact ⟨_ :: cs', split, same⟩
  · rw [number_decimal hex] at h
    obtain ⟨rest, behind, split, same⟩ := decimalNumber_broken h broken
    obtain ⟨digits, after⟩ := behind.takeWhile_append (p := isDigitPart) (by decide)
    have near := behind.append (cs.takeWhile isDigitPart)
    rw [List.takeWhile_append_dropWhile] at near
    refine ⟨cs.takeWhile isDigitPart ++ rest, split, ?_⟩
    rw [number_decimal]
    · simp only [digits, after]
      exact same
    · rintro ⟨zero, mark | mark⟩
      · exact hex ⟨zero, .inl (near.head? (by decide) mark)⟩
      · exact hex ⟨zero, .inr (near.head? (by decide) mark)⟩

/-! ### Names with a mark -/

theorem isWordPart_of_isWordStart (h : isWordStart c = true) : isWordPart c = true := by
  simp only [isWordStart, isWordPart, Char.isAlphanum, Bool.or_eq_true] at h ⊢
  exact h.imp_left .inl

theorem stable_atName : Stable ['@'] atName := by
  intro cs next s h broken
  simp only [atName] at h
  split at h
  · rename_i start
    cases h
    obtain ⟨name, after⟩ := broken.takeWhile_append (p := isWordPart) (by decide)
    refine ⟨cs.takeWhile isWordPart ++ next, rfl, ?_⟩
    have again : ((cs.takeWhile isWordPart ++ next).head?).any isWordStart := by
      obtain _ | ⟨c, cs⟩ := cs
      · cases start
      · have first : isWordStart c = true := start
        simpa [List.takeWhile_cons_of_pos (isWordPart_of_isWordStart first)] using first
    simp only [atName, if_pos again, name, after]
    rfl
  · cases h

theorem stable_variableName : Stable ['$'] variableName := by
  intro cs next s h broken
  simp only [variableName] at h
  split at h
  · cases h
  · rename_i nonempty
    cases h
    obtain ⟨name, after⟩ := broken.takeWhile_append (p := isWordPart) (by decide)
    refine ⟨cs.takeWhile isWordPart ++ next, rfl, ?_⟩
    simp only [variableName, name, after, if_neg nonempty]
    rfl

/-! ### References -/

section

variable {before input text taken rest next : List Char} {split : taken ++ rest = input}

theorem part_id {id : Int64} (h : part before input = .ok (.id id taken rest split))
    (broken : Broken rest next) :
    part before (taken ++ next) = .ok (.id id taken next rfl) := by
  unfold part at h
  split at h
  · cases h
  · rename_i c cs
    split at h
    · rename_i number
      dsimp only at h
      split at h
      · cases h
      · rename_i sign
        split at h
        · cases h
        · rename_i value read
          cases h
          obtain ⟨digits, after⟩ := broken.takeWhile_append (p := isDigitPart) (by decide)
          simp only [List.cons_append, part, if_pos number, digits, after, if_neg sign, read]
    · rename_i number
      split at h
      · rename_i word
        dsimp only at h
        split at h
        · rename_i auto
          cases h
          obtain ⟨name, after⟩ := broken.takeWhile_append (p := isWordPart) (by decide)
          simp only [Bool.and_eq_true, bne_iff_ne, decide_eq_true_eq] at auto
          have noPoint : next.head? ≠ some '.' :=
            fun point => auto.2 (broken.head? (by decide) point)
          simp [part, number, word, name, after, auto.1, noPoint]
        · cases h
      · split at h
        · split at h <;> cases h
        · cases h

/-- Whether `auto` is a name hangs on the point behind it. -/
theorem part_name (h : part before input = .ok (.name text taken rest split))
    (broken : Broken rest next) (same : next.head? = rest.head?) :
    part before (taken ++ next) = .ok (.name text taken next rfl) := by
  unfold part at h
  split at h
  · cases h
  · rename_i c cs
    split at h
    · dsimp only at h
      split at h
      · cases h
      · split at h <;> cases h
    · rename_i number
      split at h
      · rename_i word
        dsimp only at h
        split at h
        · cases h
        · rename_i plain
          cases h
          obtain ⟨name, after⟩ := broken.takeWhile_append (p := isWordPart) (by decide)
          simp only [List.cons_append, part, if_neg number, if_pos word, name, after, same,
            if_neg plain]
      · rename_i word
        split at h
        · rename_i mark
          split at h
          · cases h
          · rename_i q read
            cases h
            simp only [List.cons_append, part, if_neg number, if_neg word, if_pos mark,
              quote?_append next read]
        · cases h

end

theorem parts_broken {before input' taken next : List Char} {names : List String}
    {split : taken ++ rest = input} {reference : Reference}
    (h : parts before names input = .ok ⟨taken, ⟨rest, split⟩, reference⟩)
    (broken : Broken rest next) (split' : taken ++ next = input') :
    parts before names input' = .ok ⟨taken, ⟨next, split'⟩, reference⟩ := by
  fun_induction parts before names input generalizing input' taken rest with
  | case1 => cases h
  | case2 => cases h
  | case3 before names id taken rest _ found read =>
    cases h
    subst split'
    rw [parts, part_id read broken]
    simp only [found]
  | case4 => cases h
  | case5 => cases h
  | case6 before names text taken more rest _ inner _ read ih =>
    cases h
    obtain rfl : input' = taken ++ '.' :: (more ++ next) := by simp [← split']
    have behind : Broken ('.' :: (more ++ rest)) ('.' :: (more ++ next)) :=
      (broken.append more).same
    rw [parts, part_name read behind rfl]
    simp only [afterPoint?, ih inner broken rfl]

theorem reference_of_parts (other : cs.head? ≠ some '?') :
    reference cs = match parts ['#'] [] cs with
      | .error fault => .error fault
      | .ok ⟨taken, ⟨rest, split⟩, reference⟩ => .ok
          (.slice .reference ('#' :: taken) rest (by simp [split]) (by simp)
            (some (.reference reference))) := by
  unfold reference
  split
  · exact absurd rfl other
  · rfl

theorem stable_reference : Stable ['#'] reference := by
  intro cs next s h broken
  by_cases any : cs.head? = some '?'
  · obtain ⟨cs, rfl⟩ := List.head?_eq_some_iff.1 any
    cases h
    exact ⟨'?' :: next, rfl, rfl⟩
  · rw [reference_of_parts any] at h
    split at h
    · cases h
    · rename_i taken rest split value read
      cases h
      have other : (taken ++ next).head? ≠ some '?' := by
        intro mark
        have near := broken.append taken
        rw [Scan.slice, split] at near
        exact any (near.head? (by decide) mark)
      refine ⟨taken ++ next, rfl, ?_⟩
      rw [reference_of_parts other, parts_broken read broken rfl]
      rfl

/-! ### Any lexeme -/

/-- The same angle bracket twice. -/
def isShift (c : Char) (cs : List Char) : Bool := (c = '<' || c = '>') && cs.head? = some c

theorem Broken.isShift {next : List Char} (broken : Broken rest next)
    (single : isShift c rest = false) : isShift c next = false := by
  rw [Bool.eq_false_iff] at single ⊢
  intro shift
  apply single
  simp only [Lexeme.isShift, Bool.and_eq_true, Bool.or_eq_true, decide_eq_true_eq] at shift ⊢
  obtain ⟨angle, twice⟩ := shift
  refine ⟨angle, broken.head? ?_ twice⟩
  rintro rfl
  simp at angle

theorem scan_punctuation {kind : LexemeKind} (single : punctuation? c = some kind)
    (shift : isShift c cs = false) : scan c cs = .ok (.slice kind [c] cs rfl (by simp)) := by
  unfold scan
  split
  · cases shift
  · cases shift
  all_goals first | cases single | rw [single]

/-- Whether a character starts a lexeme that is told by its first character. -/
def isMark (c : Char) : Bool := c ∈ ['\x22', '\x27', '#', '@', '$']

theorem scan_word (mark : isMark c = false) (other : punctuation? c = none) :
    scan c cs = if c.isDigit then number c cs
      else if isWordStart c then
        .ok (.slice .identifier (c :: cs.takeWhile isWordPart) (cs.dropWhile isWordPart)
          (by simp) (by simp))
      else .error (.spanning (.unrecognised c) [c]) := by
  unfold scan
  split
  · cases other
  · cases other
  all_goals first | cases mark | rw [other]

theorem stable_scan : Stable [c] (scan c) := by
  intro cs next s h broken
  cases single : punctuation? c with
  | some kind =>
    cases shift : isShift c cs with
    | true =>
      simp only [isShift, Bool.and_eq_true, Bool.or_eq_true, decide_eq_true_eq] at shift
      obtain ⟨rfl | rfl, twice⟩ := shift
      all_goals
        obtain ⟨cs, rfl⟩ := List.head?_eq_some_iff.1 twice
        cases h
        exact ⟨_ :: next, rfl, rfl⟩
    | false =>
      rw [scan_punctuation single shift] at h
      cases h
      exact ⟨next, rfl, scan_punctuation single (broken.isShift shift)⟩
  | none =>
    cases mark : isMark c with
    | true =>
      simp only [isMark, List.mem_cons, List.not_mem_nil, or_false, decide_eq_true_eq] at mark
      obtain rfl | rfl | rfl | rfl | rfl := mark
      · exact stable_string h broken
      · exact stable_string h broken
      · exact stable_reference h broken
      · exact stable_atName h broken
      · exact stable_variableName h broken
    | false =>
      rw [scan_word mark single] at h
      split at h
      · rename_i digit
        obtain ⟨cs', split, same⟩ := stable_number h broken
        exact ⟨cs', split, by rw [scan_word mark single, if_pos digit, same]⟩
      · rename_i digit
        split at h
        · rename_i word
          cases h
          obtain ⟨name, after⟩ := broken.takeWhile_append (p := isWordPart) (by decide)
          refine ⟨cs.takeWhile isWordPart ++ next, rfl, ?_⟩
          rw [scan_word mark single, if_neg digit, if_pos word]
          simp only [name, after]
          rfl
        · cases h

/-! ### Faults -/

/-- The fault covers characters of the input. -/
def Fault.Within (fault : Fault) (input : List Char) : Prop :=
  ∃ slice, Span.Covers ⟨fault.offset, fault.length⟩ 0 input slice

theorem Fault.within_spanning {cause : LexicalCause} {taken : List Char}
    (split : taken ++ rest = input) : (Fault.spanning cause taken).Within input :=
  ⟨taken, [], rest, split.symm, rfl, rfl⟩

/-- A fault of one byte covers a character of one byte. -/
theorem Fault.within_single (cause : LexicalCause) (before rest : List Char)
    (size : c.utf8Size = 1) :
    (⟨cause, Text.byteSize before, 1⟩ : Fault).Within (before ++ c :: rest) :=
  ⟨[c], before, rest, by simp, (Nat.zero_add _).symm, by simp [Text.byteSize, size]⟩

theorem within_of_string (size : mark.utf8Size = 1) (h : string mark cs = .error fault) :
    fault.Within (mark :: cs) := by
  rw [string] at h
  split at h
  · cases h
    exact Fault.within_single _ [] cs size
  · cases h

theorem within_of_hexNumber {zero : Char} (h : hexNumber zero mark cs = .error fault) :
    fault.Within (zero :: mark :: cs) := by
  simp only [hexNumber] at h
  split at h
  · cases h
    have split : (zero :: mark :: cs.takeWhile isHexPart) ++ cs.dropWhile isHexPart =
        zero :: mark :: cs := by simp
    exact Fault.within_spanning split
  · cases h

theorem within_of_wholeNumber {digits : List Char} {split : digits ++ rest = input}
    {nonempty : digits ≠ []} (h : wholeNumber digits rest split nonempty = .error fault) :
    fault.Within input := by
  subst split
  rw [wholeNumber] at h
  split at h
  · cases h
    exact Fault.within_spanning rfl
  · split at h <;> cases h

theorem within_of_decimalNumber {digits : List Char} {split : digits ++ rest = input}
    {nonempty : digits ≠ []} (h : decimalNumber digits rest split nonempty = .error fault) :
    fault.Within input := by
  by_cases fraction : HasFraction rest
  · obtain ⟨d, rest, rfl, digit⟩ := fraction
    rw [decimalNumber_fraction split digit] at h
    cases h
  · rw [decimalNumber_whole fraction] at h
    exact within_of_wholeNumber h

theorem within_of_number (h : number c cs = .error fault) : fault.Within (c :: cs) := by
  unfold number at h
  split at h
  · exact within_of_hexNumber h
  · exact within_of_hexNumber h
  · exact within_of_decimalNumber h

theorem within_of_atName (h : atName cs = .error fault) : fault.Within ('@' :: cs) := by
  simp only [atName] at h
  split at h
  · cases h
  · cases h
    exact Fault.within_single _ [] cs rfl

theorem within_of_variableName (h : variableName cs = .error fault) : fault.Within ('$' :: cs) := by
  simp only [variableName] at h
  split at h
  · cases h
    exact Fault.within_single _ [] cs rfl
  · cases h

theorem within_of_part {before : List Char} (h : part before input = .error fault) :
    fault.Within (before ++ input) := by
  unfold part at h
  split at h
  · cases h
    exact Fault.within_spanning rfl
  · rename_i c cs
    split at h
    · dsimp only at h
      have whole : before ++ (c :: cs.takeWhile isDigitPart) ++ cs.dropWhile isDigitPart =
          before ++ c :: cs := by simp
      split at h
      · cases h
        exact Fault.within_spanning whole
      · split at h
        · cases h
          exact Fault.within_spanning whole
        · cases h
    · split at h
      · dsimp only at h
        split at h <;> cases h
      · split at h
        · rename_i mark
          split at h
          · cases h
            simp only [Bool.or_eq_true, decide_eq_true_eq] at mark
            exact Fault.within_single _ before cs (by obtain rfl | rfl := mark <;> rfl)
          · cases h
        · cases h
          exact Fault.within_spanning rfl

theorem within_of_parts {before : List Char} {names : List String}
    (h : parts before names input = .error fault) : fault.Within (before ++ input) := by
  fun_induction parts before names input with
  | case1 before names input fault read =>
    cases h
    exact within_of_part read
  | case2 before names id taken rest =>
    cases h
    exact Fault.within_spanning (List.append_assoc before taken rest)
  | case3 => cases h
  | case4 before names text taken rest =>
    cases h
    exact Fault.within_spanning (List.append_assoc before taken rest)
  | case5 before names text taken next _ inner _ read ih =>
    cases h
    simpa using ih inner
  | case6 => cases h

theorem within_of_reference (h : reference cs = .error fault) : fault.Within ('#' :: cs) := by
  unfold reference at h
  split at h
  · cases h
  · split at h
    · rename_i read
      cases h
      exact within_of_parts read
    · cases h

theorem within_of_scan (h : scan c cs = .error fault) : fault.Within (c :: cs) := by
  unfold scan at h
  split at h
  · cases h
  · cases h
  · exact within_of_string rfl h
  · exact within_of_string rfl h
  · exact within_of_reference h
  · exact within_of_atName h
  · exact within_of_variableName h
  · split at h
    · cases h
    · split at h
      · exact within_of_number h
      · split at h
        · cases h
        · cases h
          exact Fault.within_spanning rfl

end Lexeme

end Rsrc
