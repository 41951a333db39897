import Rsrc.Lexeme.Lex
import Rsrc.Proofs.Lexeme.Scan

/-!
# Lexing partitions the source

The lexemes of a source stand in it one after another. Before, between and behind them there are
only blanks and comments, and each lexeme can be read again from its own characters.
-/

namespace Rsrc

theorem Except.map_eq_ok {ε α β : Type} {x : Except ε α} {f : α → β} {b : β}
    (h : x.map f = .ok b) : ∃ a, x = .ok a ∧ f a = b := by
  cases x with
  | error e => cases h
  | ok a => exact ⟨a, rfl, Except.ok.inj h⟩

theorem Except.map_eq_error {ε α β : Type} {x : Except ε α} {f : α → β} {e : ε}
    (h : x.map f = .error e) : x = .error e := by
  cases x with
  | error e' => exact congrArg _ (Except.error.inj h)
  | ok a => cases h

@[simp] theorem Text.byteSize_nil : Text.byteSize [] = 0 := rfl

@[simp] theorem Text.byteSize_append (xs ys : List Char) :
    Text.byteSize (xs ++ ys) = Text.byteSize xs + Text.byteSize ys := by
  induction xs with
  | nil => simp
  | cons c xs ih => simp [Text.byteSize, ih, Nat.add_assoc]

theorem Text.byteSize_pos {cs : List Char} (h : cs ≠ []) : 0 < Text.byteSize cs := by
  cases cs with
  | nil => exact absurd rfl h
  | cons c cs => exact Nat.add_pos_left c.utf8Size_pos _

theorem Span.Covers.behind {span : Span} {offset : Nat} {text slice : List Char}
    (front : List Char) (h : span.Covers (offset + Text.byteSize front) text slice) :
    span.Covers offset (front ++ text) slice := by
  obtain ⟨before, after, rfl, start, length⟩ := h
  exact ⟨front ++ before, after, by simp, by simp [start, Nat.add_assoc], length⟩

namespace Lexeme

variable {cs : List Char} {c : Char} {next : List Char}

/-! ### Lines -/

theorem isInLine_of_notMem (h : '\n' ∉ cs) : ∀ c ∈ cs, isInLine c = true := by
  intro c mem
  have other : c ≠ '\n' := by
    rintro rfl
    exact h mem
  simpa [isInLine] using other

theorem afterLine_of_notMem (h : '\n' ∉ cs) : afterLine cs = [] := by
  rw [afterLine, List.dropWhile_eq_nil_iff.2 (isInLine_of_notMem h), List.drop_nil]

theorem afterLine_line {line : List Char} (h : '\n' ∉ line) :
    afterLine (line ++ '\n' :: next) = next := by
  rw [afterLine, List.dropWhile_append_of_pos (isInLine_of_notMem h)]
  rfl

theorem restOfLine_of_notMem (h : '\n' ∉ cs) : restOfLine cs = cs := by
  have whole := restOfLine_append_afterLine cs
  rwa [afterLine_of_notMem h, List.append_nil] at whole

theorem restOfLine_line {line : List Char} (h : '\n' ∉ line) :
    restOfLine (line ++ '\n' :: next) = line ++ ['\n'] := by
  have whole := restOfLine_append_afterLine (line ++ '\n' :: next)
  rw [afterLine_line h] at whole
  exact List.append_cancel_right (whole.trans (List.append_cons ..))

/-! ### Gaps -/

/-- What opens a comment. -/
inductive Opens : List Char → Prop
  | accent : Opens ['\x60']
  | slashes : Opens ['/', '/']

/-- Blanks and comments in front of `rest`. A comment that no line break ends runs to the end of
the text. -/
inductive Trivia (rest : List Char) : List Char → Prop
  | nil : Trivia rest []
  | blank {c : Char} {cs : List Char} :
      Text.isBlank c = true → Trivia rest cs → Trivia rest (c :: cs)
  | comment {mark line cs : List Char} :
      Opens mark → '\n' ∉ line → Trivia rest cs → Trivia rest (mark ++ line ++ '\n' :: cs)
  | last {mark line : List Char} :
      Opens mark → '\n' ∉ line → rest = [] → Trivia rest (mark ++ line)

theorem Trivia.restOfLine {mark : List Char} (opens : Opens mark)
    (h : Trivia (gap (afterLine cs)).rest (gap (afterLine cs)).skipped) :
    Trivia (gap (afterLine cs)).rest (mark ++ restOfLine cs ++ (gap (afterLine cs)).skipped) := by
  by_cases line : '\n' ∈ cs
  · obtain ⟨line, next, rfl, inLine⟩ := List.eq_append_cons_of_mem line
    rw [restOfLine_line inLine]
    rw [afterLine_line inLine] at h ⊢
    have comment := Trivia.comment opens inLine h
    simpa using comment
  · rw [restOfLine_of_notMem line, afterLine_of_notMem line]
    simpa [gap] using Trivia.last opens line rfl

theorem trivia_gap (input : List Char) : Trivia (gap input).rest (gap input).skipped := by
  induction input using gap.induct with
  | case1 =>
    rw [gap]
    exact .nil
  | case2 cs ih =>
    rw [gap]
    exact ih.restOfLine .accent
  | case3 cs ih =>
    rw [gap]
    exact ih.restOfLine .slashes
  | case4 c cs accent slashes blank ih =>
    rw [gap.eq_4 c cs accent slashes, if_pos blank]
    exact .blank blank ih
  | case5 c cs accent slashes visible =>
    rw [gap.eq_4 c cs accent slashes, if_neg visible]
    exact .nil

theorem gap_of_blank (blank : Text.isBlank c = true) :
    gap (c :: cs) = ⟨c :: (gap cs).skipped, (gap cs).rest, by simp [(gap cs).split]⟩ := by
  have accent : c ≠ '\x60' := by
    rintro rfl
    cases blank
  have slash : c ≠ '/' := by
    rintro rfl
    cases blank
  rw [gap.eq_4 c cs accent fun _ first => absurd first slash]
  exact if_pos blank

/-- `c` in front of `cs` is neither a blank nor the start of a comment. -/
structure Starts (c : Char) (cs : List Char) : Prop where
  visible : ¬ Text.isBlank c = true
  accent : c ≠ '\x60'
  slashes : ¬ (c = '/' ∧ cs.head? = some '/')

theorem gap_of_starts (h : Starts c cs) : gap (c :: cs) = ⟨[], c :: cs, rfl⟩ := by
  rw [gap.eq_4 c cs h.accent fun next slash twice => h.slashes ⟨slash, by rw [twice]; rfl⟩,
    if_neg h.visible]

/-- A gap ends where a lexeme starts. -/
theorem starts_of_gap {input : List Char} (h : (gap input).rest = c :: cs) : Starts c cs := by
  induction input using gap.induct with
  | case1 =>
    rw [gap] at h
    cases h
  | case2 _ ih =>
    rw [gap] at h
    exact ih h
  | case3 _ ih =>
    rw [gap] at h
    exact ih h
  | case4 d ds accent slashes blank ih =>
    rw [gap.eq_4 d ds accent slashes, if_pos blank] at h
    exact ih h
  | case5 d ds accent slashes visible =>
    rw [gap.eq_4 d ds accent slashes, if_neg visible] at h
    cases h
    refine ⟨visible, accent, ?_⟩
    rintro ⟨slash, twice⟩
    obtain ⟨next, rfl⟩ := List.head?_eq_some_iff.1 twice
    exact slashes next slash rfl

theorem Broken.starts (broken : Broken cs next) (h : Starts c cs) : Starts c next :=
  ⟨h.visible, h.accent, fun ⟨slash, twice⟩ => h.slashes ⟨slash, broken.head? (by decide) twice⟩⟩

/-! ### The lexemes of an input -/

section

variable {source : SourceFile} {offset : Nat} {input cs : List Char} {c : Char}

theorem lexFrom_of_end (h : (gap input).rest = []) : lexFrom source offset input = .ok [] := by
  rw [lexFrom]
  split
  · rfl
  · rename_i h'
    cases h.symm.trans h'

theorem lexFrom_of_fault {fault : Fault} (h : (gap input).rest = c :: cs)
    (faulty : scan c cs = .error fault) :
    lexFrom source offset input = .error ⟨fault.cause, ⟨source.name,
      ⟨offset + Text.byteSize (gap input).skipped + fault.offset, fault.length⟩⟩⟩ := by
  rw [lexFrom]
  split
  · rename_i h'
    cases h.symm.trans h'
  · rename_i h'
    cases h.symm.trans h'
    rw [faulty]

theorem lexFrom_of_scan {s : Scan (c :: cs)} (h : (gap input).rest = c :: cs)
    (scanned : scan c cs = .ok s) :
    lexFrom source offset input =
      (lexFrom source (offset + Text.byteSize (gap input).skipped + Text.byteSize s.taken)
        s.rest).map (ofScan source (offset + Text.byteSize (gap input).skipped) s :: ·) := by
  rw [lexFrom]
  split
  · rename_i h'
    cases h.symm.trans h'
  · rename_i h'
    cases h.symm.trans h'
    rw [scanned]
    dsimp only
    cases lexFrom source (offset + Text.byteSize (gap input).skipped + Text.byteSize s.taken)
        s.rest with
    | error e => rfl
    | ok ls => rfl

end

/-- Lexing goes from lexeme to lexeme, until the text ends or a fault is found. -/
@[elab_as_elim]
theorem lexFrom_induction {motive : Nat → List Char → Prop}
    (finish : ∀ offset input, (gap input).rest = [] → motive offset input)
    (fault : ∀ offset input c cs fault, (gap input).rest = c :: cs → scan c cs = .error fault →
      motive offset input)
    (lexeme : ∀ offset input c cs (s : Scan (c :: cs)), (gap input).rest = c :: cs →
      scan c cs = .ok s →
      motive (offset + Text.byteSize (gap input).skipped + Text.byteSize s.taken) s.rest →
      motive offset input)
    (offset : Nat) (input : List Char) : motive offset input := by
  match front : (gap input).rest with
  | [] => exact finish offset input front
  | c :: cs =>
    match scanned : scan c cs with
    | .error f => exact fault offset input c cs f front scanned
    | .ok s =>
      have shorter : s.rest.length < input.length :=
        Nat.lt_of_lt_of_le s.length_rest_lt (front ▸ (gap input).length_rest_le)
      exact lexeme offset input c cs s front scanned (lexFrom_induction finish fault lexeme _ _)
termination_by input.length

/-- The lexeme as it stands in a source that has its characters only. -/
def alone (l : Lexeme) (name : String) (slice : List Char) : Lexeme :=
  { l with start := 0, stop := Text.byteSize slice, source := ⟨name, String.ofList slice⟩ }

/-- Lexing the characters on their own yields the lexeme: its kind, its text and its value. -/
def ReadsAlone (l : Lexeme) (slice : List Char) : Prop :=
  ∀ name, lex ⟨name, String.ofList slice⟩ = .ok [l.alone name slice]

/-- The text from byte `offset` on consists of the characters of the lexemes, in their order, with
blanks and comments before, between and behind them. -/
inductive Tiles : (offset : Nat) → (text : List Char) → List Lexeme → Prop
  | gap {offset : Nat} {skipped : List Char} : Trivia [] skipped → Tiles offset skipped []
  | lexeme {offset : Nat} {skipped slice rest : List Char} {l : Lexeme} {ls : List Lexeme} :
      Trivia (slice ++ rest) skipped → slice ≠ [] → l.start = offset + Text.byteSize skipped →
      l.stop = l.start + Text.byteSize slice → l.ReadsAlone slice → Tiles l.stop rest ls →
      Tiles offset (skipped ++ (slice ++ rest)) (l :: ls)

theorem readsAlone_ofScan {s : Scan (c :: cs)} (source : SourceFile) (start : Nat)
    (starts : Starts c cs) (scanned : scan c cs = .ok s) :
    (ofScan source start s).ReadsAlone s.taken := by
  intro name
  obtain ⟨more, split, again⟩ := stable_scan scanned .ends
  have taken : s.taken = c :: more := by simpa using split
  have broken : Broken cs more := by
    have cut : Broken (more ++ s.rest) (more ++ []) := Broken.ends.append more
    have whole : c :: (more ++ s.rest) = c :: cs := by rw [← List.cons_append, ← taken, s.split]
    rwa [List.append_nil, (List.cons.inj whole).2] at cut
  have gapless := gap_of_starts (broken.starts starts)
  have rest : (gap (c :: more)).rest = c :: more := by rw [gapless]
  have empty : (gap (s.before [] split).rest).rest = [] := by simp [Scan.before, gap]
  rw [lex]
  dsimp only
  rw [String.toList_ofList, taken, lexFrom_of_scan rest again, lexFrom_of_end empty, gapless]
  simp [alone, ofScan, Except.map, Scan.before, taken]

section

variable {source : SourceFile} {offset : Nat} {input : List Char}

theorem tiles_of_lexFrom {ls : List Lexeme} (h : lexFrom source offset input = .ok ls) :
    Tiles offset input ls := by
  induction offset, input using lexFrom_induction generalizing ls with
  | finish offset input ended =>
    rw [lexFrom_of_end ended] at h
    cases h
    have trivia := trivia_gap input
    have split := (gap input).split
    rw [ended] at trivia split
    rw [← split, List.append_nil]
    exact .gap trivia
  | fault offset input c cs fault front faulty =>
    rw [lexFrom_of_fault front faulty] at h
    cases h
  | lexeme offset input c cs s front scanned ih =>
    rw [lexFrom_of_scan front scanned] at h
    obtain ⟨inner, lexed, rfl⟩ := Except.map_eq_ok h
    have trivia := trivia_gap input
    have split := (gap input).split
    have alone := readsAlone_ofScan source (offset + Text.byteSize (gap input).skipped)
      (starts_of_gap front) scanned
    rw [front, ← s.split] at trivia split
    have tiles := Tiles.lexeme trivia s.nonempty rfl rfl alone (ih lexed)
    rwa [split] at tiles

theorem covers_of_lexFrom {e : LexicalError} (h : lexFrom source offset input = .error e) :
    e.site.file = source.name ∧ ∃ slice, e.site.span.Covers offset input slice := by
  induction offset, input using lexFrom_induction with
  | finish offset input ended =>
    rw [lexFrom_of_end ended] at h
    cases h
  | fault offset input c cs fault front faulty =>
    rw [lexFrom_of_fault front faulty] at h
    cases h
    obtain ⟨slice, before, after, covered, first, length⟩ := within_of_scan faulty
    have place : offset + Text.byteSize (gap input).skipped + fault.offset =
        offset + Text.byteSize (gap input).skipped + Text.byteSize before := by
      rw [Nat.zero_add] at first
      exact congrArg _ first
    have whole : input = (gap input).skipped ++ (before ++ slice ++ after) := by
      rw [← covered, ← front, (gap input).split]
    exact ⟨rfl, slice, (gap input).skipped ++ before, after, by simpa using whole,
      by simpa [Nat.add_assoc] using place, length⟩
  | lexeme offset input c cs s front scanned ih =>
    rw [lexFrom_of_scan front scanned] at h
    obtain ⟨file, slice, covered⟩ := ih (Except.map_eq_error h)
    have behind := (covered.behind s.taken).behind (gap input).skipped
    rw [s.split, ← front, (gap input).split] at behind
    exact ⟨file, slice, behind⟩

end

/-! ### The partition -/

section

variable {offset : Nat} {text : List Char} {ls : List Lexeme}

theorem Tiles.covers (h : Tiles offset text ls) :
    ∀ l ∈ ls, ∃ slice, l.span.Covers offset text slice ∧ slice ≠ [] ∧ l.ReadsAlone slice := by
  induction h with
  | gap => simp
  | @lexeme offset skipped slice rest l ls trivia nonempty start stop alone tiles ih =>
    intro m mem
    obtain rfl | mem := List.mem_cons.1 mem
    · refine ⟨slice, .behind skipped ⟨[], rest, rfl, start, ?_⟩, nonempty, alone⟩
      show m.stop - m.start = _
      omega
    · obtain ⟨slice', covered, rest⟩ := ih m mem
      rw [stop, start] at covered
      exact ⟨slice', .behind skipped (.behind slice covered), rest⟩

theorem Tiles.pairwise (h : Tiles offset text ls) :
    ls.Pairwise fun l m => l.stop ≤ m.start := by
  induction h with
  | gap => exact .nil
  | lexeme _ _ _ _ _ tiles ih =>
    refine .cons (fun m mem => ?_) ih
    obtain ⟨slice, ⟨before, after, -, start, -⟩, -⟩ := tiles.covers m mem
    exact Nat.le.intro start.symm

end

/-- The lexemes partition the source: they stand in it in turn with blanks and comments around
them, none reaches into the next, and each covers some characters that yield just this lexeme. -/
structure Partition (source : SourceFile) (lexemes : List Lexeme) : Prop where
  tiles : Tiles 0 source.contents.toList lexemes
  ordered : lexemes.Pairwise fun l m => l.stop ≤ m.start
  slices : ∀ l ∈ lexemes, l.start < l.stop ∧
    ∃ slice, l.span.Covers 0 source.contents.toList slice ∧ l.ReadsAlone slice

theorem Tiles.partition {source : SourceFile} {ls : List Lexeme}
    (h : Tiles 0 source.contents.toList ls) : Partition source ls := by
  refine ⟨h, h.pairwise, fun l mem => ?_⟩
  obtain ⟨slice, covered, nonempty, alone⟩ := h.covers l mem
  refine ⟨?_, slice, covered, alone⟩
  obtain ⟨-, -, -, -, length⟩ := covered
  have pos := Text.byteSize_pos nonempty
  have length : l.stop - l.start = Text.byteSize slice := length
  omega

/-- Lexing yields a partition of the source, or an error that covers characters of it. -/
theorem lex_partitions (source : SourceFile) :
    match lex source with
    | .error e => e.site.file = source.name ∧
        ∃ slice, e.site.span.Covers 0 source.contents.toList slice
    | .ok lexemes => Partition source lexemes := by
  cases lexed : lex source with
  | ok lexemes => exact (tiles_of_lexFrom lexed).partition
  | error e => exact covers_of_lexFrom lexed

/-- Lexemes that are told apart by what follows them, in front of comments and other letters. -/
def munched : SourceFile where
  name := "munched.rdl"
  contents := "a<<<1.5 7.x 50%0x1F // é\n#auto#auto.'é'.-3/\x60"

theorem lex_partitions_munched : ∃ lexemes, lex munched = .ok lexemes ∧
    lexemes.map (fun l => (l.kind, l.start, l.stop)) =
      [(.identifier, 0, 1), (.leftShift, 1, 3), (.leftAngle, 3, 4), (.decimal, 4, 7),
        (.integer, 8, 9), (.dot, 9, 10), (.identifier, 10, 11), (.percentage, 12, 15),
        (.integer, 15, 19), (.reference, 26, 31), (.reference, 31, 44), (.slash, 44, 45)] ∧
    Partition munched lexemes := by
  have kinds : (lex munched).map (List.map fun l => (l.kind, l.start, l.stop)) = .ok
      [(.identifier, 0, 1), (.leftShift, 1, 3), (.leftAngle, 3, 4), (.decimal, 4, 7),
        (.integer, 8, 9), (.dot, 9, 10), (.identifier, 10, 11), (.percentage, 12, 15),
        (.integer, 15, 19), (.reference, 26, 31), (.reference, 31, 44), (.slash, 44, 45)] := by
    decide +kernel
  have partitioned := lex_partitions munched
  cases lexed : lex munched with
  | error e =>
    rw [lexed] at kinds
    cases kinds
  | ok lexemes =>
    rw [lexed] at kinds partitioned
    exact ⟨lexemes, rfl, Except.ok.inj kinds, partitioned⟩

end Lexeme

end Rsrc
