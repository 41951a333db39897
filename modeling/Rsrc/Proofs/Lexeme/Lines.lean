import Rsrc.Proofs.Lexeme.Partition

/-!
# A line break separates lexemes

A text that has lexemes keeps them in front of a line break, whatever follows. What follows is read
as it would be read on its own, only further on.
-/

namespace Rsrc

theorem Text.byteSize_eq (cs : List Char) : Text.byteSize cs = (String.ofList cs).utf8ByteSize := by
  induction cs with
  | nil => rfl
  | cons c cs ih => simp [Text.byteSize, ih]

/-- The error `n` bytes further on, in the given file. -/
def LexicalError.moved (file : String) (n : Nat) (e : LexicalError) : LexicalError :=
  ⟨e.cause, ⟨file, ⟨e.site.span.start + n, e.site.span.length⟩⟩⟩

namespace Lexeme

variable {source : SourceFile}

/-- The lexeme `n` bytes further on, in the given source. -/
def moved (source : SourceFile) (n : Nat) (l : Lexeme) : Lexeme :=
  { l with start := l.start + n, stop := l.stop + n, source }

theorem ofScan_moved {input : List Char} (s : Scan input) (source source' : SourceFile)
    (start n : Nat) : ofScan source' (start + n) s = (ofScan source start s).moved source' n := by
  simp only [ofScan, moved, Lexeme.mk.injEq, true_and, and_true]
  omega

/-- Lexing from another place, or in another source, moves the outcome. -/
theorem lexFrom_moved (source source' : SourceFile) (offset n : Nat) (input : List Char) :
    lexFrom source' (offset + n) input =
      match lexFrom source offset input with
      | .error e => .error (e.moved source'.name n)
      | .ok ls => .ok (ls.map (moved source' n)) := by
  induction offset, input using lexFrom_induction with
  | finish offset input ended =>
    rw [lexFrom_of_end ended, lexFrom_of_end ended]
    rfl
  | fault offset input c cs fault front faulty =>
    rw [lexFrom_of_fault front faulty, lexFrom_of_fault front faulty]
    simp only [LexicalError.moved, Except.error.injEq, LexicalError.mk.injEq, Site.mk.injEq,
      Span.mk.injEq, true_and, and_true]
    omega
  | lexeme offset input c cs s front scanned ih =>
    have start : offset + n + Text.byteSize (gap input).skipped =
        offset + Text.byteSize (gap input).skipped + n := by omega
    rw [lexFrom_of_scan front scanned, lexFrom_of_scan front scanned, start,
      ofScan_moved s source source', Nat.add_right_comm, ih]
    cases lexFrom source (offset + Text.byteSize (gap input).skipped + Text.byteSize s.taken)
        s.rest with
    | ok ls => rfl
    | error e => rfl

/-! ### Gaps in front of a line break -/

section

variable {a : List Char} (b : List Char)

theorem afterLine_append_of_mem {line : List Char} (h : '\n' ∈ line) :
    afterLine (line ++ b) = afterLine line ++ b := by
  obtain ⟨line, next, rfl, inLine⟩ := List.eq_append_cons_of_mem h
  rw [List.append_assoc, List.cons_append, afterLine_line inLine, afterLine_line inLine]

/-- What is behind a comment that is ended or broken off by the line break. -/
theorem rest_gap_afterLine {cs : List Char}
    (h : (gap (afterLine cs ++ '\n' :: b)).rest =
      if (gap (afterLine cs)).rest = [] then (gap b).rest
      else (gap (afterLine cs)).rest ++ '\n' :: b) :
    (gap (afterLine (cs ++ '\n' :: b))).rest =
      if (gap (afterLine cs)).rest = [] then (gap b).rest
      else (gap (afterLine cs)).rest ++ '\n' :: b := by
  by_cases line : '\n' ∈ cs
  · rw [afterLine_append_of_mem _ line, h]
  · rw [afterLine_line line, afterLine_of_notMem line]
    simp [gap]

/-- A gap that reaches the end of the text goes on behind the line break; one that ends at a lexeme
stays as it is. -/
theorem rest_gap_newline (a : List Char) :
    (gap (a ++ '\n' :: b)).rest =
      if (gap a).rest = [] then (gap b).rest else (gap a).rest ++ '\n' :: b := by
  induction a using gap.induct with
  | case1 =>
    have line : Text.isBlank '\n' = true := by decide
    simp [gap, gap_of_blank line]
  | case2 cs ih =>
    rw [List.cons_append, gap, gap]
    exact rest_gap_afterLine b ih
  | case3 cs ih =>
    rw [List.cons_append, List.cons_append, gap, gap]
    exact rest_gap_afterLine b ih
  | case4 c cs accent slashes blank ih =>
    rw [List.cons_append, gap_of_blank blank, gap_of_blank blank]
    exact ih
  | case5 c cs accent slashes visible =>
    have front : (gap (c :: cs)).rest = c :: cs := by
      rw [gap.eq_4 c cs accent slashes, if_neg visible]
    have starts := starts_of_gap front
    rw [gap_of_starts starts, if_neg (by simp), List.cons_append,
      gap_of_starts ((Broken.newline cs b).starts starts)]

end

/-- The outcome hangs on where the first lexeme starts and what follows. -/
theorem lexFrom_congr {offset offset' : Nat} {input input' : List Char}
    (rest : (gap input).rest = (gap input').rest)
    (start : offset + Text.byteSize (gap input).skipped =
      offset' + Text.byteSize (gap input').skipped) :
    lexFrom source offset input = lexFrom source offset' input' := by
  cases front : (gap input').rest with
  | nil => rw [lexFrom_of_end front, lexFrom_of_end (rest.trans front)]
  | cons c cs =>
    cases scanned : scan c cs with
    | error fault =>
      rw [lexFrom_of_fault front scanned, lexFrom_of_fault (rest.trans front) scanned, start]
    | ok s => rw [lexFrom_of_scan front scanned, lexFrom_of_scan (rest.trans front) scanned, start]

/-- A text without lexemes only moves what is behind it. -/
theorem lexFrom_newline_of_end {offset : Nat} {a : List Char} (b : List Char)
    (ended : (gap a).rest = []) :
    lexFrom source offset (a ++ '\n' :: b) = lexFrom source (offset + Text.byteSize a + 1) b := by
  have rest := rest_gap_newline b a
  rw [if_pos ended] at rest
  apply lexFrom_congr rest
  have skipped := congrArg Text.byteSize (gap (a ++ '\n' :: b)).split
  have own := congrArg Text.byteSize (gap b).split
  rw [rest] at skipped
  simp only [Text.byteSize_append, Text.byteSize] at skipped own
  have line : '\n'.utf8Size = 1 := rfl
  omega

theorem lexFrom_newline {offset : Nat} {a : List Char} {ls : List Lexeme} (b : List Char)
    (h : lexFrom source offset a = .ok ls) :
    lexFrom source offset (a ++ '\n' :: b) =
      (lexFrom source (offset + Text.byteSize a + 1) b).map (ls ++ ·) := by
  induction offset, a using lexFrom_induction generalizing ls with
  | finish offset a ended =>
    rw [lexFrom_of_end ended] at h
    cases h
    rw [lexFrom_newline_of_end b ended]
    cases lexFrom source (offset + Text.byteSize a + 1) b with
    | ok ls => rfl
    | error e => rfl
  | fault offset a c cs fault front faulty =>
    rw [lexFrom_of_fault front faulty] at h
    cases h
  | lexeme offset a c cs s front scanned ih =>
    rw [lexFrom_of_scan front scanned] at h
    obtain ⟨inner, lexed, rfl⟩ := Except.map_eq_ok h
    have rest := rest_gap_newline b a
    rw [if_neg (by simp [front]), front] at rest
    obtain ⟨cs', split, again⟩ := stable_scan scanned (Broken.newline s.rest b)
    obtain rfl : cs' = cs ++ '\n' :: b := by
      rw [← List.append_assoc, s.split] at split
      exact (List.cons.inj split).2.symm
    have skipped : (gap (a ++ '\n' :: b)).skipped = (gap a).skipped := by
      have whole := (gap (a ++ '\n' :: b)).split
      rw [rest, ← front, ← List.append_assoc] at whole
      exact List.append_cancel_right ((List.append_cancel_right whole).trans (gap a).split.symm)
    have size : Text.byteSize (gap a).skipped + (Text.byteSize s.taken + Text.byteSize s.rest) =
        Text.byteSize a := by
      rw [← Text.byteSize_append, s.split, ← front, ← Text.byteSize_append, (gap a).split]
    have place : offset + Text.byteSize (gap a).skipped + Text.byteSize s.taken +
        Text.byteSize s.rest + 1 = offset + Text.byteSize a + 1 := by omega
    rw [lexFrom_of_scan rest again, skipped]
    dsimp only [Scan.before]
    rw [ih lexed, place]
    cases lexFrom source (offset + Text.byteSize a + 1) b with
    | ok ls => rfl
    | error e => rfl

/-- A line break is a boundary: in front of it there are the lexemes of `a`, and behind it the
outcome is that of `b`, moved by the bytes of `a` and of the line break. -/
theorem lex_newline (name nameA nameB a b : String) {ls : List Lexeme}
    (h : lex ⟨nameA, a⟩ = .ok ls) :
    lex ⟨name, a ++ "\n" ++ b⟩ =
      match lex ⟨nameB, b⟩ with
      | .error e => .error (e.moved name (a.utf8ByteSize + 1))
      | .ok ls' => .ok (ls.map (moved ⟨name, a ++ "\n" ++ b⟩ 0) ++
          ls'.map (moved ⟨name, a ++ "\n" ++ b⟩ (a.utf8ByteSize + 1))) := by
  have front : lexFrom ⟨name, a ++ "\n" ++ b⟩ 0 a.toList =
      .ok (ls.map (moved ⟨name, a ++ "\n" ++ b⟩ 0)) := by
    have own : lexFrom ⟨nameA, a⟩ 0 a.toList = .ok ls := h
    rw [lexFrom_moved ⟨nameA, a⟩ ⟨name, a ++ "\n" ++ b⟩ 0 0, own]
  have text : (a ++ "\n" ++ b).toList = a.toList ++ '\n' :: b.toList := by simp
  have size : 0 + Text.byteSize a.toList + 1 = 0 + (a.utf8ByteSize + 1) := by
    rw [Text.byteSize_eq, String.ofList_toList, Nat.add_assoc]
  have behind := lexFrom_moved ⟨nameB, b⟩ ⟨name, a ++ "\n" ++ b⟩ 0 (a.utf8ByteSize + 1) b.toList
  rw [lex]
  dsimp only
  rw [text, lexFrom_newline b.toList front, size, behind, lex]
  dsimp only
  cases lexFrom ⟨nameB, b⟩ 0 b.toList with
  | ok ls' => rfl
  | error e => rfl

/-- A line that could go on as a shift and as a fraction, in front of one that starts so. -/
theorem lex_newline_fraction : ∃ ls ls', lex ⟨"a.rdl", "\x60é\nx<1"⟩ = .ok ls ∧ ls.length = 3 ∧
    lex ⟨"b.rdl", ".5<<y//"⟩ = .ok ls' ∧ ls'.length = 4 ∧
    lex ⟨"c.rdl", "\x60é\nx<1" ++ "\n" ++ ".5<<y//"⟩ =
      .ok (ls.map (moved ⟨"c.rdl", "\x60é\nx<1" ++ "\n" ++ ".5<<y//"⟩ 0) ++
        ls'.map (moved ⟨"c.rdl", "\x60é\nx<1" ++ "\n" ++ ".5<<y//"⟩ 8)) := by
  have first : (lex ⟨"a.rdl", "\x60é\nx<1"⟩).map List.length = .ok 3 := by decide +kernel
  have second : (lex ⟨"b.rdl", ".5<<y//"⟩).map List.length = .ok 4 := by decide +kernel
  obtain ⟨ls, lexed, three⟩ := Except.map_eq_ok first
  obtain ⟨ls', lexed', four⟩ := Except.map_eq_ok second
  have whole := lex_newline "c.rdl" "a.rdl" "b.rdl" "\x60é\nx<1" ".5<<y//" lexed
  rw [lexed'] at whole
  exact ⟨ls, ls', lexed, three, lexed', four, whole⟩

end Lexeme

end Rsrc
