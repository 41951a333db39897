import Rsrc.Proofs.Local

/-!
# Skipping constructs

A construct is a line up to a semicolon, or a head and a block in braces with an optional semicolon.
Wherever the reading of a construct stops, recovery goes to its end (`Cursor.recover_construct`). Recovery
in a part of a file does the same in two settings, or else it leaves the part (`Cursor.recover_within`).
-/

namespace Rsrc

namespace Cursor

/-! ### What is passed -/

theorem passConstruct_spec (passed : List Lexeme) (depth : Int) (closed : Bool)
    (ahead : List Lexeme) :
    ∃ more, ahead = more ++ (passConstruct passed depth closed ahead).2 ∧
      (passConstruct passed depth closed ahead).1 = more.reverse ++ passed := by
  induction ahead generalizing passed depth closed with
  | nil => exact ⟨[], rfl, rfl⟩
  | cons l ahead ih =>
    have step : ∀ depth closed, ∃ more,
        l :: ahead = more ++ (passConstruct (l :: passed) depth closed ahead).2 ∧
          (passConstruct (l :: passed) depth closed ahead).1 = more.reverse ++ passed := by
      intro depth closed
      obtain ⟨more, split, done⟩ := ih (l :: passed) depth closed
      refine ⟨l :: more, ?_, ?_⟩
      · rw [List.cons_append, ← split]
      · rw [done, List.reverse_cons, List.append_assoc]
        rfl
    unfold passConstruct
    split
    · exact ⟨[], rfl, rfl⟩
    · split
      · split
        · exact ⟨[l], rfl, rfl⟩
        · exact step ..
      · exact step ..
      · exact step ..
      · exact step ..

theorem length_passConstruct_lt {depth : Int} {closed : Bool} (go : ¬ (depth ≤ 0 && closed) = true)
    (passed : List Lexeme) (l : Lexeme) (ahead : List Lexeme) :
    (passConstruct passed depth closed (l :: ahead)).2.length < (l :: ahead).length := by
  have fewer : ∀ depth closed, (passConstruct (l :: passed) depth closed ahead).2.length <
      (l :: ahead).length := by
    intro depth closed
    obtain ⟨more, split, -⟩ := passConstruct_spec (l :: passed) depth closed ahead
    have total := congrArg List.length split
    rw [List.length_append] at total
    rw [List.length_cons]
    omega
  have on : ¬ (depth ≤ 0 && closed && l.kind != .semicolon) = true := by
    simp only [Bool.and_eq_true, not_and] at go ⊢
    exact fun both => absurd both.2 (go both.1)
  unfold passConstruct
  rw [if_neg on]
  split
  · split
    · simp
    · exact fewer ..
  · exact fewer ..
  · exact fewer ..
  · exact fewer ..

/-- What is done at the end of some lexemes does not depend on what follows them, if no semicolon
does; or all of them are passed, and then lexemes that follow are passed as well. -/
theorem passConstruct_append (passed : List Lexeme) (depth : Int) (closed : Bool)
    (ahead : List Lexeme) :
    (∀ next, (∀ l, next.head? = some l → l.kind ≠ .semicolon) →
      passConstruct passed depth closed (ahead ++ next) =
        ((passConstruct passed depth closed ahead).1,
          (passConstruct passed depth closed ahead).2 ++ next)) ∨
      (passConstruct passed depth closed ahead).2 = [] ∧ ∀ next, next ≠ [] →
        (passConstruct passed depth closed (ahead ++ next)).2.length < next.length := by
  induction ahead generalizing passed depth closed with
  | nil =>
    by_cases stop : depth ≤ 0 && closed
    · left
      intro next other
      cases next with
      | nil => rfl
      | cons l next =>
        have kind : (l.kind != .semicolon) = true := by simpa using other l rfl
        simp [passConstruct, stop, kind]
    · refine .inr ⟨rfl, fun next some => ?_⟩
      cases next with
      | nil => exact absurd rfl some
      | cons l next => exact length_passConstruct_lt stop passed l next
  | cons l ahead ih =>
    simp only [List.cons_append]
    unfold passConstruct
    split
    · exact .inl fun _ _ => rfl
    · split
      · split
        · exact .inl fun _ _ => rfl
        · exact ih ..
      · exact ih ..
      · exact ih ..
      · exact ih ..

/-! ### Recovery reads on -/

theorem Later.pass {c : Cursor} (depth : Int) (closed : Bool) : c.Later (c.pass depth closed) := by
  obtain ⟨more, split, done⟩ := passConstruct_spec c.consumed depth closed c.ahead
  refine ⟨rfl, ⟨more, split, done⟩, ?_, fun clean => clean⟩
  have total := congrArg List.length split
  rw [List.length_append] at total
  change c.injected.length + (passConstruct c.consumed depth closed c.ahead).2.length ≤
    c.injected.length + c.ahead.length
  omega

theorem Later.dropInjected (c : Cursor) : c.Later { c with injected := [] } :=
  ⟨rfl, ⟨[], rfl, rfl⟩, by simp [Cursor.unread], fun _ _ member => nomatch member⟩

/-- No brace is open in the lexemes, which stand with the last one first, and that one is of the kind. -/
def endsWith (kind : LexemeKind) (construct : List Lexeme) : Bool :=
  braceDepth construct ≤ 0 && construct.head?.map (·.kind) == some kind

theorem passSemicolon_eq (c : Cursor) {depth : Int} (shallow : depth ≤ 0) :
    c.passSemicolon = c.pass depth true := by
  obtain ⟨source, consumed, injected, ahead⟩ := c
  cases ahead with
  | nil => rfl
  | cons l ahead =>
    by_cases kind : l.kind = .semicolon <;>
      simp [passSemicolon, Cursor.pass, passConstruct, shallow, kind]

theorem depth_of_endsWith {kind : LexemeKind} {construct : List Lexeme}
    (h : endsWith kind construct = true) : braceDepth construct ≤ 0 := by
  simp only [endsWith, Bool.and_eq_true, decide_eq_true_eq] at h
  exact h.1

/-- Recovery goes on behind the lexemes of the construct that have been read, unless they end it. -/
theorem recover_eq {c : Cursor} {mark : Nat} {construct : List Lexeme}
    (taken : c.consumed.take (c.mark - mark) = construct) :
    c.recover mark = if endsWith .semicolon construct then { c with injected := [] } else
      ({ c with injected := [] } : Cursor).pass (braceDepth construct) (endsWith .rightBrace construct) := by
  subst taken
  by_cases line : endsWith .semicolon (c.consumed.take (c.mark - mark)) = true
  · rw [if_pos line]
    exact if_pos line
  · rw [if_neg line]
    refine (if_neg line).trans ?_
    cases block : endsWith .rightBrace (c.consumed.take (c.mark - mark)) with
    | true => exact (if_pos block).trans (passSemicolon_eq _ (depth_of_endsWith block))
    | false => exact if_neg (Bool.eq_false_iff.1 block)

theorem Later.recover (c : Cursor) (mark : Nat) : c.Later (c.recover mark) := by
  rw [recover_eq rfl]
  refine (Later.dropInjected c).trans ?_
  split
  · exact .refl _
  · exact .pass _ _

theorem injected_recover (c : Cursor) (mark : Nat) : (c.recover mark).injected = [] := by
  rw [recover_eq rfl]
  split <;> rfl

theorem skipConstruct_eq (c : Cursor) :
    c.skipConstruct = ({ c with injected := [] } : Cursor).pass 0 false := by
  simp [skipConstruct, Cursor.recover, mark, braceDepth]

/-- A construct that is skipped has a lexeme. -/
theorem unread_skipConstruct_lt {c : Cursor} (h : 0 < c.unread) :
    c.skipConstruct.unread < c.unread := by
  rw [skipConstruct_eq]
  change 0 + (passConstruct c.consumed 0 false c.ahead).2.length < c.injected.length + c.ahead.length
  cases left : c.ahead with
  | nil =>
    simp only [unread, left, List.length_nil] at h
    simp only [passConstruct, List.length_nil]
    omega
  | cons l ahead =>
    have fewer := length_passConstruct_lt (by simp : ¬ ((0 : Int) ≤ 0 && false) = true) c.consumed l
      ahead
    omega

/-! ### Recovery in a setting -/

variable {k k' : Setting} {c : Cursor}

/-- The part and its end are the same after reading on. -/
theorem Ready.later {c' : Cursor} (ready : c.Ready k k') (later : c.Later c')
    (injected : c'.injected = []) : c'.Ready k k' := by
  obtain ⟨passed, ahead, consumed⟩ := later.passed
  refine ⟨fun cut l last => ready.edge cut l ?_, fun _ _ => injected, fun whole => ?_⟩
  · rw [ahead, List.getLast?_append, last]
    rfl
  · rcases ready.ending whole with some | same
    · left
      rw [consumed]
      intro none
      apply some
      simp only [List.append_eq_nil_iff, List.reverse_eq_nil_iff] at none ⊢
      obtain ⟨⟨rfl, rest⟩, rest'⟩ := none
      exact ⟨rest, by rw [ahead, rest']; rfl⟩
    · exact .inr same

theorem passConstruct_behind (back passed : List Lexeme) (depth : Int) (closed : Bool)
    (ahead : List Lexeme) :
    passConstruct (passed ++ back) depth closed ahead =
      ((passConstruct passed depth closed ahead).1 ++ back,
        (passConstruct passed depth closed ahead).2) := by
  induction ahead generalizing passed depth closed with
  | nil => rfl
  | cons l ahead ih =>
    unfold passConstruct
    split
    · rfl
    · split
      · split
        · rfl
        · exact ih (l :: passed) ..
      · exact ih (l :: passed) ..
      · exact ih (l :: passed) ..
      · exact ih (l :: passed) ..

/-- Passing a construct stays in the part in both settings, or leaves it in every setting that goes
on. -/
theorem pass_within (depth : Int) (closed : Bool) :
    (∀ j : Setting, (∀ l, j.next.head? = some l → l.kind ≠ .semicolon) →
      (c.within j).pass depth closed = (c.pass depth closed).within j) ∨
      (c.pass depth closed).ahead = [] ∧ ∀ j : Setting, j.next ≠ [] →
        ((c.within j).pass depth closed).ahead.length < j.next.length := by
  rcases passConstruct_append c.consumed depth closed c.ahead with stays | ⟨all, leaves⟩
  · left
    intro j other
    simp only [pass, within, passConstruct_behind, stays j.next other]
  · refine .inr ⟨all, fun j some => ?_⟩
    simp only [pass, within, passConstruct_behind]
    exact leaves j.next some

theorem pass_whole {j : Setting} (none : j.next = []) (depth : Int) (closed : Bool) :
    (c.within j).pass depth closed = (c.pass depth closed).within j := by
  simp only [pass, within, passConstruct_behind, none, List.append_nil]

/-- The lexemes of a construct that has been read so far. -/
theorem take_within (j : Setting) (mark : Nat) :
    (c.within j).consumed.take ((c.within j).mark - (mark + j.back.length)) =
      c.consumed.take (c.mark - mark) := by
  have same : (c.within j).mark - (mark + j.back.length) = c.mark - mark := by
    simp only [Cursor.mark, within_consumed, List.length_append]
    omega
  rw [same, within_consumed, List.take_append_of_le_length]
  simp only [Cursor.mark]
  omega

/-- Recovery stays in the part in both settings, or leaves it. -/
theorem recover_within (meets : Meets k k') (mark : Nat) :
    ((c.within k).recover (mark + k.back.length) = (c.recover mark).within k ∧
      (c.within k').recover (mark + k'.back.length) = (c.recover mark).within k') ∨
      Cut k k' ∧ (((c.within k).recover (mark + k.back.length)).ahead.length < k.next.length ∨
        k.next = [] ∧ ((c.within k).recover (mark + k.back.length)).finished) := by
  have first : ∀ l, k.next.head? = some l → l.kind ≠ .semicolon := fun l h => (meets.first l h).1
  rw [recover_eq (take_within k mark), recover_eq (take_within k' mark), recover_eq rfl]
  by_cases line : endsWith .semicolon (c.consumed.take (c.mark - mark)) = true
  · rw [if_pos line, if_pos line, if_pos line]
    exact .inl ⟨rfl, rfl⟩
  rw [if_neg line, if_neg line, if_neg line]
  generalize braceDepth (c.consumed.take (c.mark - mark)) = depth, endsWith .rightBrace _ = closed
  have whole {j : Setting} (none : j.next = []) :=
    pass_whole (c := { c with injected := [] }) none depth closed
  rcases pass_within (c := { c with injected := [] }) depth closed with stays | ⟨all, leaves⟩
  · exact .inl ⟨stays k first, stays k' meets.second⟩
  · by_cases cut : Cut k k'
    · refine .inr ⟨cut, ?_⟩
      by_cases none : k.next = []
      · refine .inr ⟨none, ?_⟩
        refine (congrArg finished (whole none)).trans ?_
        rw [finished, within_ahead, all, none]
        rfl
      · exact .inl (leaves k none)
    · obtain ⟨none, none'⟩ : k.next = [] ∧ k'.next = [] := by simpa [Cut] using cut
      exact .inl ⟨whole none, whole none'⟩

end Cursor

/-! ### Spans -/

namespace Lexeme

open Cursor

variable {ls : List Lexeme}

/-- A lexeme of no source. -/
def bare (kind : LexemeKind) (text : String := "") : Lexeme :=
  { kind, text, start := 0, stop := 0, source := default }

/-- There are no braces and no semicolons. -/
def Flat (ls : List Lexeme) : Prop := ∀ l ∈ ls, ¬ l.isEdge

instance (ls : List Lexeme) : Decidable (Flat ls) := inferInstanceAs (Decidable (∀ l ∈ ls, ¬ l.isEdge))

/-- Every brace that is opened is closed, and no other. -/
structure Balanced (ls : List Lexeme) : Prop where
  closed : braceDepth ls = 0
  opened : ∀ front, front <+: ls → 0 ≤ braceDepth front

theorem balanced_iff :
    Balanced ls ↔ braceDepth ls = 0 ∧ ∀ n ≤ ls.length, 0 ≤ braceDepth (ls.take n) := by
  constructor
  · rintro ⟨closed, opened⟩
    exact ⟨closed, fun n _ => opened _ (List.take_prefix n ls)⟩
  · rintro ⟨closed, opened⟩
    refine ⟨closed, fun front within => ?_⟩
    rw [List.prefix_iff_eq_take.1 within]
    exact opened _ within.length_le

instance (ls : List Lexeme) : Decidable (Balanced ls) := decidable_of_iff' _ (balanced_iff)

/-- A semicolon or nothing. -/
def Optional (ls : List Lexeme) : Prop := ls = [] ∨ ∃ l : Lexeme, ls = [l] ∧ l.kind = .semicolon

/-- It shows where a construct ends: it has its semicolon, or none follows. -/
def Apart (construct next : List Lexeme) : Prop :=
  construct.getLast?.map (·.kind) = some .semicolon ∨
    ∀ l, next.head? = some l → l.kind ≠ .semicolon

/-- A head and a semicolon. -/
inductive Line : List Lexeme → Prop where
  | intro {head : List Lexeme} {semicolon : Lexeme} (flat : Flat head)
    (kind : semicolon.kind = .semicolon) : Line (head ++ [semicolon])

/-- A head, a block in braces and perhaps a semicolon. -/
inductive Block : List Lexeme → Prop where
  | intro {head body tail : List Lexeme} {left right : Lexeme} (flat : Flat head)
    (opening : left.kind = .leftBrace) (balanced : Balanced body)
    (closing : right.kind = .rightBrace) (rest : Optional tail) :
    Block (head ++ left :: (body ++ right :: tail))

theorem braceDepth_append (ls ms : List Lexeme) :
    braceDepth (ls ++ ms) = braceDepth ls + braceDepth ms := by
  induction ls with
  | nil => simp [braceDepth]
  | cons l ls ih => simp only [List.cons_append, braceDepth, ih]; omega

theorem braceDepth_reverse : braceDepth ls.reverse = braceDepth ls := by
  induction ls with
  | nil => rfl
  | cons l ls ih =>
    rw [List.reverse_cons, braceDepth_append, ih]
    simp only [braceDepth]
    omega

theorem braceStep_of_inner {l : Lexeme} (inner : ¬ l.isEdge) : braceStep l = 0 := by
  simp only [isEdge, Bool.or_eq_true, beq_iff_eq, not_or] at inner
  unfold braceStep
  split <;> simp_all

theorem Flat.braceDepth (flat : Flat ls) : braceDepth ls = 0 := by
  induction ls with
  | nil => rfl
  | cons l ls ih =>
    rw [Cursor.braceDepth, braceStep_of_inner (flat l List.mem_cons_self),
      ih fun l' member => flat l' (List.mem_cons_of_mem _ member)]
    rfl

theorem Optional.braceDepth (optional : Optional ls) : braceDepth ls = 0 := by
  rcases optional with rfl | ⟨l, rfl, kind⟩
  · rfl
  · simp [Cursor.braceDepth, braceStep, kind]

theorem Line.braceDepth (line : Line ls) : braceDepth ls = 0 := by
  obtain ⟨flat, kind⟩ := line
  rw [braceDepth_append, flat.braceDepth, Optional.braceDepth (.inr ⟨_, rfl, kind⟩)]
  rfl

theorem Block.braceDepth (block : Block ls) : braceDepth ls = 0 := by
  obtain ⟨flat, opening, balanced, closing, optional⟩ := block
  rw [braceDepth_append, flat.braceDepth, Cursor.braceDepth, braceDepth_append, balanced.closed,
    Cursor.braceDepth, optional.braceDepth]
  simp [braceStep, opening, closing]

/-- A block ends with a brace or a semicolon. -/
theorem Block.isEdge_getLast (block : Block ls) {l : Lexeme} (last : ls.getLast? = some l) :
    l.isEdge := by
  obtain ⟨flat, opening, balanced, closing, rfl | ⟨semicolon, rfl, kind⟩⟩ := block
  · rename_i right
    obtain rfl : right = l := by simpa [List.getLast?_append, List.getLast?_cons] using last
    simp [isEdge, closing]
  · obtain rfl : semicolon = l := by simpa [List.getLast?_append, List.getLast?_cons] using last
    simp [isEdge, kind]

theorem Block.ne_nil (block : Block ls) : ls ≠ [] := by
  obtain ⟨flat, opening, balanced, closing, optional⟩ := block
  simp

end Lexeme

namespace Cursor

open Lexeme

variable {tail next : List Lexeme}

/-! ### Skipping a span -/

theorem passConstruct_flat {ls : List Lexeme} (flat : Flat ls) (passed rest : List Lexeme) :
    passConstruct passed 0 false (ls ++ rest) = passConstruct (ls.reverse ++ passed) 0 false rest := by
  induction ls generalizing passed with
  | nil => rfl
  | cons l ls ih =>
    have inner : ¬ l.isEdge := flat l List.mem_cons_self
    have step : passConstruct passed 0 false (l :: (ls ++ rest)) =
        passConstruct (l :: passed) 0 false (ls ++ rest) := by
      simp only [isEdge, Bool.or_eq_true, beq_iff_eq, not_or] at inner
      rw [passConstruct]
      simp only [Bool.and_false, Bool.false_and, Bool.false_eq_true, if_false]
      split <;> simp_all
    rw [List.cons_append, step, ih fun l' member => flat l' (List.mem_cons_of_mem _ member)]
    simp

/-- Inside a block, everything is passed. -/
theorem passConstruct_inside {ls : List Lexeme} {depth : Int}
    (inside : ∀ front, front <+: ls → 1 ≤ depth + braceDepth front) (passed rest : List Lexeme) :
    passConstruct passed depth false (ls ++ rest) =
      passConstruct (ls.reverse ++ passed) (depth + braceDepth ls) false rest := by
  induction ls generalizing passed depth with
  | nil => simp [braceDepth]
  | cons l ls ih =>
    have here : 1 ≤ depth := by simpa [braceDepth] using inside [] (List.nil_prefix ..)
    have after : 1 ≤ depth + braceStep l := by
      simpa [braceDepth] using inside [l] ⟨ls, rfl⟩
    have step : passConstruct passed depth false (l :: (ls ++ rest)) =
        passConstruct (l :: passed) (depth + braceStep l) false (ls ++ rest) := by
      rw [passConstruct]
      simp only [Bool.and_false, Bool.false_and, Bool.false_eq_true, if_false]
      unfold braceStep at after ⊢
      split
      · rename_i kind
        rw [if_neg (by omega)]
        simp [kind]
      · rename_i kind
        simp only [kind] at after ⊢
        have open_ : decide (depth - 1 ≤ 0) = false := by simp; omega
        rw [open_]
        rfl
      · rename_i kind
        simp [kind]
      · rename_i other other' other''
        split
        · exact absurd ‹_› other''
        · exact absurd ‹_› other'
        · simp
    have inside' : ∀ front, front <+: ls → 1 ≤ depth + braceStep l + braceDepth front := by
      intro front within
      have := inside (l :: front) (List.cons_prefix_cons.2 ⟨rfl, within⟩)
      simp only [braceDepth] at this
      omega
    rw [List.cons_append, step, ih inside']
    simp only [List.reverse_cons, List.append_assoc, List.cons_append, List.nil_append, braceDepth]
    congr 1
    omega

/-- Behind the brace that closes the block. -/
theorem passConstruct_closed (rest : Optional tail)
    (other : tail = [] → ∀ l, next.head? = some l → l.kind ≠ .semicolon) (passed : List Lexeme) :
    passConstruct passed 0 true (tail ++ next) = (tail.reverse ++ passed, next) := by
  rcases rest with rfl | ⟨semicolon, rfl, kind⟩
  · cases next with
    | nil => rfl
    | cons l next =>
      have kind := other rfl l rfl
      simp [passConstruct, kind]
  · simp [passConstruct, kind]

/-- A construct is passed, and nothing else. -/
theorem passConstruct_construct {construct : List Lexeme} (shape : Line construct ∨ Block construct)
    (apart : Apart construct next) (passed : List Lexeme) :
    passConstruct passed 0 false (construct ++ next) = (construct.reverse ++ passed, next) := by
  rcases shape with ⟨flat, kind⟩ | ⟨flat, opening, balanced, closing, optional⟩
  · rw [List.append_assoc, passConstruct_flat flat, List.singleton_append, passConstruct]
    simp [kind]
  · rename_i head body tail left right
    have other : tail = [] → ∀ l, next.head? = some l → l.kind ≠ .semicolon := by
      rintro rfl
      refine apart.resolve_left ?_
      simp [List.getLast?_append, List.getLast?_cons, closing]
    have inside : ∀ front, front <+: body → 1 ≤ 0 + 1 + braceDepth front := by
      intro front within
      have := balanced.opened front within
      omega
    simp only [List.append_assoc, List.cons_append]
    rw [passConstruct_flat flat, passConstruct]
    simp only [Bool.and_false, Bool.false_and, Bool.false_eq_true, if_false, opening]
    rw [passConstruct_inside inside, balanced.closed, passConstruct]
    simp only [Bool.and_false, Bool.false_and, Bool.false_eq_true, if_false, closing]
    refine (passConstruct_closed optional other _).trans ?_
    simp

/-- From anywhere in a construct, passing goes on with the lexemes that have been passed, which stand
with the last one first. -/
theorem passConstruct_resume {construct back ahead : List Lexeme}
    (further : (passConstruct back 0 false (construct.reverse ++ ahead)).2.length ≤ ahead.length) :
    passConstruct back 0 false (construct.reverse ++ ahead) =
      if endsWith .semicolon construct then (construct ++ back, ahead)
      else passConstruct (construct ++ back) (braceDepth construct) (endsWith .rightBrace construct)
        ahead := by
  induction construct generalizing ahead with
  | nil => simp [braceDepth, endsWith]
  | cons l construct ih =>
    rw [List.reverse_cons, List.append_assoc, List.singleton_append] at further ⊢
    have before := ih (Nat.le_succ_of_le further)
    rw [before] at further ⊢
    split at further
    · exact absurd further (Nat.not_succ_le_self _)
    · rename_i unended
      rw [if_neg unended]
      have shallow : endsWith .rightBrace construct = true → _ := depth_of_endsWith
      generalize endsWith .rightBrace construct = closed at further shallow ⊢
      rw [passConstruct] at further ⊢
      split at further
      · exact absurd further (Nat.not_succ_le_self _)
      · rename_i goes
        rw [if_neg goes]
        unfold endsWith
        by_cases semicolon : l.kind = .semicolon
        · by_cases deep : braceDepth construct ≤ 0
          · simp [braceDepth, braceStep, semicolon, deep]
          · obtain rfl : closed = false := by simpa using mt shallow deep
            simp [braceDepth, braceStep, semicolon, deep]
        · obtain rfl : closed = false :=
            Bool.eq_false_iff.2 fun was => goes (by simp [was, shallow was, semicolon])
          split
          · exact absurd ‹_› semicolon
          · rename_i kind
            simp [braceDepth, braceStep, kind, Int.sub_eq_add_neg, Int.add_comm]
          · rename_i kind
            have other : (LexemeKind.leftBrace == LexemeKind.rightBrace) = false := rfl
            simp [braceDepth, braceStep, kind, other, Int.add_comm]
          · rename_i right left
            have step : braceStep l = 0 :=
              braceStep_of_inner (by simpa [isEdge, semicolon] using ⟨left, right⟩)
            simp [braceDepth, step, semicolon, beq_false_of_ne right]

/-- Recovery goes where the construct ends when it is passed from its start. -/
theorem recover_of_pass {c : Cursor} {construct back passed : List Lexeme}
    (consumed : c.consumed = construct ++ back)
    (pass : passConstruct back 0 false (construct.reverse ++ c.ahead) = (passed, next))
    (further : next.length ≤ c.ahead.length) :
    c.recover back.length = { c with consumed := passed, injected := [], ahead := next } := by
  have taken : c.consumed.take (c.mark - back.length) = construct := by
    have count : c.mark - back.length = construct.length := by simp [mark, consumed]
    rw [count, consumed, List.take_left]
  have resumed := passConstruct_resume (by rwa [pass])
  rw [pass, ← consumed] at resumed
  rw [recover_eq taken]
  split at resumed
  · rename_i line
    rw [if_pos line]
    cases resumed
    rfl
  · rename_i line
    rw [if_neg line, Cursor.pass]
    simp only [← resumed]

/-- Recovery lands right behind the construct that began at the mark, wherever in it, from its start
to its end, reading has stopped, and whatever has been injected. -/
theorem recover_construct {before construct after : List Lexeme}
    (shape : Line construct ∨ Block construct) (apart : Apart construct after) {c : Cursor}
    (lexemes : c.consumed.reverse ++ c.ahead = before ++ (construct ++ after))
    (entered : before.length ≤ c.mark) (within : c.mark ≤ (before ++ construct).length) :
    c.recover before.length =
      { c with consumed := (before ++ construct).reverse, injected := [], ahead := after } := by
  -- What has been read is all that stands before the construct and a part of the construct.
  obtain ⟨front, read, unread⟩ : ∃ front, c.consumed.reverse = before ++ front ∧
      construct ++ after = front ++ c.ahead := by
    rcases List.append_eq_append_iff.1 lexemes with ⟨front, short, rest⟩ | ⟨front, long, rest⟩
    · have none : front = [] := by
        have total := congrArg List.length short
        simp only [List.length_append, List.length_reverse] at total
        exact List.length_eq_zero_iff.1 (by simp only [mark] at entered; omega)
      subst none
      exact ⟨[], by simpa using short.symm, by simpa using rest.symm⟩
    · exact ⟨front, long, rest⟩
  have consumed : c.consumed = front.reverse ++ before.reverse := by
    rw [← List.reverse_append, ← read, List.reverse_reverse]
  have pass := passConstruct_construct shape apart before.reverse
  rw [unread] at pass
  rw [show before.length = before.reverse.length from List.length_reverse.symm, List.reverse_append]
  refine recover_of_pass consumed (by simpa using pass) ?_
  have total := congrArg List.length unread
  simp only [mark, consumed, List.length_append, List.length_reverse] at within total
  omega

/-- `type Ship { template { x; } };` -/
def shipType : List Lexeme :=
  [.bare .identifier "type", .bare .identifier "Ship"] ++ .bare .leftBrace ::
    ([.bare .identifier "template", .bare .leftBrace, .bare .identifier "x", .bare .semicolon,
      .bare .rightBrace] ++ .bare .rightBrace :: [.bare .semicolon])

/-- Reading has stopped two braces deep, in front of injected lexemes, and a semicolon follows the
construct. -/
def stuck : Cursor where
  source := default
  consumed := (shipType.take 5).reverse ++ [.bare .semicolon]
  injected := [.bare .comma, .bare .integer "5"]
  ahead := shipType.drop 5 ++ [.bare .semicolon]

theorem recover_stuck :
    stuck.recover 1 = { source := default, consumed := shipType.reverse ++ [.bare .semicolon]
                        ahead := [.bare .semicolon] } := by
  have shape : Block shipType := .intro (by decide) rfl (by decide) rfl (.inr ⟨_, rfl, rfl⟩)
  have lexemes : stuck.consumed.reverse ++ stuck.ahead =
      [.bare .semicolon] ++ (shipType ++ [.bare .semicolon]) := rfl
  exact recover_construct (.inr shape) (.inl rfl) lexemes (by decide) (by decide)

end Cursor

end Rsrc
