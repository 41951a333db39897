import Rsrc.Proofs.Compilation
import Rsrc.Proofs.Levels

/-!
# Balanced sources

What compiles has as many closing braces as opening ones, and no brace is closed before it is opened.
There is one way around this. A construct that a condition excludes is skipped unread, up to a
semicolon or a closing brace, and what is skipped can have a surplus brace. So the law is for sources
in which every condition stands in front of a balanced span.
-/

namespace Rsrc

variable {lexed : Except LexicalError (List Lexeme)} {s : Session}

namespace Lexeme

open Cursor

/-- What is skipped in front of `rest` if a construct is excluded there. -/
def skipped (rest : List Lexeme) : List Lexeme := (passConstruct [] 0 false rest).1.reverse

/-- Every condition stands in front of a balanced span. -/
def Spanned : List Lexeme → Prop
  | [] => True
  | l :: rest => (l.kind = .decorator ∧ l.text = "condition" → Balanced (skipped rest)) ∧ Spanned rest

instance decidableSpanned : (ls : List Lexeme) → Decidable (Spanned ls)
  | [] => .isTrue trivial
  | l :: rest =>
    have := decidableSpanned rest
    inferInstanceAs (Decidable
      ((l.kind = .decorator ∧ l.text = "condition" → Balanced (skipped rest)) ∧ Spanned rest))

theorem Spanned.balanced {front rest : List Lexeme} {l : Lexeme} (h : Spanned (front ++ l :: rest))
    (kind : l.kind = .decorator) (text : l.text = "condition") : Balanced (skipped rest) := by
  induction front with
  | nil => exact h.1 ⟨kind, text⟩
  | cons l' front ih => exact ih h.2

theorem skipped_flat {ls : List Lexeme} (flat : Flat ls) (rest : List Lexeme) :
    skipped (ls ++ rest) = ls ++ skipped rest := by
  have behind := passConstruct_behind ls.reverse [] 0 false rest
  rw [List.nil_append] at behind
  rw [skipped, passConstruct_flat flat, List.append_nil, behind]
  simp [skipped]

theorem Balanced.of_append {ls ms : List Lexeme} (flat : Flat ls) (h : Balanced (ls ++ ms)) :
    Balanced ms where
  closed := by
    have total := h.closed
    rw [braceDepth_append, flat.braceDepth] at total
    omega
  opened front within := by
    have sum := h.opened (ls ++ front) ((List.prefix_append_right_inj ls).2 within)
    rw [braceDepth_append, flat.braceDepth] at sum
    omega

end Lexeme

namespace Cursor

open Lexeme

/-- Skipping passes what is skipped. -/
theorem skipConstruct_skipped (c : Cursor) :
    ∃ ahead, c.ahead = skipped c.ahead ++ ahead ∧
      c.skipConstruct = { c with
        consumed := (skipped c.ahead).reverse ++ c.consumed, injected := [], ahead } := by
  obtain ⟨more, split, passed⟩ := passConstruct_spec [] 0 false c.ahead
  have same : skipped c.ahead = more := by
    rw [skipped, passed, List.append_nil, List.reverse_reverse]
  have behind := passConstruct_behind c.consumed [] 0 false c.ahead
  rw [List.nil_append] at behind
  refine ⟨(passConstruct [] 0 false c.ahead).2, ?_, ?_⟩
  · rw [same]
    exact split
  · rw [skipConstruct_eq, pass]
    simp only [behind, passed, same, List.append_nil]

end Cursor

namespace Parse

open Cursor Lexeme

/-- Of the lexemes `ls` of a file, those behind the cursor open `n` braces that they do not close.
Decorators that wait were read behind the last edge. -/
structure Nested (ls : List Lexeme) (n : Nat) (st : ParseState) : Prop where
  split : st.cursor.consumed.reverse ++ st.cursor.ahead = ls
  depth : braceDepth st.cursor.consumed.reverse = n
  opened : ∀ front, front <+: st.cursor.consumed.reverse → 0 ≤ braceDepth front
  injected : ∀ l ∈ st.cursor.injected, ¬ l.isEdge ∧ l.kind ≠ .decorator
  waiting : ∀ d ∈ st.session.pending, ∃ between l back, st.cursor.consumed = between ++ l :: back ∧
    Lexeme.Flat between ∧ l.kind = .decorator ∧ l.text = d.name

namespace Nested

variable {ls : List Lexeme} {n m : Nat} {s : Session} {c : Cursor} {l : Lexeme}

/-- Behind one more lexeme, where `s'` is the session then. -/
theorem advance {s' : Session} (h : Nested ls n ⟨s, c⟩) (next : c.peek = some l)
    (step : (m : Int) = n + braceStep l)
    (waiting : ∀ d ∈ s'.pending, ∃ between l back, c.advance.consumed = between ++ l :: back ∧
      Lexeme.Flat between ∧ l.kind = .decorator ∧ l.text = d.name) :
    Nested ls m ⟨s', c.advance⟩ := by
  rcases peek_cases next with ⟨injected, was, moved⟩ | ⟨ahead, none, was, moved⟩
  · -- an injected lexeme is no brace
    have inner := h.injected l (by simp [was])
    rw [braceStep_of_inner inner.1] at step
    rw [moved] at waiting ⊢
    refine ⟨h.split, by rw [h.depth]; omega, h.opened, fun l' member => ?_, waiting⟩
    exact h.injected l' (by simp [was, member])
  · rw [moved] at waiting ⊢
    have total : braceDepth (c.consumed.reverse ++ [l]) = m := by
      rw [braceDepth_append, h.depth, braceDepth, braceDepth]
      omega
    refine ⟨?_, ?_, fun front within => ?_, by simp [none], waiting⟩
    · have split := h.split
      rw [was] at split
      simpa using split
    · rw [List.reverse_cons]
      exact total
    · rw [List.reverse_cons] at within
      rcases List.prefix_concat_iff.1 within with rfl | within
      · rw [total]
        exact Int.natCast_nonneg m
      · exact h.opened front within

/-- What waited goes on to wait behind a lexeme that is no edge. -/
theorem waiting_advance (h : Nested ls n ⟨s, c⟩) (next : c.peek = some l) (inner : ¬ l.isEdge) :
    ∀ d ∈ s.pending, ∃ between l back, c.advance.consumed = between ++ l :: back ∧
      Lexeme.Flat between ∧ l.kind = .decorator ∧ l.text = d.name := by
  intro d member
  obtain ⟨between, l', back, behind, flat, known⟩ := h.waiting d member
  rcases peek_cases next with ⟨injected, was, moved⟩ | ⟨ahead, none, was, moved⟩
  · rw [moved]
    exact ⟨between, l', back, behind, flat, known⟩
  · rw [moved]
    refine ⟨l :: between, l', back, congrArg (l :: ·) behind, ?_, known⟩
    intro l'' among
    rcases List.mem_cons.1 among with rfl | among
    · exact inner
    · exact flat l'' among

/-- A decorator is read and waits. -/
theorem waits (h : Nested ls n ⟨s, c⟩) (next : c.peek = some l) (kind : l.kind = .decorator)
    (arguments : List String) : Nested ls n (ParseState.waiting ⟨s, c.advance⟩ l arguments) := by
  have inner : ¬ l.isEdge := by simp [isEdge, kind]
  refine h.advance next (by rw [braceStep_of_inner inner]; omega) fun d member => ?_
  rcases List.mem_append.1 member with before | new
  · exact h.waiting_advance next inner d before
  · obtain rfl := List.mem_singleton.1 new
    rcases peek_cases next with ⟨injected, was, -⟩ | ⟨ahead, none, was, moved⟩
    · exact absurd kind (h.injected l (by simp [was])).2
    · exact ⟨[], l, c.consumed, by rw [moved]; rfl,
        fun _ none => absurd none List.not_mem_nil, kind, rfl⟩

/-- A construct is skipped that stands behind a condition. -/
theorem skipConstruct (spanned : Spanned ls) (h : Nested ls n ⟨s, c⟩)
    (condition : ∃ d ∈ s.pending, d.name = "condition") :
    Nested ls n ⟨{ s with pending := [] }, c.skipConstruct⟩ := by
  obtain ⟨d, member, named⟩ := condition
  obtain ⟨between, l, back, behind, flat, kind, text⟩ := h.waiting d member
  -- the span behind the condition goes on with what is skipped
  have balanced : Balanced (skipped c.ahead) := by
    have place : ls = back.reverse ++ l :: (between.reverse ++ c.ahead) := by
      rw [← h.split]
      simp [show c.consumed = between ++ l :: back from behind]
    have flat' : Lexeme.Flat between.reverse := fun l' among => flat l' (List.mem_reverse.1 among)
    have span := (place ▸ spanned).balanced kind (text.trans named)
    rw [skipped_flat flat'] at span
    exact span.of_append flat'
  obtain ⟨ahead, split, moved⟩ := c.skipConstruct_skipped
  rw [moved]
  have passed : (((skipped c.ahead).reverse ++ c.consumed).reverse : List Lexeme) =
      c.consumed.reverse ++ skipped c.ahead := by simp
  refine ⟨?_, ?_, fun front within => ?_, fun _ none => absurd none List.not_mem_nil,
    fun _ none => absurd none List.not_mem_nil⟩
  · rw [passed, List.append_assoc, ← split]
    exact h.split
  · rw [passed, braceDepth_append, balanced.closed, h.depth]
    omega
  · rw [passed] at within
    rcases List.prefix_or_prefix_of_prefix within (List.prefix_append c.consumed.reverse _) with
      shorter | ⟨more, rfl⟩
    · exact h.opened front shorter
    · have inside := balanced.opened more ((List.prefix_append_right_inj _).1 within)
      rw [braceDepth_append, h.depth]
      omega

theorem levels (spanned : Spanned ls) :
    Levels fun n st => st.session.failures ≠ [] ∨ Nested ls n st where
  pass next inner held := held.imp_right fun h =>
    h.advance next (by rw [braceStep_of_inner inner]; omega) (h.waiting_advance next inner)
  push inner other held := held.imp_right fun h =>
    { h with
      injected := fun l member => by
        rcases List.mem_cons.1 member with rfl | member
        · exact ⟨inner, other⟩
        · exact h.injected l member }
  session held pending failures := by
    refine held.imp (fun some => failures ▸ some) fun h => { h with waiting := ?_ }
    rw [pending]
    exact h.waiting
  edge {_ _ s _ _} next step held := by
    rcases held with ⟨failed | h, none | failed⟩
    · exact .inl failed
    · exact .inl failed
    · have none : s.pending = [] := none
      refine .inr (h.advance next step fun d member => ?_)
      rw [none] at member
      cases member
    · exact .inl failed
  waits next kind held arguments := held.imp_right fun h => h.waits next kind arguments
  settled held := held.imp_right fun h => { h with waiting := fun _ none => absurd none List.not_mem_nil }
  skipped condition held := held.imp_right fun h => h.skipConstruct spanned condition
  failed := .inl

end Nested

/-- A file is read to its end. -/
theorem finished_of_constructsWithin {importer : Importer} [importer.Natural] {limit : Nat}
    {st t : ParseState} (enough : st.cursor.unread ≤ limit)
    (h : constructsWithin importer limit st = .ok () t) : t.cursor.finished := by
  induction limit generalizing st with
  | zero =>
    cases h
    by_contra left
    have some := unread_pos left
    omega
  | succ limit ih =>
    rw [constructsWithin_succ] at h
    have look : Parse.cursor st = .ok st.cursor st := rfl
    rw [bind_of_ok look] at h
    by_cases finished : st.cursor.finished
    · rw [if_pos finished] at h
      cases h
      exact finished
    · rw [if_neg finished] at h
      have step : StepAt {} {} True True (fileStep importer) _ st :=
        Step.fileStep st
      have fewer := step.advances (unread_pos finished)
      cases run : fileStep importer st with
      | error failure u =>
        rw [bind_of_error run] at h
        cases h
      | ok a u =>
        rw [run] at fewer
        rw [bind_of_ok run] at h
        dsimp only at fewer
        exact ih (by omega) h

/-- A file that is read without failures is balanced. -/
theorem balanced_of_file (tree : FileTree) (depth : Nat) {source : SourceFile} {ls : List Lexeme}
    {s : Session} {t : ParseState} (spanned : Spanned ls) (settled : s.pending = [])
    (ran : file (tree.importer depth) ⟨s, { source, ahead := ls }⟩ = .ok () t)
    (clean : t.session.failures = []) : Balanced ls := by
  have levels := Nested.levels spanned
  have start : Nested ls 0 ⟨s, { source, ahead := ls }⟩ := by
    refine ⟨rfl, rfl, fun front within => ?_, fun _ none => absurd none List.not_mem_nil,
      fun d member => ?_⟩
    · rw [List.prefix_nil.1 within]
      exact Int.le_refl 0
    · rw [show s.pending = [] from settled] at member
      cases member
  have ended := levels.file (levels.importer tree depth) _ (.inr start)
  rw [ran] at ended
  have nested : Nested ls 0 t := ended.resolve_left fun some => some clean
  -- all lexemes are behind the cursor now
  have all : t.cursor.consumed.reverse = ls := by
    obtain ⟨u, constructs, same, -⟩ := exists_of_file ran
    have finished := finished_of_constructsWithin (Nat.le_refl _) constructs
    rw [← same, Cursor.finished, Bool.and_eq_true, List.isEmpty_iff, List.isEmpty_iff] at finished
    have split := nested.split
    rwa [finished.2, List.append_nil] at split
  exact ⟨all ▸ nested.depth, all ▸ nested.opened⟩

end Parse

theorem parseSource_of_lex {importer : Parse.Importer} {source : SourceFile} :
    Lexeme.lex source = lexed → parseSource importer source s = match lexed with
      | .error e => .error (.lexical e) s
      | .ok ls => match Parse.file importer ⟨s, { source, ahead := ls }⟩ with
        | .ok () st => .ok () st.session
        | .error failure st => .error failure st.session := by
  rintro rfl
  unfold parseSource Cursor.ofSource
  cases Lexeme.lex source with
  | error e => rfl
  | ok ls => rfl

theorem Session.ofUpdated_eq_ok {updated : EStateM.Result Failure Session Unit}
    (h : Session.ofUpdated updated = .ok s) : updated = .ok () s := by
  unfold ofUpdated at h
  split at h
  · cases h
  · split at h
    · cases h
    · cases h
      rfl

theorem Session.pending_of_prepared {o : Options} (h : Session.prepared o = .ok s) :
    s.pending = [] := by
  rw [prepared, FileTree.parse] at h
  exact Parse.pending_of_parseSource (ofUpdated_eq_ok h)

theorem Outcome.ofPrepared_eq_ok {prepared : Except Failure Session} {next : Session → Outcome}
    {c : Compilation} (h : (Outcome.ofPrepared prepared next).result = .ok c) :
    ∃ s, prepared = .ok s ∧ (next s).result = .ok c := by
  cases prepared with
  | error failure => cases h
  | ok s => exact ⟨s, rfl, h⟩

/-- What finishes after an update has not failed in it. -/
theorem Session.finishAfter_eq_ok {u : Update Unit} {c : Compilation}
    (h : (s.finishAfter u).result = .ok c) : ∃ t, u s = .ok () t ∧ t.failures = [] := by
  unfold finishAfter at h
  cases run : u s with
  | ok a t =>
    rw [run] at h
    exact ⟨t, rfl, (finish_eq_ok_iff.1 h).1⟩
  | error failure t =>
    rw [run] at h
    have clean := (finish_eq_ok_iff.1 h).1
    simp [record] at clean

/-- What compiles is balanced, if every condition stands in front of a balanced span. -/
theorem FileTree.balanced_of_compile (tree : FileTree) (o : Options) (source : SourceFile)
    {c : Compilation} (compiled : (tree.compile o source).result = .ok c) :
    ∃ ls, Lexeme.lex source = .ok ls ∧ (Lexeme.Spanned ls → Lexeme.Balanced ls) := by
  rw [compile] at compiled
  obtain ⟨s, prepared, finished⟩ := Outcome.ofPrepared_eq_ok compiled
  obtain ⟨t, run, clean⟩ := Session.finishAfter_eq_ok finished
  rw [parse] at run
  cases lexed : Lexeme.lex source with
  | error e =>
    rw [parseSource_of_lex lexed] at run
    cases run
  | ok ls =>
    rw [parseSource_of_lex lexed] at run
    dsimp only at run
    cases ran : Parse.file (tree.importer tree.importLimit) ⟨s, { source, ahead := ls }⟩ with
    | error failure st =>
      rw [ran] at run
      cases run
    | ok v st =>
      rw [ran] at run
      cases run
      refine ⟨ls, rfl, fun spanned => ?_⟩
      exact Parse.balanced_of_file tree _ spanned (Session.pending_of_prepared prepared) ran clean

/-- Compiling, where the lexemes of the prelude are known. -/
theorem FileTree.compile_of_lex {tree : FileTree} {o : Options} {source : SourceFile} :
    Lexeme.lex preludeSource = lexed → tree.compile o source =
      Outcome.ofPrepared (Session.ofUpdated (match lexed with
        | .error e => .error (.lexical e) (.ofOptions o)
        | .ok ls =>
          match Parse.file (importer {} (importLimit {}))
              ⟨.ofOptions o, { source := preludeSource, ahead := ls }⟩ with
          | .ok () st => .ok () st.session
          | .error failure st => .error failure st.session))
        fun s => s.finishAfter (tree.parse source) := by
  intro h
  rw [compile, Session.prepared, parse, parseSource_of_lex h]

/-- A type that is excluded. -/
def Sample.excludedType : SourceFile where
  name := "tune.rdl"
  contents := "@condition(SOUND) type Tune : \"TUNE\" \x7b template \x7b DWRD pitch; \x7d; \x7d;"

set_option maxRecDepth 10000 in
theorem FileTree.balanced_of_excluded_type : ∃ c ls,
    (({} : FileTree).compile {} Sample.excludedType).result = .ok c ∧
      Lexeme.lex Sample.excludedType = .ok ls ∧ Lexeme.Spanned ls ∧ Lexeme.Balanced ls := by
  have chars : preludeSource.contents.toList = _ := String.toList_ofList
  have compiles : (({} : FileTree).compile {} Sample.excludedType).result.toBool = true := by
    rw [FileTree.compile_of_lex (congrArg (Lexeme.lexFrom preludeSource 0) chars)]
    decide +kernel
  have spans : (match Lexeme.lex Sample.excludedType with
      | .ok ls => decide (Lexeme.Spanned ls)
      | .error _ => false) = true := by decide +kernel
  cases result : (({} : FileTree).compile {} Sample.excludedType).result with
  | error failure =>
    rw [result] at compiles
    cases compiles
  | ok c =>
    obtain ⟨ls, lexed, balanced⟩ := balanced_of_compile {} {} Sample.excludedType result
    rw [lexed] at spans
    have spanned : Lexeme.Spanned ls := of_decide_eq_true spans
    exact ⟨c, ls, rfl, lexed, spanned, balanced spanned⟩

/-- A brace that was never opened, and is skipped with a directive that is excluded. -/
def Sample.surplusBrace : SourceFile where
  name := "surplus.rdl"
  contents := "@condition(SOUND) @define LOUD \x7d;"

set_option maxRecDepth 10000 in
theorem FileTree.compile_surplusBrace :
    (({} : FileTree).compile {} Sample.surplusBrace).result.toBool = true ∧
      ∃ ls, Lexeme.lex Sample.surplusBrace = .ok ls ∧ ¬ Lexeme.Balanced ls := by
  have chars : preludeSource.contents.toList = _ := String.toList_ofList
  constructor
  · rw [FileTree.compile_of_lex (congrArg (Lexeme.lexFrom preludeSource 0) chars)]
    decide +kernel
  · have surplus : (match Lexeme.lex Sample.surplusBrace with
        | .ok ls => decide (¬ Lexeme.Balanced ls)
        | .error _ => false) = true := by decide +kernel
    cases lexed : Lexeme.lex Sample.surplusBrace with
    | error e =>
      rw [lexed] at surplus
      cases surplus
    | ok ls =>
      rw [lexed] at surplus
      exact ⟨ls, rfl, of_decide_eq_true surplus⟩

end Rsrc
