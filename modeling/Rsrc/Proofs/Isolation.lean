import Rsrc.Proofs.Insertion
import Rsrc.Proofs.Invariant

/-!
# Failures are isolated

A type or a resource block that fails for a semantic reason leaves nothing behind but its failure and
its messages. However far it was read, the frames and the waiting decorators are reset to what they
were (`Session.Inside.restored`), and reading goes on behind the block. So the rest of the file is read
as if the block were not there (`file_of_failing_block`).
-/

namespace Rsrc

namespace Session.Inside

variable {s₀ s : Session}

theorem stable (s₀ : Session) : Session.Stable s₀.scopes.depth s₀.Inside where
  tame tame := tame.inside s₀ rfl
  pending inside _ := ⟨inside.same, inside.frames, inside.plain⟩

/-- What a failure resets is as it was before. -/
theorem restored (inside : s₀.Inside s) (rooted : s₀.scopes.frames ≠ []) (settled : s₀.pending = []) :
    { s with scopes := s.scopes.truncate s₀.scopes.depth, pending := [] } =
      { s₀ with log := s.log } := by
  have same := congrArg (fun t : Session => { t with log := s.log }) inside.same
  rw [inside.truncate rooted, ← same, settled]

end Session.Inside

namespace Parse

/-! ### What a failed block leaves behind -/

theorem attempts_typeBlock_inside (s₀ : Session) :
    Attempts s₀.Inside (fun _ => True) typeBlock := by
  refine (Session.Inside.stable s₀).typeBlock builds_trivial (fun _ _ => trivial)
    fun name d _ s inside => ?_
  rw [registerType_eq]
  cases s.register? d with
  | some t => trivial
  | none => exact inside

theorem attempts_resourceBlock_inside (s₀ : Session) (d : TypeDef) (container : Option String) :
    Attempts s₀.Inside (fun _ => True) (resourceBlock d container) := by
  exact ((Session.Inside.stable s₀).along id).tameBlock (k := 0) (D := fun _ _ => True)
    (fun plan => runs_ofUpdate fun _ => plan.runs_openScope s₀) (fun _ _ _ => trivial) fun _ _ => trivial

/-- Reads a block that is an item of the place: a type among constructs, and a resource in a
declaration. -/
def Place.block : Place → Parse Unit
  | file | module => typeBlock
  | declaration d container => resourceBlock d container

/-- With such a lexeme, a block of the place starts. -/
def Place.opens : Place → Lexeme → Bool
  | file | module => (Expectation.keyword "type").matched
  | declaration .. => Expectation.matched LexemeKind.identifier

theorem inside_of_failed {place : Place} {st failed : ParseState} {failure : Failure}
    (plain : st.session.scopes.Plain) (h : place.block st = .error failure failed) :
    st.session.Inside failed.session := by
  have attempts : Attempts st.session.Inside (fun _ => True) place.block := by
    cases place with
    | file => exact attempts_typeBlock_inside _
    | module => exact attempts_typeBlock_inside _
    | declaration d container => exact attempts_resourceBlock_inside _ d container
  have ran := attempts st (.refl plain)
  rw [h] at ran
  exact ran

/-! ### Where reading goes on -/

theorem Step.block {k k' : Setting} [Meets k k'] (place : Place) :
    Step k k' True True place.block fun _ => False := by
  cases place with
  | file => exact fun st => StepAt.typeBlock
  | module => exact fun st => StepAt.typeBlock
  | declaration d container => exact Step.resourceBlock d container

theorem item_of_opens {importer : Importer} {place : Place} {st : ParseState} {l : Lexeme}
    (next : st.cursor.peek = some l) (opens : place.opens l) :
    place.item importer st = guarded place.block st := by
  have constructs : (Expectation.keyword "type").matched l →
      fileStep importer st = guarded typeBlock st := by
    intro matched
    have word : st.cursor.isAt (.keyword "type") := by simpa [Cursor.isAt, next] using matched
    change guarded (construct importer (moduleBody importer st.cursor.unread)) st = _
    refine guarded_congr ?_
    rw [construct_keyword word, if_neg (by decide), if_pos rfl]
  cases place with
  | file => exact constructs opens
  | module => exact constructs opens
  | declaration d container =>
    have kind : l.kind = .identifier := by simpa [Place.opens, Expectation.matched] using opens
    have plain : st.cursor.isAt LexemeKind.decorator = false := by
      simp [Cursor.isAt, next, Expectation.matched, kind]
    change (if st.cursor.isAt LexemeKind.decorator then decorator
      else guarded (resourceBlock d container) : Parse Unit) st = _
    rw [plain]
    rfl

section Failing

variable {source : SourceFile} {s₁ : Session} {A C B : List Lexeme} {place : Place}
  {error : SemanticError} {failed : ParseState}

section

variable (shape : Lexeme.Block C) (next : ∀ l, B.head? = some l → l.kind ≠ .semicolon)
  (fails : place.block (s₁.between source A C) = .error (.semantic error) failed)
include shape next fails

/-- A block fails in the same way, whatever follows it. -/
theorem block_append :
    place.block (s₁.between source A (C ++ B)) =
      .error (.semantic error) (failed.within { next := B }) := by
  have meets : Meets {} { next := B } := ⟨by simp, next⟩
  have alone : (s₁.between source A C).within {} = s₁.between source A C := by
    rw [Session.between_within, List.append_nil]
  have ready : (s₁.between source A C).cursor.Ready {} { next := B } :=
    ⟨fun _ l last => shape.isEdge_getLast last, fun _ _ => rfl, fun _ => .inr rfl⟩
  have opened : (s₁.between source A C).cursor.Open {} { next := B } := fun _ => shape.ne_nil
  rcases (Step.block place (s₁.between source A C)).toLocalAt.sync ready fun _ => opened with
    ⟨-, lost⟩ | ⟨result, run, run', -⟩
  · rw [alone, fails] at lost
    rcases lost with fatal | gone
    · cases fatal
    · cases gone
  · rw [alone, fails] at run
    cases result with
    | ok u t => cases run
    | error failure t =>
      obtain ⟨rfl, rfl⟩ : .semantic error = failure ∧ failed = t := by
        simpa [Setting.place, ParseState.within, Session.within, Cursor.within] using run
      rwa [Session.between_within] at run'

/-- A block that fails takes a turn and leaves its failure and its messages. -/
theorem turn_of_failing {importer : Importer} (settled : s₁.pending = []) (plain : s₁.scopes.Plain)
    (opens : ∀ l, C.head? = some l → place.opens l) :
    Turn importer place (s₁.between source A (C ++ B))
      ({ s₁ with failures := s₁.failures ++ [Failure.semantic error], log := failed.session.log }.between
        source (A ++ C) B) := by
  obtain ⟨l, rest, eq⟩ := List.exists_cons_of_ne_nil shape.ne_nil
  have opened : place.opens l := opens l (by rw [eq]; rfl)
  have peek : (s₁.between source A (C ++ B)).cursor.peek = some l := by rw [eq]; rfl
  have kind : l.kind = .identifier := by
    cases place <;> simp_all [Place.opens, Expectation.matched, Expectation.keyword]
  refine ⟨?_, ?_, ?_⟩
  · simp [Session.between, Cursor.finished, eq]
  · simp [Cursor.isAt, peek, Expectation.matched, kind]
  · rw [item_of_opens peek opened, guarded_of_failure (block_append shape next fails) rfl]
    refine congrArg (EStateM.Result.ok ()) ?_
    have session := (inside_of_failed plain fails).restored plain.rooted settled
    have step : Step {} {} True True place.block _ := Step.block place
    have later : (s₁.between source A C).cursor.Later failed.cursor := by
      have later := (step (s₁.between source A C)).toLocalAt.later
      rwa [fails] at later
    obtain ⟨passed, ahead, consumed⟩ := later.passed
    have behind : (failed.cursor.within { next := B }).consumed = passed.reverse ++ A.reverse := by
      simpa [Session.between] using consumed
    have whole : C ++ B = passed.reverse.reverse ++ (failed.cursor.within { next := B }).ahead := by
      rw [List.reverse_reverse, Cursor.within_ahead, ← List.append_assoc, ← ahead]
      rfl
    have pass := Cursor.passConstruct_construct (.inr shape) (.inr next) A.reverse
    rw [whole] at pass
    have cursor := Cursor.recover_of_pass behind pass (by simp)
    have recorded := congrArg (fun t : Session => t.record (.semantic error)) session
    unfold ParseState.afterFailure
    have mark : (s₁.between source A (C ++ B)).cursor.mark = A.reverse.length := rfl
    have source : failed.cursor.source = source := later.source
    rw [mark, ParseState.within_cursor, cursor]
    refine congrArg₂ ParseState.mk recorded ?_
    simp [Cursor.within, source]

end

/-- A file in which a block fails for a semantic reason comes to the same as the file without the
block. Only the failure of the block stands between those before and those behind it, and the messages
up to the failure stand between the others. Files that end behind the block inside an open module or
declaration are left out (`inside`). -/
theorem file_of_failing_block (tree : FileTree) (depth : Nat) {s : Session}
    (reached : Reaches (tree.importer depth) (s.between source [] (A ++ (C ++ B))) place
      (s₁.between source A (C ++ B)))
    (settled : s₁.pending = []) (plain : s₁.scopes.Plain)
    (shape : Lexeme.Block C) (opens : ∀ l, C.head? = some l → place.opens l)
    (next : ∀ l, B.head? = some l → l.kind ≠ .semicolon) (inside : place ≠ .file → B ≠ [])
    (fails : place.block (s₁.between source A C) = .error (.semantic error) failed) :
    ∃ (stop : Option Failure) (final : Session) (later : List Failure) (messages : List LogEntry),
      outcome (file (tree.importer depth) (s.between source [] (A ++ (C ++ B)))) =
        (stop, { final with
          failures := s₁.failures ++ Failure.semantic error :: later
          log := failed.session.log ++ messages }) ∧
      outcome (file (tree.importer depth) (s.between source [] (A ++ B))) =
        (stop, { final with failures := s₁.failures ++ later, log := s₁.log ++ messages }) := by
  have turn : Turn (tree.importer depth) place _ _ :=
    turn_of_failing shape next fails settled plain opens
  have first : ∀ l, C.head? = some l → l.kind ≠ .semicolon ∧ l.kind ≠ .rightBrace := by
    intro l found
    have opened := opens l found
    cases place <;> simp_all [Place.opens, Expectation.matched, Expectation.keyword]
  obtain ⟨result, run, run'⟩ := file_insert reached settled (.single turn) shape.ne_nil first
    shape.braceDepth next inside
  refine ⟨(outcome result).1, (outcome result).2, (outcome result).2.failures,
    (outcome result).2.log, ?_, ?_⟩
  · rw [run, outcome_place]
    simp [Session.within]
  · rw [run', outcome_place]
    rfl

end Failing

/-- `type Ship : "SHIPS" {};`, where the code is too long. -/
def misnamed : List Lexeme :=
  [.bare .identifier "type", .bare .identifier "Ship", .bare .colon, .bare .string "SHIPS"] ++
    .bare .leftBrace :: ([] ++ .bare .rightBrace :: [.bare .semicolon])

open Lexeme in
theorem file_of_misnamed_type :
    ∃ (stop : Option Failure) (final : Session) (later : List Failure) (messages : List LogEntry),
      outcome (file (FileTree.importer {} 0)
          (({} : Session).between default [] (defining ++ (misnamed ++ defining)))) =
        (stop, { final with
          failures := .semantic ⟨.definition (.invalidTypeCode "SHIPS"), default⟩ :: later
          log := messages }) ∧
      outcome (file (FileTree.importer {} 0)
          (({} : Session).between default [] (defining ++ defining))) =
        (stop, { final with failures := later, log := messages }) := by
  have shape : Lexeme.Block misnamed := .intro (by decide) rfl (by decide) rfl (.inr ⟨_, rfl, rfl⟩)
  have turn : Turn (FileTree.importer {} 0) .file
      (({} : Session).between default [] (defining ++ (misnamed ++ defining)))
      (({ definitions := ({} : Dict Unit).insert "deluxe" () } : Session).between default defining
        (misnamed ++ defining)) := ⟨by decide, by decide, rfl⟩
  exact file_of_failing_block {} 0 (.turn .start turn) rfl .initial shape (by decide) (by decide) nofun
    rfl

end Parse

end Rsrc
