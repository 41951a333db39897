import Rsrc.Proofs.Local.File

/-!
# Positions in a file

A file, a module and a declaration hold items, which a loop reads one after another. `Reaches` says
that the reading of a file comes to stand in front of an item, in however many modules. What is read
from there on is the rest of the loop (`loop`) and then the rest of what is around it.
-/

namespace Rsrc.Parse

variable {k k' : Setting} {importer : Importer} {st t : ParseState} {place : Place}

/-- What holds items. -/
inductive Place where
  | file
  | module
  /-- A declaration of a type in a container. -/
  | declaration (d : TypeDef) (container : Option String)

/-- The items are constructs. -/
def Place.holdsConstructs : Place → Prop
  | file | module => True
  | declaration .. => False

/-- Reads an item. -/
def Place.item (importer : Importer) : Place → Parse Unit
  | file | module => fileStep importer
  | declaration d container => declarationItem d container

/-- Reads the items that are left. -/
def Place.loop (importer : Importer) (place : Place) : Parse Unit :=
  match place with
  | file => do constructsWithin importer (← cursor).unread
  | module | declaration .. => toBrace (fun () => place.item importer) ()

/-! ### Heads -/

/-- Reads the head of a module and enters it, unless it is excluded. Gives what was the current module
before. -/
def moduleHead : Parse (Option (Option Nat)) := do
  match ← claim with
  | none => return none
  | some decorators =>
    Reading.skip (.keyword "module")
    let name ← Reading.identifier
    Reading.skip LexemeKind.leftBrace
    let previous ← enterModule name decorators
    return some previous

/-- Reads what follows the head of a module. -/
def moduleTail (body : Parse Unit) : Option (Option Nat) → Parse Unit
  | none => return
  | some previous => do
    andFinally body (·.leaveModule previous)
    closeBlock

/-- Reads the head of a declaration, unless it is excluded. -/
def declarationHead : Parse (Option (TypeDef × Option String)) := do
  match ← claim with
  | none => return none
  | some _ =>
    Reading.skip (.keyword "declare")
    let (container, name) ← declaredType
    Reading.skip LexemeKind.leftBrace
    let some d := (← session).typeNamed? name.text | Update.reject name (.unknownType name.text)
    if !d.isDeclarable then Update.reject name (.notDeclarable name.text)
    if d.decorators.has "deprecated" then
      Update.note .warn s!"{name.location}: type {quoted name.text} is deprecated"
    return some (d, container)

/-- Reads what follows the head of a declaration. -/
def declarationTail (importer : Importer) : Option (TypeDef × Option String) → Parse Unit
  | none => return
  | some (d, container) => do
    (Place.declaration d container).loop importer
    closeBlock

theorem moduleBlock_eq_head (body : Parse Unit) : moduleBlock body = moduleHead >>= moduleTail body := by
  rw [moduleBlock_eq, moduleHead, bind_assoc]
  refine bind_congr fun claimed => ?_
  cases claimed with
  | none => rfl
  | some decorators => simp only [claimedModule, moduleTail, bind_assoc, pure_bind]

theorem declaration_eq_head (importer : Importer) :
    declaration = declarationHead >>= declarationTail importer := by
  rw [declaration, declarationHead, bind_assoc]
  refine bind_congr fun claimed => ?_
  cases claimed with
  | none => rfl
  | some decorators =>
    simp only [bind_assoc]
    refine bind_congr fun _ => bind_congr fun named => bind_congr fun _ => bind_congr fun s => ?_
    cases s.typeNamed? named.2.text with
    | none => rfl
    | some d =>
      by_cases declarable : d.isDeclarable
      · by_cases deprecated : d.decorators.has "deprecated"
        · simp only [declarable, deprecated]
          rfl
        · simp only [declarable, deprecated]
          rfl
      · simp only [declarable]
        rfl

theorem Step.moduleHead [Meets k k'] :
    Step k k' True True Parse.moduleHead fun _ => False := by
  intro st
  refine .claimed rfl fun decorators => ?_
  refine (Step.skip (by decide) _).bind fun _ st => ?_
  refine (Local.identifier st).bind fun name st => ?_
  refine (Local.skipEdge _ st).bind fun _ st => ?_
  exact (LocalAt.ofUpdate (natural_enterModule name decorators)).bind fun previous st => .pure id

theorem Step.declarationHead [Meets k k'] :
    Step k k' True True Parse.declarationHead fun _ => False := by
  intro st
  refine .claimed rfl fun _ => ?_
  refine (Step.skip (by decide) _).bind fun _ st => ?_
  refine (Local.declaredType st).bind fun (container, name) st => ?_
  refine (Local.skipEdge _ st).bind fun _ st => ?_
  refine .session ?_ fun _ _ => rfl
  split
  · refine .rejectIf fun _ st => .ite (fun _ => ?_) fun _ => .pure id
    exact (LocalAt.ofUpdate (Update.Tame.note (n := 0) ..).natural).bind fun _ st => .pure id
  · exact .ofUpdate (.throw _)

/-! ### What is next -/

theorem exists_of_isAt {c : Cursor} {e : Expectation} (h : c.isAt e) :
    ∃ l, c.peek = some l ∧ e.matched l := by
  cases next : c.peek with
  | none => simp [Cursor.isAt, next] at h
  | some l => exact ⟨l, rfl, by simpa [Cursor.isAt, next] using h⟩

theorem not_finished_of_isAt {c : Cursor} {e : Expectation} (h : c.isAt e) : ¬ c.finished := by
  intro finished
  obtain ⟨l, next, -⟩ := exists_of_isAt h
  obtain ⟨injected, ahead⟩ : c.injected = [] ∧ c.ahead = [] := by
    simpa [Cursor.finished] using finished
  simp [Cursor.peek, injected, ahead] at next

section Construct

variable {importer : Importer} {body : Parse Unit} {st : ParseState}

theorem construct_of_next {l : Lexeme} (next : st.cursor.peek = some l) :
    construct importer body st = (if Expectation.matched LexemeKind.directive l then directive importer
      else if Expectation.matched LexemeKind.decorator l then decorator
      else if Expectation.matched (.keyword "module") l then moduleBlock body
      else if Expectation.matched (.keyword "type") l then typeBlock
      else if Expectation.matched (.keyword "declare") l then declaration
      else fail "a directive, a decorator, `module`, `type` or `declare`") st := by
  have same : ∀ e : Expectation, st.cursor.isAt e = e.matched l := by
    intro e
    simp [Cursor.isAt, next]
  simp only [← same]
  rfl

theorem construct_directive (h : st.cursor.isAt LexemeKind.directive) :
    construct importer body st = directive importer st := by
  obtain ⟨l, next, fits⟩ := exists_of_isAt h
  rw [construct_of_next next, if_pos fits]

theorem construct_decorator (h : st.cursor.isAt LexemeKind.decorator) :
    construct importer body st = decorator st := by
  obtain ⟨l, next, fits⟩ := exists_of_isAt h
  have kind : l.kind = .decorator := by simpa [Expectation.matched] using fits
  rw [construct_of_next next]
  simp [Expectation.matched, kind]

theorem construct_keyword {word : String} (h : st.cursor.isAt (.keyword word)) :
    construct importer body st = (if word = "module" then moduleBlock body
      else if word = "type" then typeBlock
      else if word = "declare" then declaration
      else fail "a directive, a decorator, `module`, `type` or `declare`") st := by
  obtain ⟨l, next, fits⟩ := exists_of_isAt h
  obtain ⟨kind, text⟩ : l.kind = .identifier ∧ l.text = word := by
    simpa [Expectation.matched, Expectation.keyword] using fits
  rw [construct_of_next next]
  simp [Expectation.matched, Expectation.keyword, kind, text]

end Construct

/-! ### Items -/

theorem Step.item [Meets k k'] [importer.Natural] (place : Place) :
    Step k k' True True (place.item importer) fun _ => False := by
  cases place with
  | file => exact Step.fileStep
  | module => exact Step.fileStep
  | declaration d container => exact Step.declarationItem d container

theorem Local.loop (whole : ¬ Cut k k') [importer.Natural] (place : Place) :
    Local k k' False False (place.loop importer) := by
  have meets : Meets k k' := by
    obtain ⟨none, none'⟩ : k.next = [] ∧ k'.next = [] := by simpa [Cut] using whole
    exact .none none none'
  cases place with
  | file =>
    intro st
    exact .fueled (f := fun n => Parse.constructsWithin importer n)
      (fun _ _ _ h h' => constructsWithin_fuel h h')
      fun n => Local.constructsWithin whole n st
  | module => exact Local.toBrace (fun _ => Step.item .module) ()
  | declaration d container =>
    exact Local.toBrace (fun _ => Step.item (.declaration d container)) ()

theorem toBrace_eq {α : Type} {step : α → Parse α} (advances : ∀ a st, AdvancesAt (step a) st) (a : α) :
    toBrace step a st = (if st.cursor.isAt LexemeKind.rightBrace then pure a
      else if st.cursor.finished then fail "`\x7d`"
      else step a >>= toBrace step : Parse α) st := by
  change stepsToBrace step (st.cursor.unread + 1) a st = _
  rw [stepsToBrace_succ]
  change (if st.cursor.isAt _ then _ else _ : Parse α) st = _
  split
  · rfl
  · split
    · rfl
    · rename_i unfinished
      refine bind_congr_at rfl fun b t ran => ?_
      have fewer := advances a st (Cursor.unread_pos unfinished)
      rw [ran] at fewer
      exact stepsToBrace_fuel advances fewer (Nat.le_refl _)

theorem advances_fileStep (importer : Importer) [importer.Natural] (st : ParseState) :
    AdvancesAt (fileStep importer) st := by
  have step : StepAt {} {} True True (fileStep importer) _ st :=
    Step.fileStep st
  exact step.advances

theorem fileLoop_eq [importer.Natural] :
    Place.file.loop importer st = (if st.cursor.finished then pure ()
      else fileStep importer >>= fun _ => Place.file.loop importer : Parse Unit) st := by
  split
  · rename_i finished
    exact constructsWithin_of_finished finished
  · rename_i unfinished
    obtain ⟨n, more⟩ := Nat.exists_eq_succ_of_ne_zero (Cursor.unread_pos unfinished).ne'
    change constructsWithin importer st.cursor.unread st = _
    rw [more, constructsWithin_succ]
    change (if st.cursor.finished then _ else _ : Parse Unit) st = _
    rw [if_neg unfinished]
    refine bind_congr_at rfl fun _ t ran => ?_
    have fewer := advances_fileStep importer st (Cursor.unread_pos unfinished)
    rw [ran] at fewer
    exact constructsWithin_fuel (by dsimp only at fewer; omega) (Nat.le_refl _)

/-- A loop reads an item and goes on. -/
theorem loop_turn [importer.Natural] (unfinished : ¬ st.cursor.finished)
    (inner : ¬ st.cursor.isAt LexemeKind.rightBrace) :
    place.loop importer st = (place.item importer >>= fun _ => place.loop importer) st := by
  have step : Step {} {} True True (place.item importer) _ := Step.item place
  have turn : toBrace (fun () => place.item importer) () st =
      (place.item importer >>= toBrace fun () => place.item importer) st := by
    rw [toBrace_eq (fun _ st => (step st).advances), if_neg inner, if_neg unfinished]
  cases place with
  | file =>
    rw [fileLoop_eq, if_neg unfinished]
    rfl
  | module => exact turn
  | declaration d container => exact turn

/-- The loop of a module depends on the bodies of modules inside it only where less is left. -/
theorem loop_module_eq [importer.Natural] {body : Parse Unit}
    (same : ∀ t limit, t.cursor.unread < limit → limit ≤ st.cursor.unread →
      moduleBody importer limit t = body t) :
    Place.module.loop importer st = toBrace (fun () => guarded (construct importer body)) () st := by
  have step : Local {} {} True True (fileStep importer) fun _ => False :=
    (Step.fileStep).local
  have turns (body : Parse Unit) : toBrace (fun () => body) () st =
      stepsToBrace (fun () => body) (st.cursor.unread + 1) () st := rfl
  rw [Place.loop, Place.item, turns, turns]
  refine stepsToBrace_congr (fun _ t => (step t).later) (fun _ t le => ?_) () (Nat.le_refl _)
  change guarded (construct importer (moduleBody importer t.cursor.unread)) t = _
  exact guarded_congr (construct_congr fun u fewer => same u _ fewer le)

/-- The constructs of a module are read by the loop, however deep modules may be inside one
another. -/
theorem moduleBody_eq_loop [importer.Natural] {n : Nat} (h : st.cursor.unread + 1 ≤ n) :
    moduleBody importer n st = Place.module.loop importer st := by
  obtain ⟨depth, rfl⟩ : ∃ depth, n = depth + 1 := ⟨n - 1, by omega⟩
  rw [loop_module_eq fun t limit fewer le =>
    moduleBody_fuel fewer (Nat.lt_of_lt_of_le fewer (Nat.le_trans le (Nat.le_of_succ_le_succ h)))]
  rfl

theorem item_of_holdsConstructs (constructs : place.holdsConstructs) :
    place.item importer = fileStep importer := by
  cases place with
  | file => rfl
  | module => rfl
  | declaration d container => exact constructs.elim

theorem item_module [importer.Natural] (constructs : place.holdsConstructs)
    (word : st.cursor.isAt (.keyword "module")) :
    place.item importer st =
      guarded (moduleHead >>= moduleTail (Place.module.loop importer)) st := by
  rw [item_of_holdsConstructs constructs, ← moduleBlock_eq_head]
  change guarded (construct importer (moduleBody importer st.cursor.unread)) st = _
  refine guarded_congr ?_
  rw [construct_keyword word, if_pos rfl]
  exact moduleBlock_congr fun t fewer => moduleBody_eq_loop (by omega)

theorem item_declaration (constructs : place.holdsConstructs)
    (word : st.cursor.isAt (.keyword "declare")) :
    place.item importer st = guarded (declarationHead >>= declarationTail importer) st := by
  rw [item_of_holdsConstructs constructs, ← declaration_eq_head]
  change guarded (construct importer (moduleBody importer st.cursor.unread)) st = _
  refine guarded_congr ?_
  rw [construct_keyword word, if_neg (by decide), if_neg (by decide), if_pos rfl]

/-! ### Positions -/

/-- A turn of the loop of a place. -/
structure Turn (importer : Importer) (place : Place) (st t : ParseState) : Prop where
  unfinished : ¬ st.cursor.finished
  inner : ¬ st.cursor.isAt LexemeKind.rightBrace
  read : place.item importer st = .ok () t

/-- Reading from the first state comes to stand in front of an item of the place. -/
inductive Reaches (importer : Importer) (st : ParseState) : Place → ParseState → Prop
  | start : Reaches importer st .file st
  | turn {place : Place} {t u : ParseState} (before : Reaches importer st place t)
    (turn : Turn importer place t u) : Reaches importer st place u
  | module {place : Place} {t u : ParseState} {previous : Option Nat}
    (before : Reaches importer st place t) (constructs : place.holdsConstructs)
    (word : t.cursor.isAt (.keyword "module")) (head : moduleHead t = .ok (some previous) u) :
    Reaches importer st .module u
  | declaration {place : Place} {t u : ParseState} {d : TypeDef} {container : Option String}
    (before : Reaches importer st place t) (constructs : place.holdsConstructs)
    (word : t.cursor.isAt (.keyword "declare"))
    (head : declarationHead t = .ok (some (d, container)) u) :
    Reaches importer st (.declaration d container) u

theorem Step.later {α : Type} {x : Parse α} {q : α → Prop} {a : α} (step : Step {} {} True True x q)
    (read : x st = .ok a t) : st.cursor.Later t.cursor := by
  have later := (step st).toLocalAt.later
  rwa [read] at later

theorem Reaches.later [importer.Natural] (h : Reaches importer st place t) :
    st.cursor.Later t.cursor := by
  induction h with
  | start => exact .refl _
  | turn before turn ih => exact ih.trans ((Step.item _).later turn.read)
  | module before constructs word head ih => exact ih.trans ((Step.moduleHead).later head)
  | declaration before constructs word head ih =>
    exact ih.trans ((Step.declarationHead).later head)

theorem Turn.loop_eq [importer.Natural] (turn : Turn importer place st t) :
    place.loop importer st = place.loop importer t := by
  rw [loop_turn turn.unfinished turn.inner, bind_of_ok turn.read]

end Rsrc.Parse
