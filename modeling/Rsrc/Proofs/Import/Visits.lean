import Rsrc.Proofs.Lasting
import Rsrc.Proofs.Progress.Loops

/-!
# Where imports happen

Imports are made by directives among the constructs of a file and its modules. `visits` lists the states
in which the reading of a file comes to stand in front of a construct, and `importAt?` tells the import
that is made there. Between these states nothing changes that imports depend on (`walk_visits`), and the
reading of a file depends on its importer only there (`loop_congr`).
-/

namespace Rsrc

/-- The files being read, the innermost first, and those that have been read. -/
def Session.imports (s : Session) : List Path × List Path := (s.importStack, s.imported)

namespace Parse

variable {importer importer' : Importer} {st : ParseState} {t : ParseState} {target : Lexeme}
  {place : Place}

/-- Reads a directive up to the file that it imports, if it imports one. -/
def importHead : Parse (Option Lexeme) := do
  match ← claim with
  | none => return none
  | some _ =>
    let directive ← Reading.one LexemeKind.directive
    if directive.text = "import" then return some (← Reading.one LexemeKind.string)
    else return none

/-- The import that the next construct makes: what it names, and the state in which it is made. -/
def importAt? (st : ParseState) : Option (Lexeme × ParseState) :=
  if st.cursor.isAt LexemeKind.directive then
    match importHead st with
    | .ok (some target) t => some (target, t)
    | _ => none
  else none

/-- The state behind the head of the module that the next construct enters. -/
def moduleAt? (st : ParseState) : Option ParseState :=
  if st.cursor.isAt (.keyword "module") then
    match moduleHead st with
    | .ok (some _) t => some t
    | _ => none
  else none

/-- The loop of the place ends here. -/
def Place.closes (place : Place) (c : Cursor) : Bool :=
  match place with
  | file => c.finished
  | module | declaration .. => c.isAt LexemeKind.rightBrace || c.finished

/-- The states in front of the constructs of a file or a module and of the modules inside it, in the
order in which reading comes to them, up to the end of each. -/
def visits (importer : Importer) : (limit : Nat) → Place → ParseState → List ParseState
  | 0, _, st => [st]
  | limit + 1, place, st =>
    if place.closes st.cursor then [st]
    else
      let inside := (moduleAt? st).elim [] (visits importer limit .module)
      let behind := match fileStep importer st with
        | .ok () t => visits importer limit place t
        | .error _ _ => []
      st :: (inside ++ behind)

/-! ### What changes imports -/

/-- What imports depend on is changed by imports only. -/
theorem steady_imports (k : List Path × List Path) :
    Steady (fun _ _ s => s.imports = k) fun _ _ _ s => s.imports = k := by
  have alike (s t : Session) (alike : s.Alike t) (same : s.imports = k) : t.imports = k := by
    rw [← same, ← alike]
    rfl
  have stable : Session.Stable 0 fun s => s.imports = k := .of_alike alike
  exact {
    stable := fun _ _ => stable
    fails := id
    recovers := fun _ stopped _ _ => stopped
    record := fun _ same => same
    settings := fun _ _ _ _ same => same
    typeBlock := fun _ _ => Upholds.typeBlock stable fun _ _ same => same
    resourceBlock := fun _ _ d container =>
      Runs.mono (Upholds.resourceBlock alike (fun _ same => same) d container) (fun _ => And.left)
        (fun _ _ => And.left) fun _ _ => id
    enter := fun same entered => by
      rw [Session.enterModule?_eq_some entered]
      exact same
    leave := fun _ same => same
    leaveFailed := fun _ same => same }

/-- What keeps every state of imports leaves it as it is. -/
theorem imports_eq {α : Type} {x : Parse α} (h : ∀ k, Upholds (fun s => s.imports = k) x)
    (st : ParseState) : (finalState (x st)).session.imports = st.session.imports :=
  (h _).final (s := st) rfl

theorem imports_guarded (x : Parse Unit) (st : ParseState) :
    (finalState (guarded x st)).session.imports = (finalState (x st)).session.imports := by
  rcases guarded_cases x with same | ⟨failure, t, ran, -, run⟩
  · rw [same]
  · rw [run, ran]
    rfl

/-- What follows leaves imports as they are. -/
theorem imports_bind {α β : Type} {x : Parse α} {f : α → Parse β}
    (h : ∀ a k, Upholds (fun s => s.imports = k) (f a)) :
    (finalState ((x >>= f) st)).session.imports = (finalState (x st)).session.imports := by
  cases run : x st with
  | ok a t =>
    rw [bind_of_ok run]
    exact imports_eq (h a) t
  | error failure t =>
    rw [bind_of_error run]
    rfl

/-! ### Directives -/

/-- An importer that does nothing. -/
def idle : Importer := fun _ => pure ()

theorem directive_of_importHead (h : importHead st = .ok (some target) t) :
    directive importer st = (importer target >>= fun _ => Reading.skip LexemeKind.semicolon) t := by
  obtain ⟨claimed, t₁, claims, h⟩ := bind_eq_ok h
  unfold directive
  rw [bind_of_ok claims]
  cases claimed with
  | none => cases h
  | some decorators =>
    obtain ⟨directive, t₂, read, h⟩ := bind_eq_ok h
    dsimp only
    rw [bind_of_ok read]
    split at h
    · rename_i text
      obtain ⟨name, t₃, named, h⟩ := bind_eq_ok h
      cases h
      have body : directiveBody importer directive =
          (ofReading (Reading.one LexemeKind.string) >>= importer) := by
        simp only [directiveBody, text]
        rfl
      rw [body, bind_assoc]
      exact bind_of_ok named
    · cases h

theorem directive_congr (h : ∀ target t, importHead st = .ok (some target) t →
    importer target t = importer' target t) : directive importer st = directive importer' st := by
  refine bind_congr_at rfl fun claimed t₁ claims => ?_
  cases claimed with
  | none => rfl
  | some decorators =>
    refine bind_congr_at rfl fun directive t₂ read => bind_congr_at ?_ fun _ _ _ => rfl
    by_cases text : directive.text = "import"
    · simp only [directiveBody, text]
      refine bind_congr_at rfl fun target t₃ named => h target t₃ ?_
      unfold importHead
      rw [bind_of_ok claims]
      dsimp only
      rw [bind_of_ok read, if_pos text, bind_of_ok named]
      rfl
    · have other : directiveBody importer directive = directiveBody importer' directive := by
        unfold directiveBody
        split
        · exact absurd ‹_› text
        iterate 5 rfl
      rw [other]

/-- What imports depend on behind the next construct, if it is no module. -/
def importsAfter (importer : Importer) (st : ParseState) : List Path × List Path :=
  match importAt? st with
  | none => st.session.imports
  | some (target, t) => (finalState (importer target t)).session.imports

theorem importAt?_eq_some (h : importAt? st = some (target, t)) :
    importHead st = .ok (some target) t := by
  unfold importAt? at h
  split at h
  · split at h
    · rename_i ran
      cases h
      exact ran
    · cases h
  · cases h

theorem importAt?_of_importHead (directive : st.cursor.isAt LexemeKind.directive)
    (h : importHead st = .ok (some target) t) : importAt? st = some (target, t) := by
  rw [importAt?, if_pos directive, h]

/-- Where a directive makes an import, the head of the directive has been read. -/
theorem imports_of_importAt? (h : importAt? st = some (target, t)) :
    t.session.imports = st.session.imports := by
  have head (k : List Path × List Path) : Upholds (fun s => s.imports = k) importHead := by
    have along := ((steady_imports k).rounds []).along none
    refine along.claimed (k := 0) rfl (fun _ same => ⟨same, trivial⟩) fun decorators => ?_
    have flat := along.clear 0
    refine (flat.one (by decide)).andThen fun directive => .ite (fun _ => ?_) fun _ => done _
    exact (flat.one (by decide)).andThen fun target => done _
  have same := imports_eq head st
  rwa [importAt?_eq_some h] at same

theorem imports_directive (directive : st.cursor.isAt LexemeKind.directive) :
    (finalState (Parse.directive importer st)).session.imports = importsAfter importer st := by
  unfold importsAfter
  cases found : importAt? st with
  | some call =>
    obtain ⟨target, t⟩ := call
    rw [directive_of_importHead (importAt?_eq_some found)]
    exact imports_bind (fun _ k => Upholds.reading _)
  | none =>
    have other : Parse.directive importer st = Parse.directive idle st := by
      refine directive_congr fun target t head => ?_
      rw [importAt?_of_importHead directive head] at found
      cases found
    rw [other]
    refine imports_eq (fun k => ?_) st
    refine (((steady_imports k).rounds []).directive (m := none) (k := 0) fun _ => done _).post ?_
    exact fun _ _ same => ⟨same, trivial⟩

/-! ### Modules and other constructs -/

theorem imports_moduleHead (st : ParseState) :
    (finalState (moduleHead st)).session.imports = st.session.imports := by
  refine imports_eq (fun k => ?_) st
  have rounds := (steady_imports k).rounds []
  have along := rounds.along none
  have flat := along.clear 0
  refine along.claimed (k := 0) rfl (fun _ same => ⟨same, trivial⟩) fun decorators => ?_
  refine (flat.skip (by decide)).runs fun _ _ => flat.identifier.runs fun name _ => ?_
  refine (along.opening (k := 0)).bind fun _ => ?_
  refine (rounds.enterModule (m := none) (k := 0) name decorators).bind ?_
  rintro previous st ⟨s, c, m, -, -, same⟩
  exact ⟨same, trivial⟩

/-- Behind a module, imports are as at its end. -/
theorem imports_moduleTail (body : Parse Unit) (previous : Option Nat) :
    (finalState (moduleTail body (some previous) st)).session.imports =
      (finalState (body st)).session.imports := by
  have closed (_ : Unit) (k : List Path × List Path) :
      Upholds (fun s => s.imports = k) closeBlock :=
    ((steady_imports k).stable none []).closeBlock
  refine (imports_bind closed).trans ?_
  rw [andFinally_eq]
  cases body st with
  | ok u t => rfl
  | error failure t => rfl

theorem moduleAt?_eq_some (h : moduleAt? st = some t) :
    st.cursor.isAt (.keyword "module") ∧ ∃ previous, moduleHead st = .ok (some previous) t := by
  unfold moduleAt? at h
  split at h
  · rename_i word
    split at h
    · rename_i ran
      cases h
      exact ⟨word, _, ran⟩
    · cases h
  · cases h

/-- What imports depend on behind a module. -/
theorem imports_module [importer.Natural] (h : moduleAt? st = some t) :
    (finalState (fileStep importer st)).session.imports =
      (finalState (Place.module.loop importer t)).session.imports := by
  obtain ⟨word, previous, head⟩ := moduleAt?_eq_some h
  have item : fileStep importer st = _ := @item_module importer st .file _ trivial word
  rw [item, imports_guarded, bind_of_ok head]
  exact imports_moduleTail ..

theorem imports_module_skipped [importer.Natural] (word : st.cursor.isAt (.keyword "module"))
    (h : moduleAt? st = none) :
    (finalState (fileStep importer st)).session.imports = st.session.imports := by
  have item : fileStep importer st = _ := @item_module importer st .file _ trivial word
  have same := imports_moduleHead st
  rw [item, imports_guarded]
  cases run : moduleHead st with
  | ok entered t =>
    rw [run] at same
    rw [bind_of_ok run]
    cases entered with
    | none => exact same
    | some previous => simp [moduleAt?, word, run] at h
  | error failure t =>
    rw [run] at same
    rw [bind_of_error run]
    exact same

theorem construct_other {body body' : Parse Unit} (undirected : ¬ st.cursor.isAt LexemeKind.directive)
    (outside : ¬ st.cursor.isAt (.keyword "module")) :
    construct importer body st = construct importer' body' st := by
  unfold construct
  change (if st.cursor.isAt _ then _ else _ : Parse Unit) st =
    (if st.cursor.isAt _ then _ else _ : Parse Unit) st
  rw [if_neg undirected, if_neg undirected]
  split
  · rfl
  · rfl

theorem imports_other (undirected : ¬ st.cursor.isAt LexemeKind.directive)
    (outside : ¬ st.cursor.isAt (.keyword "module")) :
    (finalState (fileStep importer st)).session.imports = st.session.imports := by
  have step : fileStep importer st =
    guarded (construct importer (moduleBody importer st.cursor.unread)) st := rfl
  have other : construct importer (moduleBody importer st.cursor.unread) st =
    construct idle (pure ()) st := construct_other undirected outside
  rw [step, imports_guarded, other]
  refine imports_eq (fun k => ?_) st
  have kept : Runs _ (construct idle (pure ())) _ _ := ((steady_imports k).rounds []).construct
    (m := none) (k := 0) (fun _ _ _ => done _) fun _ _ _ same => same
  exact kept.post fun _ _ same => ⟨same, trivial⟩

/-! ### Visits -/

/-- The end of a place. -/
def Place.ending (place : Place) : Parse Unit :=
  match place with
  | file => pure ()
  | module | declaration .. => do
    if (← cursor).isAt LexemeKind.rightBrace then pure () else fail "`\x7d`"

theorem ending_stays : finalState (place.ending st) = st := by
  cases place with
  | file => rfl
  | module =>
    change finalState ((if st.cursor.isAt _ then _ else _ : Parse Unit) st) = st
    split
    · rfl
    · rfl
  | declaration d container =>
    change finalState ((if st.cursor.isAt _ then _ else _ : Parse Unit) st) = st
    split
    · rfl
    · rfl

/-- The loop of a file or a module ends, or it reads a construct and goes on. -/
theorem loop_eq [importer.Natural] (constructs : place.holdsConstructs) (st : ParseState) :
    place.loop importer st = (if place.closes st.cursor then place.ending
      else fileStep importer >>= fun _ => place.loop importer : Parse Unit) st := by
  cases place with
  | declaration d container => exact constructs.elim
  | file => exact fileLoop_eq
  | module =>
    refine (toBrace_eq (fun _ => advances_fileStep importer) ()).trans ?_
    by_cases brace : st.cursor.isAt LexemeKind.rightBrace
    · rw [if_pos brace, if_pos (by simp [Place.closes, brace])]
      change _ = (if st.cursor.isAt _ then _ else _ : Parse Unit) st
      rw [if_pos brace]
    · rw [if_neg brace]
      by_cases finished : st.cursor.finished
      · rw [if_pos finished, if_pos (by simp [Place.closes, finished])]
        change _ = (if st.cursor.isAt _ then _ else _ : Parse Unit) st
        rw [if_neg brace]
      · rw [if_neg finished, if_neg (by simp [Place.closes, brace, finished])]
        rfl

theorem closes_of_unread {c : Cursor} (h : c.unread = 0) : place.closes c := by
  have finished : c.finished := by
    by_contra more
    have left := Cursor.unread_pos more
    omega
  cases place with
  | file => exact finished
  | module => simp [Place.closes, finished]
  | declaration d container => simp [Place.closes, finished]

theorem importAt?_of_closes (h : place.closes st.cursor) : importAt? st = none := by
  have undirected : ¬ st.cursor.isAt LexemeKind.directive := by
    intro directive
    obtain ⟨l, next, fits⟩ := exists_of_isAt directive
    have kind : l.kind = .directive := by simpa [Expectation.matched] using fits
    have unfinished := not_finished_of_isAt directive
    cases place <;> simp [Place.closes, unfinished, Cursor.isAt, next, Expectation.matched, kind] at h
  rw [importAt?, if_neg undirected]

/-- What imports depend on goes from one value to the other over the visits: it stands as it is in front
of a construct and is changed by the import that is made there. -/
def Walk (importer : Importer) :
    List Path × List Path → List ParseState → List Path × List Path → Prop
  | k, [], k' => k = k'
  | k, v :: visits, k' => v.session.imports = k ∧ Walk importer (importsAfter importer v) visits k'

theorem Walk.append {k j k' : List Path × List Path} {first second : List ParseState}
    (before : Walk importer k first j) (after : Walk importer j second k') :
    Walk importer k (first ++ second) k' := by
  induction first generalizing k with
  | nil =>
    cases before
    exact after
  | cons v first ih => exact ⟨before.1, ih before.2⟩

/-- A construct that is no module changes what imports depend on by the import that it makes. -/
theorem imports_fileStep [importer.Natural] (h : moduleAt? st = none) :
    (finalState (fileStep importer st)).session.imports = importsAfter importer st := by
  by_cases directive : st.cursor.isAt LexemeKind.directive
  · have step : fileStep importer st =
      guarded (construct importer (moduleBody importer st.cursor.unread)) st := rfl
    rw [step, imports_guarded, construct_directive directive]
    exact imports_directive directive
  · have none : importAt? st = none := by rw [importAt?, if_neg directive]
    rw [importsAfter, none]
    by_cases word : st.cursor.isAt (.keyword "module")
    · exact imports_module_skipped word h
    · exact imports_other directive word

theorem importAt?_of_module (h : moduleAt? st = some t) : importAt? st = none := by
  obtain ⟨word, -⟩ := moduleAt?_eq_some h
  have undirected : ¬ st.cursor.isAt LexemeKind.directive := by
    intro directive
    obtain ⟨l, next, fits⟩ := exists_of_isAt directive
    have kind : l.kind = .directive := by simpa [Expectation.matched] using fits
    simp [Cursor.isAt, next, Expectation.matched, Expectation.keyword, kind] at word
  rw [importAt?, if_neg undirected]

theorem unread_of_moduleAt? (h : moduleAt? st = some t) : t.cursor.unread < st.cursor.unread := by
  obtain ⟨word, previous, head⟩ := moduleAt?_eq_some h
  obtain ⟨l, next, -⟩ := exists_of_isAt word
  have left : 0 < st.cursor.unread := by
    have one := Cursor.unread_advance next
    omega
  have step : StepAt {} {} True True moduleHead _ st := Step.moduleHead st
  have fewer := step.advances left
  rwa [head] at fewer

section

variable [importer.Natural]

theorem unread_of_fileStep (opened : ¬ place.closes st.cursor) (h : fileStep importer st = .ok () t) :
    t.cursor.unread < st.cursor.unread := by
  have left : 0 < st.cursor.unread :=
    Nat.pos_of_ne_zero fun none => opened (closes_of_unread none)
  have fewer := advances_fileStep importer st left
  rwa [h] at fewer

/-- At the end of a file or a module no import is made. -/
theorem walk_of_closes (constructs : place.holdsConstructs) (closes : place.closes st.cursor) :
    Walk importer st.session.imports [st] (finalState (place.loop importer st)).session.imports := by
  rw [loop_eq constructs, if_pos closes, ending_stays]
  refine ⟨rfl, ?_⟩
  rw [importsAfter, importAt?_of_closes closes]
  rfl

/-- Between the visits of a file nothing changes what imports depend on, but for the imports made
there. -/
theorem walk_visits {limit : Nat} (constructs : place.holdsConstructs) {st : ParseState}
    (enough : st.cursor.unread ≤ limit) :
    Walk importer st.session.imports (visits importer limit place st)
      (finalState (place.loop importer st)).session.imports := by
  induction limit generalizing place st with
  | zero => exact walk_of_closes constructs (closes_of_unread (by omega))
  | succ limit ih =>
    rw [visits]
    split
    · rename_i closes
      exact walk_of_closes constructs closes
    · rename_i opened
      refine ⟨rfl, ?_⟩
      -- up to the end of the construct, modules are gone through first
      have inside : Walk importer (importsAfter importer st)
          ((moduleAt? st).elim [] (visits importer limit .module))
          (finalState (fileStep importer st)).session.imports := by
        cases entered : moduleAt? st with
        | none => exact (imports_fileStep entered).symm
        | some t =>
          have fewer := unread_of_moduleAt? entered
          have within : t.cursor.unread ≤ limit := by omega
          obtain ⟨-, previous, head⟩ := moduleAt?_eq_some entered
          have same := imports_moduleHead st
          rw [head] at same
          rw [imports_module entered, importsAfter, importAt?_of_module entered]
          dsimp only
          rw [← same]
          exact ih (show Place.module.holdsConstructs from trivial) within
      refine inside.append ?_
      rw [loop_eq constructs, if_neg opened]
      cases step : fileStep importer st with
      | ok u t =>
        have fewer := unread_of_fileStep opened step
        have within : t.cursor.unread ≤ limit := by omega
        rw [bind_of_ok step]
        exact ih constructs within
      | error failure t =>
        rw [bind_of_error step]
        rfl

theorem fileStep_congr [importer'.Natural]
    (imports : ∀ target t, importAt? st = some (target, t) → importer target t = importer' target t)
    (inside : ∀ t, moduleAt? st = some t →
      Place.module.loop importer t = Place.module.loop importer' t) :
    fileStep importer st = fileStep importer' st := by
  by_cases directive : st.cursor.isAt LexemeKind.directive
  · refine guarded_congr ?_
    rw [construct_directive directive, construct_directive directive]
    exact directive_congr fun target t head =>
      imports target t (importAt?_of_importHead directive head)
  by_cases word : st.cursor.isAt (.keyword "module")
  · have item : fileStep importer st = _ := @item_module importer st .file _ trivial word
    have item' : fileStep importer' st = _ := @item_module importer' st .file _ trivial word
    rw [item, item']
    refine guarded_congr (bind_congr_at rfl fun entered t head => ?_)
    cases entered with
    | none => simp only [moduleTail]
    | some previous =>
      have body := inside t (by simp [moduleAt?, word, head])
      simp only [moduleTail]
      exact bind_congr_at (andFinally_congr body) fun _ _ _ => rfl
  · exact guarded_congr (construct_other directive word)

/-- The reading of a file depends on the importer only where imports are made. -/
theorem loop_congr [importer'.Natural] {limit : Nat} (constructs : place.holdsConstructs)
    {st : ParseState} (enough : st.cursor.unread ≤ limit)
    (same : ∀ v ∈ visits importer limit place st, ∀ target t, importAt? v = some (target, t) →
      importer target t = importer' target t) :
    place.loop importer st = place.loop importer' st := by
  induction limit generalizing place st with
  | zero =>
    have closes : place.closes st.cursor := closes_of_unread (by omega)
    rw [loop_eq constructs, loop_eq constructs, if_pos closes, if_pos closes]
  | succ limit ih =>
    rw [loop_eq constructs, loop_eq constructs]
    by_cases closes : place.closes st.cursor
    · rw [if_pos closes, if_pos closes]
    rw [visits, if_neg closes] at same
    rw [if_neg closes, if_neg closes]
    have step : fileStep importer st = fileStep importer' st := by
      refine fileStep_congr (same st List.mem_cons_self) fun t entered => ?_
      have fewer := unread_of_moduleAt? entered
      refine ih (show Place.module.holdsConstructs from trivial) (by omega) fun v member => ?_
      refine same v (List.mem_cons_of_mem _ (List.mem_append_left _ ?_))
      rw [entered]
      exact member
    refine bind_congr_at step fun _ t ran => ?_
    have fewer := unread_of_fileStep closes ran
    refine ih constructs (by omega) fun v member => ?_
    refine same v (List.mem_cons_of_mem _ (List.mem_append_right _ ?_))
    rw [ran]
    exact member

end

end Parse

end Rsrc
