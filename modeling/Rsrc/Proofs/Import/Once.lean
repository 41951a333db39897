import Rsrc.Proofs.Balance
import Rsrc.Proofs.Import.Orderly
import Rsrc.Proofs.Import.Visits

/-!
# Files are read once

The files of a project may import one another in any way. `FileTree.moments` lists what happens while a
file is read: where reading stands in front of a construct, and where it opens another file. In all these
moments imports are in order (`recounts_file`), so that no file is opened while it is read or after that.
The depth of imports is then limited by the number of files (`file_limit`), and it does not matter what a
file contains once it has been opened (`file_reading`).
-/

namespace Rsrc

/-! ### One import -/

namespace FileTree

open Parse

variable (t : FileTree) {importer importer' : Importer} {target : Lexeme} {s entered : Session}
  {path : Path} {st start call : ParseState} {read : Path → Except FileError String} {depth : Nat}

theorem importPath?_names {text : String} (h : t.importPath? s text = some path) : t.Names path := by
  obtain ⟨found, there, rfl⟩ := Option.map_eq_some_iff.1 h
  have file := List.find?_some there
  unfold isFile at file
  cases located : t.locate found with
  | error e => simp [located] at file
  | ok place =>
    simp only [located] at file
    refine ⟨place, ?_⟩
    have named : t.canonical found = .ok (absolute place) := by
      rw [canonical, located]
      rfl
    rw [named]
    cases there : t.node? place with
    | none => simp [there] at file
    | some node =>
      cases node with
      | directory => simp [there] at file
      | file contents => exact ⟨contents, rfl, rfl⟩

theorem begins?_eq_some (h : t.begins? target s = some (path, entered)) :
    entered.imports = (path :: s.importStack, s.imported) ∧
      Path.Apart [path] (s.importStack ++ s.imported) ∧ t.Names path ∧
      ∀ enter, t.importBy enter target s = finishingImport (enter path) entered := by
  rcases t.importBy_cases target s with ⟨none, -⟩ | ⟨p, inside, found, known, begun, opens, run⟩
  · rw [none] at h
    cases h
  · rw [opens] at h
    cases h
    refine ⟨?_, ?_, t.importPath?_names found, run⟩
    · rw [Session.beginImport_eq_ok begun]
      rfl
    · intro p' member q old same
      obtain rfl := List.mem_singleton.1 member
      rw [Path.same_comm] at same
      rcases List.mem_append.1 old with onStack | finished
      · unfold Session.beginImport at begun
        rw [if_pos (List.any_eq_true.2 ⟨q, onStack, same⟩)] at begun
        cases begun
      · exact known (List.any_eq_true.2 ⟨q, finished, same⟩)

/-- An import that opens no file leaves all as it is. -/
theorem importBy_of_none (h : t.begins? target s = none) (enter enter' : Path → Update Unit) :
    finalState (t.importBy enter target s) = s ∧
      t.importBy enter target s = t.importBy enter' target s := by
  rcases t.importBy_cases target s with ⟨-, ⟨cause, run⟩ | run⟩ | ⟨p, inside, -, -, -, opens, -⟩
  · rw [run, run]
    exact ⟨rfl, rfl⟩
  · rw [run, run]
    exact ⟨rfl, rfl⟩
  · rw [opens] at h
    cases h

/-- An import depends on what is done to read a file only for the file that it opens. -/
theorem importBy_congr {enter enter' : Path → Update Unit}
    (same : ∀ path entered, t.begins? target s = some (path, entered) →
      enter path entered = enter' path entered) :
    t.importBy enter target s = t.importBy enter' target s := by
  cases begun : t.begins? target s with
  | none => exact (t.importBy_of_none begun enter enter').2
  | some opening =>
    obtain ⟨path, entered⟩ := opening
    obtain ⟨-, -, -, run⟩ := t.begins?_eq_some begun
    rw [run, run]
    unfold finishingImport
    rw [same path entered begun]

/-- Reads a file whose contents are told by `read`. -/
def readFrom (read : Path → Except FileError String) (importer : Importer) (path : Path) :
    Update Unit :=
  match read path with
  | .error e => throw (.unreadable path.text e.message)
  | .ok contents => parseSource importer { name := path.text, contents }

theorem readInto_of_none (h : t.start? path s = none) (importer : Importer) :
    finalState (t.readInto importer path s) = s := by
  rcases t.start?_cases path s with ⟨-, failure, run⟩ | ⟨cursor, some, -⟩
  · rw [run]
    rfl
  · cases h.symm.trans some

theorem readInto_of_some (h : t.start? path s = some st) (importer : Importer) :
    st.session = s ∧ finalState (t.readInto importer path s) =
      (finalState (Parse.file importer st)).session := by
  rcases t.start?_cases path s with ⟨none, -⟩ | ⟨cursor, some, run⟩
  · cases h.symm.trans none
  · cases h.symm.trans some
    rw [run]
    cases Parse.file importer ⟨s, cursor⟩ <;> exact ⟨rfl, rfl⟩

theorem readInto_congr (same : read path = t.readText path)
    (files : ∀ st, t.start? path s = some st → Parse.file importer st = Parse.file importer' st) :
    t.readInto importer path s = readFrom read importer' path s := by
  have told : readFrom read importer' path = t.readInto importer' path := by
    unfold readFrom
    rw [same]
    rfl
  rcases t.start?_cases path s with ⟨-, failure, run⟩ | ⟨cursor, some, run⟩
  · rw [told, run, run]
  · rw [told, run, run, files _ some]

/-- Whatever becomes of the file, the import goes on behind it. -/
theorem finishingImport_eq_ok (u : Update Unit) : ∃ after, finishingImport u s = .ok () after := by
  unfold finishingImport
  cases u s with
  | ok a t => exact ⟨_, rfl⟩
  | error failure t => exact ⟨_, rfl⟩

/-- When a file has been read, it is one more. -/
theorem imports_finishingImport {u : Update Unit} {stack read : List Path}
    (h : (finalState (u s)).imports = (path :: stack, read)) (apart : Path.Apart [path] read) :
    (finalState (finishingImport u s)).imports = (stack, path :: read) := by
  have ended {s : Session} (h : s.imports = (path :: stack, read)) :
      s.endImport.imports = (stack, path :: read) := by
    obtain ⟨stacked, finished⟩ : s.importStack = path :: stack ∧ s.imported = read := by
      simpa [Session.imports] using h
    have other : s.imported.any (·.same path) = false := by
      rw [finished, Bool.eq_false_iff]
      intro again
      obtain ⟨q, member, same⟩ := List.any_eq_true.1 again
      exact apart path List.mem_cons_self q member (by rwa [Path.same_comm])
    unfold Session.endImport
    rw [stacked]
    dsimp only [Session.imports]
    rw [other, if_neg Bool.false_ne_true, finished]
  unfold finishingImport
  cases run : u s with
  | ok u t =>
    rw [run] at h
    exact ended h
  | error failure t =>
    rw [run] at h
    exact ended h

/-! ### What happens while a file is read -/

/-- A moment of reading. -/
inductive Moment where
  /-- In front of a construct or at the end of a file or a module. -/
  | inFront (st : ParseState)
  /-- A file has been opened and is going to be read into the session. -/
  | opening (path : Path) (s : Session)

namespace Moment

def session : Moment → Session
  | inFront st => st.session
  | opening _ s => s

def opened? : Moment → Option Path
  | inFront _ => none
  | opening path _ => some path

end Moment

/-- What happens at a construct that is no module: if it imports a file, the file is read, with imports
that are less than `depth` deep inside it. -/
def momentsAt (t : FileTree) : (depth : Nat) → ParseState → List Moment
  | 0, st => [.inFront st]
  | depth + 1, st =>
    match importAt? st with
    | none => [.inFront st]
    | some (target, call) =>
      match t.begins? target call.session with
      | none => [.inFront st]
      | some (path, entered) =>
        let inside := (t.start? path entered).elim [] fun start =>
          (visits (t.importer depth) start.cursor.unread .file start).flatMap (t.momentsAt depth)
        .inFront st :: .opening path entered :: inside

/-- What happens while a file is read, in order. -/
def moments (t : FileTree) (depth : Nat) (start : ParseState) : List Moment :=
  (visits (t.importer depth) start.cursor.unread .file start).flatMap (t.momentsAt depth)

variable {moments : ParseState → List Moment}

/-- The files that are opened while a file is read, in order. -/
def opened (t : FileTree) (depth : Nat) (start : ParseState) : List Path :=
  (t.moments depth start).filterMap Moment.opened?

/-- The moments lead from one state of imports to another, and in each of them imports are in order. -/
structure Recounts (t : FileTree) (k k' : List Path × List Path) (moments : List Moment) : Prop where
  opened : Opened t k k' (moments.filterMap Moment.opened?)
  orderly : ∀ m ∈ moments, Orderly t m.session.imports

/-- Where imports are in order, the moments at a construct recount what the import there does. -/
def Tells (t : FileTree) (importer : Importer) (moments : ParseState → List Moment) : Prop :=
  ∀ v : ParseState, Orderly t v.session.imports →
    Recounts t v.session.imports (importsAfter importer v) (moments v)

variable {t} {k j k' : List Path × List Path}

theorem Recounts.inFront (orderly : Orderly t st.session.imports) (h : k' = st.session.imports) :
    Recounts t st.session.imports k' [.inFront st] where
  opened := h ▸ Opened.refl t st.session.imports
  orderly m member := by
    obtain rfl := List.mem_singleton.1 member
    exact orderly

theorem Recounts.append {first second : List Moment} (before : Recounts t k j first)
    (after : Recounts t j k' second) : Recounts t k k' (first ++ second) where
  opened := by
    rw [List.filterMap_append]
    exact before.opened.trans after.opened
  orderly m member := (List.mem_append.1 member).elim (before.orderly m) (after.orderly m)

/-- Over the visits of a file, imports go from one to the next. -/
theorem Recounts.walk (each : t.Tells importer moments) {visits : List ParseState}
    (walk : Walk importer k visits k') (orderly : Orderly t k) :
    Recounts t k k' (visits.flatMap moments) := by
  induction visits generalizing k with
  | nil =>
    cases walk
    exact ⟨.refl t _, nofun⟩
  | cons v visits ih =>
    obtain ⟨rfl, walk⟩ := walk
    have here := each v orderly
    exact here.append (ih walk (here.opened.orderly orderly))

/-- At the visits of a file, the files being read are the same, and what has been read before has been
read. -/
theorem orderly_of_walk (each : t.Tells importer moments) {visits : List ParseState}
    (walk : Walk importer k visits k') (orderly : Orderly t k) :
    ∀ v ∈ visits, Orderly t v.session.imports ∧ v.session.importStack = k.1 ∧
      k.2 ⊆ v.session.imported := by
  induction visits generalizing k with
  | nil => exact nofun
  | cons v visits ih =>
    obtain ⟨rfl, walk⟩ := walk
    have here := (each v orderly).opened
    intro w member
    rcases List.mem_cons.1 member with rfl | later
    · exact ⟨orderly, rfl, List.Subset.refl _⟩
    · obtain ⟨inOrder, stack, read⟩ := ih walk (here.orderly orderly) w later
      refine ⟨inOrder, stack.trans here.stack, fun p before => read (here.read.mem_iff.2 ?_)⟩
      exact List.mem_append_right _ before

theorem imports_file :
    (finalState (Parse.file importer st)).session.imports =
      (finalState (Place.file.loop importer st)).session.imports := by
  rw [file_eq]
  refine imports_bind (fun _ k st same => ?_)
  unfold fileEnd
  have look : session st = .ok st.session st := rfl
  rw [bind_of_ok look]
  cases dangling? st.session with
  | none => exact ⟨same, trivial⟩
  | some failure => exact ⟨same, trivial⟩

theorem walk_file [importer.Natural] (st : ParseState) :
    Walk importer st.session.imports (visits importer st.cursor.unread .file st)
      (finalState (Parse.file importer st)).session.imports := by
  rw [imports_file]
  exact walk_visits (show Place.file.holdsConstructs from trivial) le_rfl

/-- The reading of a file that has been opened. -/
theorem recounts_readInto (each : t.Tells (t.importer depth) (t.momentsAt depth))
    (orderly : Orderly t s.imports) (path : Path) :
    Recounts t s.imports (finalState (t.readInto (t.importer depth) path s)).imports
      ((t.start? path s).elim [] (t.moments depth)) := by
  cases start : t.start? path s with
  | none =>
    rw [t.readInto_of_none start]
    exact ⟨.refl t _, nofun⟩
  | some st =>
    obtain ⟨rfl, run⟩ := t.readInto_of_some start (t.importer depth)
    rw [run]
    exact Recounts.walk each (walk_file st) orderly

/-- The moments of a file that is opened, read and finished. -/
theorem Recounts.file {inside : List Moment} {read : List Path × List Path}
    (orderly : Orderly t st.session.imports) (named : t.Names path)
    (fresh : Path.Apart [path] (st.session.importStack ++ st.session.imported))
    (opening : entered.imports = (path :: st.session.importStack, st.session.imported))
    (inner : Recounts t entered.imports read inside) :
    Recounts t st.session.imports (st.session.importStack, path :: read.2)
      (.inFront st :: .opening path entered :: inside) where
  opened := by
    have opened := inner.opened
    rw [opening] at opened
    have whole : read = (path :: st.session.importStack, read.2) := Prod.ext opened.stack rfl
    rw [whole] at opened
    exact Opened.file named fresh opened
  orderly m member := by
    rcases List.mem_cons.1 member with rfl | member
    · exact orderly
    rcases List.mem_cons.1 member with rfl | member
    · change Orderly t entered.imports
      rw [opening]
      exact orderly.push named fresh
    · exact inner.orderly m member

/-- An import that opens a file: the file is read and finished. -/
theorem recounts_import (each : t.Tells (t.importer depth) (t.momentsAt depth))
    (orderly : Orderly t st.session.imports) (same : s.imports = st.session.imports)
    (begun : t.begins? target s = some (path, entered)) :
    Recounts t st.session.imports
      (finalState (t.importBy (t.readInto (t.importer depth)) target s)).imports
      (.inFront st :: .opening path entered :: (t.start? path entered).elim [] (t.moments depth)) := by
  obtain ⟨opening, fresh, named, run⟩ := t.begins?_eq_some begun
  obtain ⟨stack, read⟩ : s.importStack = st.session.importStack ∧ s.imported = st.session.imported :=
    Prod.mk.injEq .. ▸ same
  rw [stack, read] at opening fresh
  have inOrder : Orderly t entered.imports := opening ▸ orderly.push named fresh
  have inner := recounts_readInto each inOrder path
  have stacked : (finalState (t.readInto (t.importer depth) path entered)).importStack =
      path :: st.session.importStack := inner.opened.stack.trans (congrArg Prod.fst opening)
  have apart : Path.Apart [path] (finalState (t.readInto (t.importer depth) path entered)).imported := by
    intro p member
    obtain rfl := List.mem_singleton.1 member
    apply (inner.opened.orderly inOrder).apart
    change p ∈ Session.importStack (finalState _)
    rw [stacked]
    exact List.mem_cons_self
  rw [run, imports_finishingImport (Prod.ext stacked rfl) apart]
  exact Recounts.file orderly named fresh opening inner

theorem session_importer :
    (finalState (t.importer (depth + 1) target call)).session =
      finalState (t.importBy (t.readInto (t.importer depth)) target call.session) := by
  rw [importer_succ]
  unfold Parse.ofUpdate
  cases t.importBy (t.readInto (t.importer depth)) target call.session with
  | ok u s => rfl
  | error failure s => rfl

theorem tells_momentsAt (depth : Nat) : t.Tells (t.importer depth) (t.momentsAt depth) := by
  -- on the depth: in a file that is opened, imports can be one less deep
  induction depth with
  | zero =>
    intro v orderly
    refine .inFront orderly ?_
    unfold importsAfter
    cases found : importAt? v with
    | none => rfl
    | some call => exact imports_of_importAt? found
  | succ depth ih =>
    intro v orderly
    unfold importsAfter momentsAt
    cases found : importAt? v with
    | none => exact .inFront orderly rfl
    | some call =>
      obtain ⟨target, call⟩ := call
      have same := imports_of_importAt? found
      dsimp only
      rw [session_importer]
      cases begun : t.begins? target call.session with
      | none =>
        rw [(t.importBy_of_none begun _ (t.readInto (t.importer depth))).1]
        exact .inFront orderly same
      | some opening => exact recounts_import ih orderly same begun

theorem recounts_file (depth : Nat) (orderly : Orderly t start.session.imports) :
    Recounts t start.session.imports
      (finalState (Parse.file (t.importer depth) start)).session.imports (t.moments depth start) :=
  Recounts.walk (tells_momentsAt depth) (walk_file start) orderly

/-- The reading of a file depends on the importer only for imports that are made in order, under the
files being read and behind what has been read. -/
theorem file_congr [importer'.Natural] (orderly : Orderly t st.session.imports)
    (same : ∀ target (call : ParseState), Orderly t call.session.imports →
      call.session.importStack = st.session.importStack →
      st.session.imported ⊆ call.session.imported →
      t.importer depth target call = importer' target call) :
    Parse.file (t.importer depth) st = Parse.file importer' st := by
  have met := orderly_of_walk (tells_momentsAt depth) (walk_file st) orderly
  rw [file_eq, file_eq]
  refine bind_congr_at (loop_congr (show Place.file.holdsConstructs from trivial)
    le_rfl ?_) fun _ _ _ => rfl
  intro v visited target call found
  obtain ⟨inOrder, stack, read⟩ := met v visited
  have kept := imports_of_importAt? found
  apply same target call (kept ▸ inOrder) ((congrArg Prod.fst kept).trans stack)
  have done : call.session.imported = v.session.imported := congrArg Prod.snd kept
  rwa [done]

/-! ### The limit on the depth of imports -/

/-- An import depends on the contents of files and on the importer only for files that have not been
opened, and for the imports that are made in them. -/
theorem importer_succ_congr [importer'.Natural] (orderly : Orderly t call.session.imports)
    (same : ∀ path, Path.Apart [path] (call.session.importStack ++ call.session.imported) →
      read path = t.readText path)
    (inner : ∀ path target (inside : ParseState), Orderly t inside.session.imports →
      inside.session.importStack = path :: call.session.importStack →
      call.session.imported ⊆ inside.session.imported →
      t.importer depth target inside = importer' target inside) :
    t.importer (depth + 1) target call =
      Parse.ofUpdate (t.importBy (readFrom read importer') target) call := by
  rw [importer_succ]
  unfold Parse.ofUpdate
  rw [t.importBy_congr fun path entered begun => ?_]
  obtain ⟨opening, fresh, named, -⟩ := t.begins?_eq_some begun
  have inOrder : Orderly t entered.imports := opening ▸ orderly.push named fresh
  refine t.readInto_congr (same path fresh) fun st start => ?_
  obtain ⟨rfl, -⟩ := t.readInto_of_some start idle
  obtain ⟨onStack, finished⟩ : st.session.importStack = path :: call.session.importStack ∧
    st.session.imported = call.session.imported := Prod.mk.injEq .. ▸ opening
  refine file_congr inOrder fun target inside within stack read => ?_
  exact inner path target inside within (stack.trans onStack) (finished ▸ read)

/-- Where there is room for all files inside one another, room for one more makes no difference. -/
theorem importer_limit {target : Lexeme} (orderly : Orderly t call.session.imports)
    (enough : t.nodes.length + 1 < call.session.importStack.length + depth) :
    t.importer depth target call = t.importer (depth + 1) target call := by
  induction depth generalizing target call with
  | zero =>
    have fewer : call.session.importStack.length ≤ t.nodes.length + 1 := orderly.length_le
    omega
  | succ depth ih =>
    rw [importer_succ t (depth + 1)]
    refine importer_succ_congr orderly (fun _ _ => rfl) fun path target inside within stack _ => ?_
    refine ih within ?_
    rw [stack, List.length_cons]
    omega

theorem file_limit (orderly : Orderly t start.session.imports)
    (inside : start.session.importStack ≠ []) (enough : t.importLimit ≤ depth) :
    Parse.file (t.importer depth) start = Parse.file (t.importer t.importLimit) start := by
  have some := List.length_pos_iff.2 inside
  induction depth, enough using Nat.le_induction with
  | base => rfl
  | succ depth enough ih =>
    rw [← ih]
    refine (file_congr orderly fun target call within stack _ => ?_).symm
    apply importer_limit within
    rw [stack]
    unfold importLimit at enough
    omega

/-! ### Contents that are not looked at again -/

/-- The importer, with the contents of files as they are told by `read`. -/
def importerReading (t : FileTree) (read : Path → Except FileError String) :
    (depth : Nat) → Importer
  | 0, target => Update.reject target (.importNotFound target.text)
  | depth + 1, target =>
    Parse.ofUpdate (t.importBy (readFrom read (t.importerReading read depth)) target)

instance natural_importerReading (read : Path → Except FileError String) (depth : Nat) :
    (t.importerReading read depth).Natural := by
  induction depth with
  | zero => exact ⟨fun target => ⟨Update.reject target _, .throw _, rfl⟩⟩
  | succ depth ih =>
    refine ⟨fun target => ⟨_, t.natural_importBy (fun path => ?_) target, rfl⟩⟩
    unfold readFrom
    cases read path with
    | error e => exact .throw _
    | ok contents => exact natural_parseSource _

theorem importer_reading {known : List Path}
    (agree : ∀ path, Path.Apart [path] known → read path = t.readText path) {target : Lexeme}
    (orderly : Orderly t call.session.imports)
    (opened : known ⊆ call.session.importStack ++ call.session.imported) :
    t.importer depth target call = t.importerReading read depth target call := by
  induction depth generalizing target call with
  | zero => rfl
  | succ depth ih =>
    refine importer_succ_congr orderly (fun path fresh => ?_) fun path target inside within stack read =>
      ih within fun p before => ?_
    · exact agree path fun p member q before => fresh p member q (opened before)
    rw [stack]
    rcases List.mem_append.1 (opened before) with onStack | finished
    · exact List.mem_append_left _ (List.mem_cons_of_mem _ onStack)
    · exact List.mem_append_right _ (read finished)

theorem file_reading (orderly : Orderly t st.session.imports)
    (agree : ∀ path, Path.Apart [path] (st.session.importStack ++ st.session.imported) →
      read path = t.readText path) (depth : Nat) :
    Parse.file (t.importer depth) st = Parse.file (t.importerReading read depth) st := by
  refine file_congr orderly
    fun target call within stack read => importer_reading agree within fun p before => ?_
  rw [stack]
  rcases List.mem_append.1 before with onStack | finished
  · exact List.mem_append_left _ onStack
  · exact List.mem_append_right _ (read finished)

/-! ### Imports that open nothing -/

/-- A cycle is told exactly if the file is being read. -/
theorem importer_circular (orderly : Orderly t call.session.imports) {cycle : String} :
    (∃ site after, t.importer (depth + 1) target call =
        .error (.semantic ⟨.circularImport cycle, site⟩) after) ↔
      ∃ path, t.importPath? call.session target.text = some path ∧
        (∃ q ∈ call.session.importStack, q.same path) ∧ cycle = call.session.cycleText path := by
  rw [importer_succ]
  unfold Parse.ofUpdate importBy
  cases found : t.importPath? call.session target.text with
  | none => simp
  | some path =>
    have there : (∃ path', some path = some path' ∧ (∃ q ∈ call.session.importStack, q.same path') ∧
        cycle = call.session.cycleText path') ↔ call.session.beginImport path = .error cycle := by
      rw [Session.beginImport_eq_error orderly.distinct]
      simp
    rw [there]
    dsimp only
    by_cases known : call.session.wasImported path
    · rw [if_pos known]
      refine ⟨nofun, fun closed => ?_⟩
      -- a file that has been read is not being read
      obtain ⟨⟨q, onStack, same⟩, -⟩ := (Session.beginImport_eq_error orderly.distinct).1 closed
      obtain ⟨p, finished, again⟩ := List.any_eq_true.1 known
      exact absurd (Path.same_trans same (Path.same_comm .. ▸ again))
        (orderly.apart q onStack p finished)
    · rw [if_neg known]
      cases call.session.beginImport path with
      | error told => simp
      | ok entered =>
        refine ⟨?_, nofun⟩
        rintro ⟨site, after, failed⟩
        obtain ⟨ended, run⟩ := finishingImport_eq_ok (t.readInto (t.importer depth) path)
        dsimp only at failed
        rw [run] at failed
        cases failed

theorem importer_known (found : t.importPath? call.session target.text = some path)
    (known : ∃ q ∈ call.session.imported, q.same path) :
    t.importer (depth + 1) target call = .ok () call := by
  have read : call.session.wasImported path := List.any_eq_true.2 known
  rw [importer_succ]
  unfold Parse.ofUpdate importBy
  rw [found]
  dsimp only
  rw [if_pos read]

/-! ### Compilations -/

/-- Where there are no files, none is read. -/
theorem opened_of_empty {files : List Path} (h : Opened {} ([], []) k files) : k = ([], []) := by
  have none : files = [] := by
    apply List.eq_nil_iff_forall_not_mem.2
    intro p member
    obtain ⟨place, contents, -, there⟩ := h.named p member
    have root : (place, FileNode.file contents) ∈ [(([] : List String), FileNode.directory)] := by
      obtain ⟨before, behind, split, -⟩ := List.lookup_eq_some_iff.1 there
      change _ ∈ ({} : FileTree).nodes
      rw [split]
      exact List.mem_append_right _ List.mem_cons_self
    simp at root
  obtain rfl := none
  exact Prod.ext h.stack (List.perm_nil.1 h.read)

theorem imports_parse_of_empty {source : SourceFile} {after : Session} (h : s.imports = ([], []))
    (run : ({} : FileTree).parse source s = .ok () after) : after.imports = ([], []) := by
  unfold parse parseSource at run
  cases lexed : Cursor.ofSource source with
  | error e =>
    rw [lexed] at run
    cases run
  | ok cursor =>
    rw [lexed] at run
    dsimp only at run
    generalize begins : ParseState.mk s cursor = start at run
    have empty : start.session.imports = ([], []) := begins ▸ h
    have orderly : Orderly {} start.session.imports := by
      rw [empty]
      exact ⟨nofun, .nil, nofun⟩
    have told := (recounts_file (importLimit {}) orderly).opened
    cases result : Parse.file (({} : FileTree).importer (importLimit {})) start with
    | error failure ended =>
      rw [result] at run
      cases run
    | ok u ended =>
      rw [result] at run
      cases run
      rw [result, empty] at told
      exact opened_of_empty told

theorem imports_of_prepared {o : Options} (h : Session.prepared o = .ok s) : s.imports = ([], []) := by
  rw [Session.prepared] at h
  exact imports_parse_of_empty rfl (Session.ofUpdated_eq_ok h)

/-- What is to be said about imports when a file is read into a session that has read nothing. -/
structure ReadsOnce (t : FileTree) (file : Path) (start : ParseState) : Prop where
  /-- No file is opened twice. -/
  once : ∀ depth, Path.Distinct (file :: t.opened depth start)
  /-- The files that have been opened have been read in the end. -/
  read : ∀ depth, ∃ read, read.Perm (t.opened depth start) ∧
    (finalState (Parse.file (t.importer depth) start)).session.imports = ([file], read)
  /-- From no moment on does it matter what the files contain that have been opened before. -/
  closed : ∀ depth, ∀ m ∈ t.moments depth start, ∀ read : Path → Except FileError String,
    (∀ path, Path.Apart [path] (m.session.importStack ++ m.session.imported) →
      read path = t.readText path) →
    ∀ limit cursor, Parse.file (t.importerReading read limit) ⟨m.session, cursor⟩ =
      Parse.file (t.importer limit) ⟨m.session, cursor⟩
  /-- The files being read are different ones, and none of them has been read. -/
  orderly : ∀ depth, ∀ m ∈ t.moments depth start,
    Path.Distinct m.session.importStack ∧ Path.Apart m.session.importStack m.session.imported
  /-- An import tells a cycle exactly if it is of a file being read. -/
  circular : ∀ depth v, .inFront v ∈ t.moments depth start →
    ∀ target call, importAt? v = some (target, call) → ∀ limit cycle,
      (∃ site after, t.importer (limit + 1) target call =
          .error (.semantic ⟨.circularImport cycle, site⟩) after) ↔
        ∃ path, t.importPath? call.session target.text = some path ∧
          (∃ q ∈ call.session.importStack, q.same path) ∧ cycle = call.session.cycleText path
  /-- An import of a file that has been read does nothing. -/
  known : ∀ limit target (call : ParseState) path,
    t.importPath? call.session target.text = some path →
    (∃ q ∈ call.session.imported, q.same path) → t.importer (limit + 1) target call = .ok () call
  /-- There are no more imports of files than there are files. -/
  finite : ∀ depth, (t.opened depth start).length ≤ t.nodes.length
  /-- However deep imports may be inside one another, they are not deeper than the limit. -/
  ends : ∀ depth, t.importLimit ≤ depth →
    Parse.file (t.importer depth) start = Parse.file (t.importer t.importLimit) start

theorem readsOnce {file : Path} (h : start.session.imports = ([file], [])) :
    ReadsOnce t file start := by
  have orderly : Orderly t start.session.imports := by
    rw [h]
    exact ⟨nofun, List.pairwise_singleton _ _, fun _ _ => nofun⟩
  have told (depth : Nat) := recounts_file depth orderly
  exact {
    once := fun depth => by
      have opened := (told depth).opened
      rw [h] at opened
      refine Path.distinct_cons.2 ⟨Path.Apart.symm fun p member q this => ?_, opened.once⟩
      exact opened.fresh p member q (List.mem_append_left _ this)
    read := fun depth => by
      have opened := (told depth).opened
      rw [h] at opened
      refine ⟨(finalState (Parse.file (t.importer depth) start)).session.imported, ?_,
        Prod.ext opened.stack rfl⟩
      have read := opened.read
      rwa [List.append_nil] at read
    closed := fun depth m member read agree limit cursor => by
      have inOrder : Orderly t (ParseState.mk m.session cursor).session.imports :=
        (told depth).orderly m member
      exact (file_reading inOrder agree limit).symm
    orderly := fun depth m member =>
      have inOrder := (told depth).orderly m member
      ⟨inOrder.distinct, inOrder.apart⟩
    circular := fun depth v member target call found limit cycle =>
      importer_circular (imports_of_importAt? found ▸ (told depth).orderly _ member)
    known := fun limit target call path => importer_known
    finite := fun depth => length_le_of_names (told depth).opened.once (told depth).opened.named
    ends := fun depth => by
      have stack : start.session.importStack = [file] := congrArg Prod.fst h
      exact file_limit orderly (by simp [stack]) }

theorem compileFile_eq (t : FileTree) {o : Options} {path found : Path} {contents : String}
    {s entered : Session} (there : t.canonical path = .ok found)
    (readable : t.readText found = .ok contents) (prepared : Session.prepared o = .ok s)
    (begun : s.beginImport found = .ok entered) : t.compileFile o path =
      entered.finishAfter (finishingImport (t.parse { name := found.text, contents })) := by
  simp only [compileFile, there, readable, prepared]
  unfold Outcome.ofPrepared
  simp only [begun]

/-- When a file is compiled, with imports in any graph, every file is read once, and no file is inside
itself. -/
theorem compileFile_reads_once (t : FileTree) (o : Options) (path : Path) {found : Path}
    {contents : String} {s : Session} {cursor : Cursor} (there : t.canonical path = .ok found)
    (readable : t.readText found = .ok contents) (prepared : Session.prepared o = .ok s)
    (lexed : Cursor.ofSource { name := found.text, contents } = .ok cursor) :
    let start : ParseState := { session := { s with importStack := [found] }, cursor }
    ReadsOnce t found start ∧ ∀ depth, t.importLimit ≤ depth →
      t.compileFile o path = start.session.finishAfter
        (finishingImport (parseSource (t.importer depth) { name := found.text, contents })) := by
  intro start
  obtain ⟨stack, read⟩ : s.importStack = [] ∧ s.imported = [] :=
    Prod.mk.injEq .. ▸ imports_of_prepared prepared
  have fresh : start.session.imports = ([found], []) := Prod.ext rfl read
  have once : ReadsOnce t found start := readsOnce fresh
  refine ⟨once, fun depth enough => ?_⟩
  have begun : s.beginImport found = .ok start.session := by
    unfold Session.beginImport
    rw [stack]
    rfl
  have same : parseSource (t.importer depth) { name := found.text, contents } start.session =
      t.parse { name := found.text, contents } start.session := by
    unfold parse parseSource
    rw [lexed]
    dsimp only
    rw [once.ends depth enough]
  rw [t.compileFile_eq there readable prepared begun]
  unfold Session.finishAfter finishingImport
  rw [same]

end FileTree

/-- Three files: the first one imports the others, the second one imports the third and the first, and
the third one imports itself. -/
def Sample.entangled : FileTree :=
  ((({} : FileTree).addFile ["main.rdl"] "@import \"a.rdl\"; @import \"b.rdl\";".toUTF8).addFile
    ["a.rdl"] "@import \"b.rdl\"; @import \"main.rdl\";".toUTF8).addFile
    ["b.rdl"] "@import \"b.rdl\";".toUTF8

set_option maxRecDepth 10000 in
theorem FileTree.compileFile_reads_once_entangled : ∃ contents s cursor,
    Sample.entangled.canonical ⟨"main.rdl"⟩ = .ok ⟨"/main.rdl"⟩ ∧
      Sample.entangled.readText ⟨"/main.rdl"⟩ = .ok contents ∧ Session.prepared {} = .ok s ∧
      Cursor.ofSource { name := "/main.rdl", contents } = .ok cursor ∧
      ReadsOnce Sample.entangled ⟨"/main.rdl"⟩
        { session := { s with importStack := [⟨"/main.rdl"⟩] }, cursor } := by
  have there : Sample.entangled.canonical ⟨"main.rdl"⟩ = .ok ⟨"/main.rdl"⟩ := by decide +kernel
  have readable : Sample.entangled.readText ⟨"/main.rdl"⟩ =
      .ok "@import \"a.rdl\"; @import \"b.rdl\";" := by decide +kernel
  have chars : preludeSource.contents.toList = _ := String.toList_ofList
  have ready : (Session.prepared {}).toBool = true := by
    rw [Session.prepared, parse, parseSource_of_lex (congrArg (Lexeme.lexFrom preludeSource 0) chars)]
    decide +kernel
  have lexes : (Cursor.ofSource
      { name := "/main.rdl", contents := "@import \"a.rdl\"; @import \"b.rdl\";" }).toBool = true := by
    decide +kernel
  cases prepared : Session.prepared {} with
  | error failure =>
    rw [prepared] at ready
    cases ready
  | ok s =>
    cases lexed : Cursor.ofSource
        { name := "/main.rdl", contents := "@import \"a.rdl\"; @import \"b.rdl\";" } with
    | error e =>
      rw [lexed] at lexes
      cases lexes
    | ok cursor =>
      have once := compileFile_reads_once Sample.entangled {} ⟨"main.rdl"⟩ there readable prepared lexed
      exact ⟨_, s, cursor, there, readable, rfl, lexed, once.1⟩

end Rsrc
