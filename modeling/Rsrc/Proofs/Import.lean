import Rsrc.Proofs.Levels

/-!
# What an import leaves of the parsing state

A file is imported in the midst of another one. Behind the import the current module and the files
being read are what they were before. Only a grammatical error, which stops a file at once, lets
something through: the decorators that wait where the file stops stay behind, and so does the scope of a
resource block that is not finished (`FileTree.import_restores`).
-/

namespace Rsrc

namespace Session

/-- A file has been stopped by a grammatical error. -/
def Torn (s : Session) : Prop := ∃ e, Failure.grammar e ∈ s.failures

/-- The session in front of a construct, in a module and a file: it has `n` frames, unless a file has
been stopped. -/
structure Poised (n : Nat) (m : Option Nat) (stack : List Path) (s : Session) : Prop where
  module : s.currentModule = m
  stack : s.importStack = stack
  level : s.Torn ∨ s.scopes.depth = n

/-- The session where a construct has failed. Frames that were made for the construct are left if it
can be recovered from. -/
structure Halted (n : Nat) (m : Option Nat) (stack : List Path) (failure : Failure) (s : Session) :
    Prop where
  module : s.currentModule = m
  stack : s.importStack = stack
  level : s.Torn ∨ (∃ e, failure = .grammar e) ∨ (failure.isRecoverable = true ∧ n ≤ s.scopes.depth) ∨
    s.scopes.depth = n

theorem Alike.place {s t : Session} (h : s.Alike t) : t.currentModule = s.currentModule ∧
    t.importStack = s.importStack ∧ t.failures = s.failures := by
  rw [Alike] at h
  rw [← h]
  exact ⟨rfl, rfl, rfl⟩

theorem Torn.grows {s t : Session} (torn : s.Torn) (more : s.failures <+: t.failures) : t.Torn := by
  obtain ⟨e, member⟩ := torn
  exact ⟨e, more.subset member⟩

variable {n : Nat} {m m' : Option Nat} {stack : List Path} {s t : Session} {failure : Failure}

theorem Poised.halted (poised : s.Poised n m stack) : s.Halted n m stack failure :=
  ⟨poised.module, poised.stack, poised.level.imp_right fun depth => .inr (.inr depth)⟩

theorem Poised.record (poised : s.Poised n m stack) : (s.record failure).Poised n m stack :=
  ⟨poised.module, poised.stack, poised.level.imp_left fun torn => torn.grows (List.prefix_append ..)⟩

/-- Recovery drops the frames that a construct has left. -/
theorem Halted.recovers (some : 1 ≤ n) (before : s.Poised n m stack) (halted : t.Halted n m stack failure)
    (recoverable : failure.isRecoverable = true) (more : s.failures <+: t.failures) :
    Poised n m stack
      { t.record failure with scopes := t.scopes.truncate s.scopes.depth, pending := [] } := by
  refine ⟨halted.module, halted.stack, ?_⟩
  have recorded : t.failures <+: (t.record failure).failures := List.prefix_append ..
  rcases before.level with torn | depth
  · exact .inl (torn.grows (more.trans recorded))
  have dropped (enough : n ≤ t.scopes.depth) : (t.scopes.truncate s.scopes.depth).depth = n := by
    rw [depth]
    exact Scopes.depth_truncate some enough
  rcases halted.level with torn | ⟨e, rfl⟩ | ⟨-, enough⟩ | same
  · exact .inl (torn.grows recorded)
  · cases recoverable
  · exact .inr (dropped enough)
  · exact .inr (dropped same.ge)

/-- A failure that stops a file is of the grammar, or the file has not been begun. -/
theorem Halted.endImport {path : Path} (halted : s.Halted n m (path :: stack) failure)
    (fatal : failure.isRecoverable = false) : (s.endImport.record failure).Poised n m stack := by
  obtain ⟨imported, ended⟩ := s.endImport_eq
  rw [ended]
  refine ⟨halted.module, congrArg List.tail halted.stack, ?_⟩
  have recorded : s.failures <+: s.failures ++ [failure] := List.prefix_append ..
  rcases halted.level with torn | ⟨e, rfl⟩ | ⟨recoverable, -⟩ | same
  · exact .inl (torn.grows recorded)
  · exact .inl ⟨e, List.mem_append_right _ List.mem_cons_self⟩
  · rw [fatal] at recoverable
    cases recoverable
  · exact .inr same

theorem stable_depth (some : 1 ≤ n) : Session.Stable 0 fun s => s.scopes.depth = n where
  tame tame := tame.level n some
  pending kept _ := kept

/-- Tame updates keep the frames, and all else that matters here is left alone by them. -/
theorem stable_poised (some : 1 ≤ n) : Session.Stable 0 (Poised n m stack) where
  tame {α u} tame := by
    refine .of_final fun s poised => ?_
    have same : s.Alike (finalState (u s)) := (tame.alike s).final rfl
    obtain ⟨module, files, failures⟩ := same.place
    refine ⟨module.trans poised.module, files.trans poised.stack, ?_⟩
    exact poised.level.imp (fun torn => torn.grows (failures ▸ List.prefix_refl _)) fun depth =>
      (tame.level n some).final depth
  pending poised _ := ⟨poised.module, poised.stack, poised.level⟩

end Session

namespace Parse

theorem levels_trivial : Levels fun _ _ => True where
  pass _ _ := id
  push _ _ := id
  session held _ _ := held
  edge _ _ _ := trivial
  waits _ _ _ _ := trivial
  settled := id
  skipped _ := id
  failed _ := trivial

/-- A resource block has a scope of its own, which is gone behind it, but not if it fails. -/
theorem runs_depth_resourceBlock {n : Nat} (some : 1 ≤ n) (d : TypeDef) (container : Option String) :
    Runs (fun st : ParseState => st.session.scopes.depth = n) (resourceBlock d container)
      (fun _ st => st.session.scopes.depth = n) fun _ st => n ≤ st.session.scopes.depth := by
  have stable := Session.stable_depth some
  have deeper := Session.stable_depth (n := n + 1) (Nat.le_add_left ..)
  have fills (scope : ScopeId) (here : scope.index = n) :
      Fills (fun s => s.scopes.depth = n + 1) (fun _ s => s.scopes.depth = n + 1)
        (fun s => s.scopes.depth = n) d scope (fun _ => True) fun _ => True := by
    refine .of_tame deeper.tame (Nat.zero_le _) fun {_ s r} _ _ depth => ?_
    obtain ⟨resources, stored⟩ := Session.store_eq r
    rw [stored]
    change (s.scopes.release scope).depth = n
    rw [Scopes.release, here]
    exact Scopes.depth_truncate some (by omega)
  rw [resourceBlock_eq_head]
  refine Runs.bind (Runs.mono stable.blockHead (fun _ => id) (fun _ _ kept => kept.1)
    fun _ _ depth => Nat.le_of_eq depth.symm) fun head => ?_
  split
  · exact fun _ => id
  · rename_i kind keyword arguments
    refine Runs.bind (Runs.mono (Upholds.update (stable.tame (kind.tame_plan d container keyword arguments)))
      (fun _ => id) (fun _ _ kept => kept.1) fun _ _ depth => Nat.le_of_eq depth.symm) fun plan => ?_
    have opened : Runs (fun st : ParseState => st.session.scopes.depth = n) (ofUpdate plan.openScope)
        (fun scope st => scope.index = n ∧ st.session.scopes.depth = n + 1)
        fun _ st => n ≤ st.session.scopes.depth := by
      refine runs_ofUpdate fun _ s depth => ⟨depth, ?_⟩
      change s.scopes.depth = n at depth
      rw [Scopes.depth_define, Scopes.depth_define, Scopes.depth_push, depth]
    refine opened.bind ?_
    rintro scope st ⟨here, depth⟩
    exact Runs.mono (deeper.blockBody (fills scope here) trivial keyword) (fun _ => id)
      (fun _ _ => id) (fun _ _ depth => Nat.le_of_succ_le depth.ge) st depth

/-- The state around constructs lasts, whatever is read and imported. -/
theorem lasting_poised {n : Nat} (some : 1 ≤ n) : Lasting (Session.Poised n) (Session.Halted n) where
  stable _ _ := Session.stable_poised some
  fails := Session.Poised.halted
  recovers before halted recoverable more := halted.recovers some before recoverable more
  record _ := Session.Poised.record
  settings _ _ _ _ poised := ⟨poised.module, poised.stack, poised.level⟩
  typeBlock _ _ := Runs.mono (Upholds.typeBlock (Session.stable_poised some) fun _ _ poised =>
    ⟨poised.module, poised.stack, poised.level⟩) (fun _ => id) (fun _ _ => id) fun _ _ => Session.Poised.halted
  resourceBlock m stack d container := by
    rintro st ⟨poised, -⟩
    -- the frames are counted only as long as no file has been stopped
    rcases poised.level with torn | depth
    · have ran := Upholds.resourceBlock (T := fun s => s.currentModule = m ∧ s.importStack = stack ∧ s.Torn)
        (fun s t same kept => ?_) (fun _ => id) d container st ⟨poised.module, poised.stack, torn⟩
      · cases run : Parse.resourceBlock d container st with
        | ok u t =>
          rw [run] at ran
          exact ⟨ran.1.1, ran.1.2.1, .inl ran.1.2.2⟩
        | error failure t =>
          rw [run] at ran
          exact ⟨ran.1, ran.2.1, .inl ran.2.2⟩
      · obtain ⟨module, files, failures⟩ := same.place
        exact ⟨module.trans kept.1, files.trans kept.2.1,
          kept.2.2.grows (failures ▸ List.prefix_refl _)⟩
    · have place := Upholds.resourceBlock (T := fun s => s.currentModule = m ∧ s.importStack = stack)
        (fun s t same kept => ⟨same.place.1.trans kept.1, same.place.2.1.trans kept.2⟩)
        (fun _ => id) d container
      have failed := levels_trivial.resourceBlock (n := 0) d container
      refine Runs.mono (Runs.and place (Runs.and (runs_depth_resourceBlock some d container) failed))
        (fun _ => id) (fun _ _ kept => ⟨kept.1.1.1, kept.1.1.2, .inr kept.2.1⟩)
        (fun failure t kept => ⟨kept.1.1, kept.1.2, ?_⟩) st ⟨⟨poised.module, poised.stack⟩, depth, trivial⟩
      rcases kept.2.2 with recoverable | grammar
      · exact .inr (.inr (.inl ⟨recoverable, kept.2.1⟩))
      · exact .inr (.inl grammar)
  enter poised entered := by
    rw [Session.enterModule?_eq_some entered]
    exact ⟨rfl, poised.stack, poised.level⟩
  leave before poised := ⟨before.module, poised.stack, poised.level⟩
  leaveFailed before halted := ⟨before.module, halted.stack, halted.level⟩
  beginImport _ _ poised begun := by
    rw [Session.beginImport_eq_ok begun]
    exact ⟨poised.module, congrArg _ poised.stack, poised.level⟩
  endImport {m stack s path} poised := by
    obtain ⟨imported, ended⟩ := s.endImport_eq
    rw [ended]
    exact ⟨poised.module, congrArg List.tail poised.stack, poised.level⟩
  stopImport := Session.Halted.endImport

end Parse

namespace FileTree

open Parse

/-- What stops an imported file is its grammar; other failures come before anything is read. -/
theorem readInto_eq_error {t : FileTree} {depth : Nat} {path : Path} {s s' : Session} {failure : Failure}
    (h : t.readInto (t.importer depth) path s = .error failure s') :
    s' = s ∨ ∃ e, failure = .grammar e := by
  rcases t.start?_cases path s with ⟨-, failure, run⟩ | ⟨cursor, -, run⟩
  · rw [run] at h
    cases h
    exact .inl rfl
  · rw [run] at h
    have stopped := levels_trivial.file (n := 0) (levels_trivial.importer t depth) ⟨s, cursor⟩ trivial
    cases result : Parse.file (t.importer depth) ⟨s, cursor⟩ with
    | ok u st =>
      rw [result] at h
      cases h
    | error e st =>
      rw [result] at h stopped
      cases h
      exact .inr stopped

/-- An import leaves all as it is, or it reads a file and finishes. -/
theorem importer_cases (t : FileTree) (depth : Nat) (target : Lexeme) (st : ParseState) :
    finalState (t.importer depth target st) = st ∨ ∃ n path entered,
      st.session.beginImport path = .ok entered ∧
        t.importer depth target st = ofUpdate (finishingImport (t.readInto (t.importer n) path))
          { st with session := entered.note .info s!"importing {path.text}" } := by
  cases depth with
  | zero => exact .inl rfl
  | succ n =>
    rw [importer_succ]
    unfold ofUpdate
    rcases t.importBy_cases target st.session with
      ⟨-, ⟨cause, run⟩ | run⟩ | ⟨path, entered, -, -, begun, -, run⟩
    · rw [run]
      exact .inl rfl
    · rw [run]
      exact .inl rfl
    · rw [run]
      exact .inr ⟨n, path, entered, begun, rfl⟩

theorem poised_importer (t : FileTree) (depth : Nat) (target : Lexeme) {st : ParseState} {n : Nat}
    {m : Option Nat} {stack : List Path} (some : 1 ≤ n) (poised : st.session.Poised n m stack) :
    (finalState (t.importer depth target st)).session.Poised n m stack := by
  rcases t.importer_cases depth target st with same | ⟨d, path, entered, -, run⟩
  · rw [same]
    exact poised
  · have ran := (lasting_poised some).importer t depth m stack target st poised
    rw [run] at ran ⊢
    unfold ofUpdate finishingImport at ran ⊢
    dsimp only at ran ⊢
    cases read : t.readInto (t.importer d) path (entered.note .info s!"importing {path.text}") with
    | ok u s =>
      rw [read] at ran
      exact ran.1
    | error failure s =>
      rw [read] at ran
      exact ran.1

/-- Decorators wait behind an import only if its file has been stopped by a grammatical error. -/
theorem settled_importer (t : FileTree) (depth : Nat) (target : Lexeme) (st : ParseState)
    (settled : st.session.pending = []) :
    (finalState (t.importer depth target st)).session.pending = [] ∨
      ∃ e, (finalState (t.importer depth target st)).session.failures.getLast? = some (.grammar e) := by
  rcases t.importer_cases depth target st with same | ⟨d, path, entered, begun, run⟩
  · rw [same]
    exact .inl settled
  · rw [run]
    unfold ofUpdate finishingImport
    dsimp only
    cases read : t.readInto (t.importer d) path (entered.note .info s!"importing {path.text}") with
    | ok u s =>
      obtain ⟨imported, ended⟩ := s.endImport_eq
      have waiting : s.pending = [] := pending_of_readInto read
      refine .inl ?_
      change s.endImport.pending = []
      rw [ended]
      exact waiting
    | error failure s =>
      obtain ⟨imported, ended⟩ := s.endImport_eq
      change (s.endImport.record failure).pending = [] ∨
        ∃ e, (s.endImport.record failure).failures.getLast? = some (.grammar e)
      rw [ended]
      rcases readInto_eq_error read with rfl | ⟨e, rfl⟩
      · refine .inl ?_
        rw [Session.beginImport_eq_ok begun]
        exact settled
      · exact .inr ⟨e, by simp [Session.record]⟩

/-- An import leaves the parsing state of the file that imports as it was, the decorators unless the
imported file is stopped by a grammatical error, and the number of frames unless that happens to any
file read meanwhile. -/
theorem import_restores (t : FileTree) (depth : Nat) (target : Lexeme) (st : ParseState)
    (settled : st.session.pending = []) (rooted : 1 ≤ st.session.scopes.depth) :
    ∃ after new, finalState (t.importer depth target st) = ⟨after, st.cursor⟩ ∧
      after.failures = st.session.failures ++ new ∧
      after.currentModule = st.session.currentModule ∧
      after.importStack = st.session.importStack ∧
      ((∀ e, new.getLast? ≠ some (.grammar e)) → after.pending = st.session.pending) ∧
      ((∀ e, Failure.grammar e ∉ new) → after.scopes.depth = st.session.scopes.depth) := by
  obtain ⟨u, natural, made⟩ := (t.natural_importer depth).exists_update target
  -- the failures of this import alone are those found from a session that has none
  let before : Setting := { failures := st.session.failures }
  let fresh : ParseState := { st with session := { st.session with failures := [] } }
  have whole : st.session = fresh.session.within before := by
    simp [fresh, before, Session.within]
  have alone : finalState (t.importer depth target fresh) = ⟨finalState (u fresh.session), st.cursor⟩ := by
    rw [made, ofUpdate]
    cases u fresh.session <;> rfl
  have same : finalState (t.importer depth target st) =
      ⟨(finalState (u fresh.session)).within before, st.cursor⟩ := by
    rw [made, ofUpdate, whole, natural]
    cases u fresh.session <;> rfl
  have start : fresh.session.Poised st.session.scopes.depth st.session.currentModule
      st.session.importStack := ⟨rfl, rfl, .inr rfl⟩
  have poised := t.poised_importer depth target rooted start
  have waiting := t.settled_importer depth target fresh settled
  rw [alone] at poised waiting
  refine ⟨_, (finalState (u fresh.session)).failures, same, rfl, poised.module, poised.stack,
    fun whole => ?_, fun whole => ?_⟩
  · rw [settled]
    refine waiting.resolve_right ?_
    rintro ⟨e, last⟩
    exact whole e last
  · refine poised.level.resolve_left ?_
    rintro ⟨e, member⟩
    exact whole e member

end FileTree

namespace Sample

/-- A file in the directory of the one that imports it. -/
def beside (contents : String) : FileTree := ({} : FileTree).addFile ["fleet.rdl"] contents.toUTF8

def importing : ParseState where
  session := { importStack := [⟨"/main.rdl"⟩] }
  cursor := { source := { name := "/main.rdl", contents := "" }, ahead := [] }

def imported : Lexeme where
  kind := .string
  text := "fleet.rdl"
  start := 8
  stop := 19
  source := importing.cursor.source

/-- A file with a declaration that fails inside a module, and with a decorator at its end. -/
def failingModule : FileTree :=
  beside "module Sea \x7b declare Ship \x7b new(#128) \x7b\x7d; \x7d; \x7d; @deprecated"

end Sample

namespace FileTree

theorem import_of_failing_module : ∃ after,
    finalState (Sample.failingModule.importer 1 Sample.imported Sample.importing) =
        ⟨after, Sample.importing.cursor⟩ ∧
      after.failures.length = 2 ∧ after.currentModule = none ∧ after.importStack = [⟨"/main.rdl"⟩] ∧
      after.pending = [] ∧ after.scopes.depth = Sample.importing.session.scopes.depth := by
  obtain ⟨after, new, ends, failures, module, stack, pending, depth⟩ :=
    import_restores Sample.failingModule 1 Sample.imported Sample.importing rfl (by decide)
  have recoverable : after.failures.map (·.isRecoverable) = [true, true] := by
    have same := congrArg (fun st : ParseState => st.session.failures.map (·.isRecoverable)) ends
    exact same.symm.trans (by decide +kernel)
  have known : ∀ failure ∈ new, failure.isRecoverable = true := by
    intro failure member
    have there : failure.isRecoverable ∈ after.failures.map (·.isRecoverable) :=
      List.mem_map_of_mem (failures ▸ List.mem_append_right _ member)
    rw [recoverable] at there
    simpa using there
  have whole (e : GrammarError) : Failure.grammar e ∉ new := fun member => by cases known _ member
  refine ⟨after, ends, ?_, module, stack, pending fun e last => ?_, depth whole⟩
  · simpa using congrArg List.length recoverable
  · exact whole e (List.mem_of_getLast? last)

/-- A decorator in front of a brace that belongs nowhere waits behind the import. -/
theorem import_of_stopped_file :
    (finalState ((Sample.beside "@deprecated \x7d").importer 1 Sample.imported
      Sample.importing)).session.pending.map (·.name) = ["deprecated"] := by
  decide +kernel

end FileTree

end Rsrc
