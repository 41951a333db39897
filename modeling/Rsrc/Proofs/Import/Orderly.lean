import Mathlib.Data.List.Perm.Subperm
import Rsrc.Project

/-!
# Files being read and files read

While a file of a project is read, the files being read are all different, and none of them has been read
before (`Orderly`). `Opened` tells what reading does to these two lists: it adds the files that it opens to
those that have been read, each of them once. As no file is inside itself, imports are never deeper inside
one another than there are files (`Orderly.length_le`), and a cycle has each of its files once
(`Session.beginImport_eq_error`).
-/

namespace Rsrc

/-! ### Paths -/

theorem Path.same_iff {p q : Path} : p.same q = true ↔ p.components = q.components := by
  simp [Path.same]

theorem Path.same_refl (p : Path) : p.same p = true := Path.same_iff.2 rfl

theorem Path.same_comm (p q : Path) : p.same q = q.same p := by
  rw [Bool.eq_iff_iff, Path.same_iff, Path.same_iff, eq_comm]

theorem Path.same_trans {p q r : Path} (first : p.same q = true) (second : q.same r = true) :
    p.same r = true :=
  Path.same_iff.2 ((Path.same_iff.1 first).trans (Path.same_iff.1 second))

/-- None of the paths is the same as one of the others. -/
def Path.Apart (ps qs : List Path) : Prop := ∀ p ∈ ps, ∀ q ∈ qs, ¬ p.same q

/-- No path is there twice. -/
def Path.Distinct (ps : List Path) : Prop := ps.Pairwise fun p q => ¬ p.same q

namespace Path

theorem Apart.symm {ps qs : List Path} (h : Apart ps qs) : Apart qs ps := by
  intro q there p here same
  exact h p here q there (by rwa [same_comm])

theorem Distinct.nodup {ps : List Path} (h : Distinct ps) : ps.Nodup := by
  refine List.Pairwise.imp (fun {p q} differs equal => ?_) h
  exact differs (equal ▸ same_refl p)

theorem distinct_append {ps qs : List Path} :
    Distinct (ps ++ qs) ↔ Distinct ps ∧ Distinct qs ∧ Apart ps qs := List.pairwise_append

theorem distinct_cons {p : Path} {ps : List Path} :
    Distinct (p :: ps) ↔ Apart [p] ps ∧ Distinct ps := by
  rw [Distinct, List.pairwise_cons]
  simp [Apart, Distinct]

end Path

/-! ### What reading does to imports -/

/-- The path is that of a file, as it is named when it is found. -/
def FileTree.Names (t : FileTree) (p : Path) : Prop :=
  ∃ place contents, p = FileTree.absolute place ∧ t.node? place = some (.file contents)

/-- There are not more different files than there are nodes. -/
theorem FileTree.length_le_of_names {t : FileTree} {ps : List Path} (distinct : Path.Distinct ps)
    (files : ∀ p ∈ ps, t.Names p) : ps.length ≤ t.nodes.length := by
  have known : ps ⊆ t.nodes.map fun node => absolute node.1 := by
    intro p member
    obtain ⟨place, contents, rfl, found⟩ := files p member
    obtain ⟨before, behind, split, -⟩ := List.lookup_eq_some_iff.1 found
    refine List.mem_map.2 ⟨(place, .file contents), ?_, rfl⟩
    rw [split]
    exact List.mem_append_right _ List.mem_cons_self
  have fewer := (List.subperm_of_subset distinct.nodup known).length_le
  rwa [List.length_map] at fewer

/-- The files being read are different ones, and none of them has been read before. All but the
outermost are imported ones. -/
structure Orderly (t : FileTree) (k : List Path × List Path) : Prop where
  files : ∀ p ∈ k.1.dropLast, t.Names p
  distinct : Path.Distinct k.1
  apart : Path.Apart k.1 k.2

/-- Reading goes from the one to the other while it opens files: they are new and different ones, and
they are what is added to the files that have been read. -/
structure Opened (t : FileTree) (k k' : List Path × List Path) (files : List Path) : Prop where
  stack : k'.1 = k.1
  named : ∀ p ∈ files, t.Names p
  fresh : Path.Apart files (k.1 ++ k.2)
  once : Path.Distinct files
  read : k'.2.Perm (files ++ k.2)

variable {t : FileTree} {k j k' : List Path × List Path} {files files' : List Path} {path : Path}

namespace Opened

theorem refl (t : FileTree) (k : List Path × List Path) : Opened t k k [] :=
  ⟨rfl, nofun, nofun, .nil, .refl _⟩

theorem trans (first : Opened t k j files) (second : Opened t j k' files') :
    Opened t k k' (files ++ files') where
  stack := second.stack.trans first.stack
  named p member := (List.mem_append.1 member).elim (first.named p) (second.named p)
  fresh p member q old := by
    rcases List.mem_append.1 member with early | late
    · exact first.fresh p early q old
    · apply second.fresh p late q
      rw [first.stack]
      rcases List.mem_append.1 old with onStack | finished
      · exact List.mem_append_left _ onStack
      · exact List.mem_append_right _ (first.read.mem_iff.2 (List.mem_append_right _ finished))
  once := by
    refine Path.distinct_append.2 ⟨first.once, second.once, Path.Apart.symm ?_⟩
    -- what has been opened before has been read by now
    intro p late q early
    apply second.fresh p late q
    exact List.mem_append_right _ (first.read.mem_iff.2 (List.mem_append_left _ early))
  read := calc
    k'.2.Perm (files' ++ j.2) := second.read
    _ |>.Perm (files' ++ (files ++ k.2)) := first.read.append_left files'
    _ |>.Perm (files ++ files' ++ k.2) := by
      rw [← List.append_assoc]
      exact List.perm_append_comm.append_right k.2

theorem orderly (h : Opened t k k' files) (before : Orderly t k) : Orderly t k' where
  files := h.stack ▸ before.files
  distinct := h.stack ▸ before.distinct
  apart p here q there same := by
    rw [h.stack] at here
    rcases List.mem_append.1 (h.read.mem_iff.1 there) with new | old
    · exact h.fresh q new p (List.mem_append_left _ here) (by rwa [Path.same_comm])
    · exact before.apart p here q old same

/-- A whole file: it is opened, others are opened inside, and then it has been read. -/
theorem file (named : t.Names path) (fresh : Path.Apart [path] (k.1 ++ k.2)) {read : List Path}
    (inside : Opened t (path :: k.1, k.2) (path :: k.1, read) files) :
    Opened t k (k.1, path :: read) (path :: files) where
  stack := rfl
  named := by
    intro p member
    rcases List.mem_cons.1 member with rfl | inner
    · exact named
    · exact inside.named p inner
  fresh p member q old := by
    rcases List.mem_cons.1 member with rfl | inner
    · exact fresh p List.mem_cons_self q old
    · exact inside.fresh p inner q (List.mem_cons_of_mem _ old)
  once := by
    refine Path.distinct_cons.2 ⟨Path.Apart.symm ?_, inside.once⟩
    intro p inner q member
    obtain rfl := List.mem_singleton.1 member
    exact inside.fresh p inner q List.mem_cons_self
  read := inside.read.cons path

end Opened

namespace Orderly

theorem length_le (h : Orderly t k) : k.1.length ≤ t.nodes.length + 1 := by
  have distinct : Path.Distinct k.1.dropLast := h.distinct.sublist (List.dropLast_sublist k.1)
  have fewer := FileTree.length_le_of_names distinct h.files
  rw [List.length_dropLast] at fewer
  omega

/-- Inside a file that is opened. -/
theorem push (h : Orderly t k) (named : t.Names path) (fresh : Path.Apart [path] (k.1 ++ k.2)) :
    Orderly t (path :: k.1, k.2) where
  files p member := by
    by_cases outermost : k.1 = []
    · simp [outermost] at member
    · rw [List.dropLast_cons_of_ne_nil outermost] at member
      rcases List.mem_cons.1 member with rfl | outer
      · exact named
      · exact h.files p outer
  distinct := by
    refine Path.distinct_cons.2 ⟨fun p member q onStack => ?_, h.distinct⟩
    exact fresh p member q (List.mem_append_left _ onStack)
  apart p member q finished := by
    rcases List.mem_cons.1 member with rfl | outer
    · exact fresh p List.mem_cons_self q (List.mem_append_right _ finished)
    · exact h.apart p outer q finished

end Orderly

/-! ### Cycles -/

/-- The files from the first one on that is the same as the path, the outermost first. In a stack of
different files there is only one. -/
theorem Path.cycle_eq {stack : List Path} (distinct : Path.Distinct stack) {q : Path}
    (member : q ∈ stack) (same : q.same path) :
    (stack.filter (·.same path)).take 1 ++ (stack.takeWhile (!·.same path)).reverse =
      stack.reverse.dropWhile (!·.same path) := by
  obtain ⟨inner, outer, rfl⟩ := List.append_of_mem member
  obtain ⟨-, below, above⟩ := Path.distinct_append.1 distinct
  obtain ⟨under, -⟩ := Path.distinct_cons.1 below
  have other {p : Path} (different : ¬ p.same q) : p.same path = false := by
    rw [Bool.eq_false_iff]
    intro again
    exact different (Path.same_trans again (by rwa [Path.same_comm]))
  have inside : ∀ p ∈ inner, p.same path = false := fun p here =>
    other (above p here q List.mem_cons_self)
  have outside : ∀ p ∈ outer, p.same path = false := fun p there =>
    other (Path.Apart.symm under p there q List.mem_cons_self)
  have first : (inner ++ q :: outer).filter (·.same path) = q :: outer.filter (·.same path) := by
    have none : inner.filter (·.same path) = [] := List.filter_eq_nil_iff.2 (by simpa using inside)
    rw [List.filter_append, none, List.nil_append, List.filter_cons, if_pos same]
  have later : (inner ++ q :: outer).takeWhile (!·.same path) = inner := by
    rw [List.takeWhile_append_of_pos (by simpa using inside)]
    simp [same]
  have chain : (inner ++ q :: outer).reverse.dropWhile (!·.same path) = q :: inner.reverse := by
    rw [List.reverse_append, List.reverse_cons, List.append_assoc,
      List.dropWhile_append_of_pos (by simpa using outside)]
    simp [same]
  rw [first, later, chain]
  rfl

namespace Session

/-- The text for a cycle: the files being read from the path on, and the path. -/
def cycleText (s : Session) (path : Path) : String :=
  " -> ".intercalate ((s.importStack.reverse.dropWhile (!·.same path) ++ [path]).map Path.shortName)

theorem beginImport_eq_error {s : Session} (distinct : Path.Distinct s.importStack) {cycle : String} :
    s.beginImport path = .error cycle ↔
      (∃ q ∈ s.importStack, q.same path) ∧ cycle = s.cycleText path := by
  unfold beginImport
  by_cases inside : ∃ q ∈ s.importStack, q.same path
  · obtain ⟨q, member, same⟩ := inside
    rw [if_pos (List.any_eq_true.2 ⟨q, member, same⟩)]
    dsimp only
    rw [Path.cycle_eq distinct member same, ← cycleText, Except.error.injEq, eq_comm]
    exact ⟨fun text => ⟨⟨q, member, same⟩, text⟩, And.right⟩
  · rw [if_neg fun there => inside (List.any_eq_true.1 there)]
    exact ⟨nofun, fun closed => absurd closed.1 inside⟩

example : cycleText { importStack := [⟨"/b.rdl"⟩, ⟨"/a.rdl"⟩, ⟨"/main.rdl"⟩] } ⟨"/a.rdl"⟩ =
    "a.rdl -> b.rdl -> a.rdl" := by decide +kernel

end Session

end Rsrc
