import Rsrc.Proofs.Tame

/-!
# Values depend on the scopes alone

What an expression is worth for a label, and what a resource or an element of a list starts with,
depends on nothing in a session but its scopes. Where all routines are built in, the scopes are the
same afterwards. So in given scopes each such update has one answer, whenever it is made (`Settled`).
-/

namespace Rsrc

namespace Update

variable {α β : Type} {scopes : Scopes} {u : Update α} {f : α → Update β}

/-- In any session with the scopes, the update gives the answer and leaves the scopes as they are. -/
def Yields (scopes : Scopes) (u : Update α) (a : Except Failure α) : Prop := Gives scopes u a scopes

/-- In the scopes, the update has one answer, and it leaves them as they are. -/
def Settled (scopes : Scopes) (u : Update α) : Prop := ∃ a, Yields scopes u a

theorem Yields.pure (a : α) : Yields scopes (Pure.pure a) (.ok a) := fun _ same => ⟨rfl, same⟩

theorem Yields.bind {a : Except Failure α} {b : α → Except Failure β} (first : Yields scopes u a)
    (second : ∀ a, Yields scopes (f a) (b a)) : Yields scopes (u >>= f) (a >>= b) := by
  cases a with
  | ok a => exact Gives.bind first (second a)
  | error e => exact Gives.bind_error first

theorem Yields.foldlM {g : β → α → Update β} {b : β → α → Except Failure β}
    {items : List α} (each : ∀ a ∈ items, ∀ r, Yields scopes (g r a) (b r a)) (start : β) :
    Yields scopes (items.foldlM g start) (items.foldlM b start) := by
  induction items generalizing start with
  | nil => exact .pure start
  | cons a items ih =>
    rw [List.foldlM_cons, List.foldlM_cons]
    exact (each a List.mem_cons_self start).bind fun r =>
      ih (fun a' member => each a' (List.mem_cons_of_mem _ member)) r

/-- The answer in a session is the answer wherever the scopes are the same. -/
theorem Settled.yields {s : Session} (h : Settled s.scopes u) : Yields s.scopes u (answer (u s)) := by
  obtain ⟨a, run⟩ := h
  rw [(run s rfl).1]
  exact run

/-- Where all routines are built in, an update within the scopes keeps the frames and adds none. -/
theorem Scoped.settled (h : Scoped scopes.depth u) (plain : scopes.Plain) : Settled scopes u := by
  obtain ⟨a, scopes', run⟩ := h.blind scopes
  refine ⟨a, fun s same => ⟨(run s same).1, ?_⟩⟩
  subst same
  have some : 1 ≤ s.scopes.depth := List.length_pos_iff.2 plain.rooted
  have inside := (h.inside s rfl).final (.refl plain)
  exact inside.scopes_eq ((h.level s.scopes.depth some).final rfl)

end Update

end Rsrc
