import Rsrc.Update

/-!
# What computations keep

Computations on a state that may fail are described by what holds of the state before and after.
`Runs P x Q E` is the general statement. Most statements have an invariant `I` in it (`Stays`), which
often also holds where the computation fails; `Keeps I x Q` is that case, where `Q` is what is known of
the result.
-/

namespace Rsrc

variable {ε σ α β : Type} {x : EStateM ε σ α} {f : α → EStateM ε σ β} {s : σ}

theorem bind_of_ok {t : σ} {a : α} (h : x s = .ok a t) : (x >>= f) s = f a t := by
  change EStateM.bind x f s = _
  rw [EStateM.bind, h]

theorem bind_of_error {t : σ} {e : ε} (h : x s = .error e t) : (x >>= f) s = .error e t := by
  change EStateM.bind x f s = _
  rw [EStateM.bind, h]

theorem get_bind {f : σ → EStateM ε σ α} : (get >>= f) s = f s s := rfl

theorem bind_congr_at {x' : EStateM ε σ α} {f' : α → EStateM ε σ β} (first : x s = x' s)
    (second : ∀ a t, x s = .ok a t → f a t = f' a t) : (x >>= f) s = (x' >>= f') s := by
  cases ran : x s with
  | ok a t => rw [bind_of_ok ran, bind_of_ok (first ▸ ran), second a t ran]
  | error e t => rw [bind_of_error ran, bind_of_error (first ▸ ran)]

/-- The state in which a run ends. -/
def finalState : EStateM.Result ε σ α → σ
  | .ok _ s => s
  | .error _ s => s

/-- Started in a state of `P`, the computation gives a result in `Q` or fails in `E`. -/
def Runs (P : σ → Prop) (x : EStateM ε σ α) (Q : α → σ → Prop) (E : ε → σ → Prop) : Prop :=
  ∀ s, P s → match x s with
    | .ok a t => Q a t
    | .error e t => E e t

namespace Runs

variable {P : σ → Prop} {Q : α → σ → Prop} {E : ε → σ → Prop} {x : EStateM ε σ α} {Q' : α → σ → Prop}

theorem of_ok {s t : σ} {a : α} (h : Runs P x Q E) (start : P s) (ran : x s = .ok a t) : Q a t := by
  have known := h s start
  rwa [ran] at known

theorem of_error {s t : σ} {e : ε} (h : Runs P x Q E) (start : P s) (ran : x s = .error e t) :
    E e t := by
  have known := h s start
  rwa [ran] at known

theorem bind {f : α → EStateM ε σ β} {R : β → σ → Prop} (first : Runs P x Q E)
    (second : ∀ a, Runs (Q a) (f a) R E) : Runs P (x >>= f) R E := by
  intro s start
  cases ran : x s with
  | ok a t =>
    rw [bind_of_ok ran]
    exact second a t (first.of_ok start ran)
  | error e t =>
    rw [bind_of_error ran]
    exact first.of_error start ran

theorem mono {P' : σ → Prop} {E' : ε → σ → Prop} (h : Runs P x Q E) (before : ∀ s, P' s → P s)
    (after : ∀ a s, Q a s → Q' a s) (failed : ∀ e s, E e s → E' e s) : Runs P' x Q' E' := by
  intro s start
  cases ran : x s with
  | ok a t => exact after a t (h.of_ok (before s start) ran)
  | error e t => exact failed e t (h.of_error (before s start) ran)

theorem pre {P' : σ → Prop} (h : Runs P x Q E) (before : ∀ s, P' s → P s) : Runs P' x Q E :=
  h.mono before (fun _ _ => id) fun _ _ => id

theorem post (h : Runs P x Q E) (after : ∀ a s, Q a s → Q' a s) : Runs P x Q' E :=
  h.mono (fun _ => id) after fun _ _ => id

/-- Two descriptions of one computation hold together. -/
theorem and {P' : σ → Prop} {Q' : α → σ → Prop} {E' : ε → σ → Prop} (first : Runs P x Q E)
    (second : Runs P' x Q' E') :
    Runs (fun s => P s ∧ P' s) x (fun a s => Q a s ∧ Q' a s) fun e s => E e s ∧ E' e s := by
  intro s start
  cases ran : x s with
  | ok a t => exact ⟨first.of_ok start.1 ran, second.of_ok start.2 ran⟩
  | error e t => exact ⟨first.of_error start.1 ran, second.of_error start.2 ran⟩

end Runs

/-- Started in a state of `I`, the computation ends in one with a result in `Q`, or it fails in `E`. -/
def Stays (I : σ → Prop) (E : ε → σ → Prop) (x : EStateM ε σ α)
    (Q : α → Prop := fun _ => True) : Prop :=
  Runs I x (fun a t => I t ∧ Q a) E

namespace Stays

variable {I : σ → Prop} {E : ε → σ → Prop} {Q : α → Prop} {R : β → Prop} {x : EStateM ε σ α}
  {f : α → EStateM ε σ β} {items : List α}

theorem pure {a : α} (h : Q a) : Stays I E (Pure.pure a : EStateM ε σ α) Q := fun _ kept => ⟨kept, h⟩

theorem throw (e : ε) : Stays I (fun _ => I) (MonadExcept.throw e : EStateM ε σ α) Q := fun _ kept => kept

theorem runs {Q' : β → σ → Prop} (first : Stays I E x Q)
    (second : ∀ a, Q a → Runs I (f a) Q' E) : Runs I (x >>= f) Q' E := by
  refine Runs.bind first ?_
  rintro a s ⟨kept, known⟩
  exact second a known s kept

theorem bind (first : Stays I E x Q) (second : ∀ a, Q a → Stays I E (f a) R) :
    Stays I E (x >>= f) R := first.runs second

/-- A first computation of whose result nothing has to be known. -/
theorem andThen (first : Stays I E x) (second : ∀ a, Stays I E (f a) R) : Stays I E (x >>= f) R :=
  first.bind fun a _ => second a

theorem mono {Q' : α → Prop} (h : Stays I E x Q) (weaker : ∀ a, Q a → Q' a) : Stays I E x Q' :=
  Runs.post h fun a _ ⟨kept, known⟩ => ⟨kept, weaker a known⟩

theorem trivial (h : Stays I E x Q) : Stays I E x :=
  h.mono fun _ _ => True.intro

theorem get : Stays I E (MonadState.get : EStateM ε σ σ) I := fun _ kept => ⟨kept, kept⟩

theorem modifyState {f : σ → σ} (h : ∀ s, I s → I (f s)) :
    Stays I E (modify f : EStateM ε σ PUnit) :=
  fun s kept => ⟨h s kept, True.intro⟩

theorem ite {c : Prop} [Decidable c] {y : EStateM ε σ α} (yes : c → Stays I E x Q)
    (no : ¬ c → Stays I E y Q) : Stays I E (if c then x else y) Q := by
  split
  · exact yes ‹_›
  · exact no ‹_›

theorem foldlM {f : β → α → EStateM ε σ β} (step : ∀ a ∈ items, ∀ b, R b → Stays I E (f b a) R)
    {start : β} (h : R start) : Stays I E (items.foldlM f start) R := by
  induction items generalizing start with
  | nil => exact pure h
  | cons a items ih =>
    rw [List.foldlM_cons]
    refine (step a List.mem_cons_self start h).bind fun b known => ?_
    exact ih (fun a' member => step a' (List.mem_cons_of_mem _ member)) known

theorem mapM (each : ∀ a ∈ items, Stays I E (f a) R) :
    Stays I E (items.mapM f) fun results => ∀ b ∈ results, R b := by
  induction items with
  | nil => exact pure (by simp)
  | cons a items ih =>
    rw [List.mapM_cons]
    refine (each a List.mem_cons_self).bind fun b known => ?_
    refine (ih fun a' member => each a' (List.mem_cons_of_mem _ member)).bind fun rest others => ?_
    exact pure (by simpa using ⟨known, others⟩)

theorem final (h : Stays I (fun _ => I) x Q) {s : σ} (kept : I s) : I (finalState (x s)) := by
  cases ran : x s with
  | ok a t => exact (Runs.of_ok h kept ran).1
  | error e t => exact Runs.of_error h kept ran

theorem of_final (h : ∀ s, I s → I (finalState (x s))) : Stays I (fun _ => I) x := by
  intro s kept
  have ran := h s kept
  cases run : x s with
  | ok a t =>
    rw [run] at ran
    exact ⟨ran, True.intro⟩
  | error e t =>
    rw [run] at ran
    exact ran

/-- What leaves every state of `I` as it is keeps `I`. -/
theorem of_unchanged (h : ∀ s, I s → Stays (· = s) (fun _ => (· = s)) x) : Stays I (fun _ => I) x :=
  of_final fun s kept => ((h s kept).final rfl).symm ▸ kept

end Stays

/-- The computation keeps `I`, and its result is in `Q` if it has one. -/
def Keeps (I : σ → Prop) (x : EStateM ε σ α) (Q : α → Prop := fun _ => True) : Prop :=
  Stays I (fun _ => I) x Q

end Rsrc
