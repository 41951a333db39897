import Rsrc.Proofs.Local

/-!
# Updates that depend on the scopes alone

An update is blind if it sees nothing of a session but the scopes: in given scopes it has one answer and
leaves one state of the scopes behind.
-/

namespace Rsrc

/-- What a run answers. -/
def answer {ε σ α : Type} : EStateM.Result ε σ α → Except ε α
  | .ok a _ => .ok a
  | .error e _ => .error e

namespace Update

variable {α β : Type} {scopes scopes' : Scopes} {u : Update α} {f : α → Update β}

/-- In any session with the scopes, the update gives the answer and leaves the other scopes. -/
def Gives (scopes : Scopes) (u : Update α) (a : Except Failure α) (scopes' : Scopes) : Prop :=
  ∀ s : Session, s.scopes = scopes → answer (u s) = a ∧ (finalState (u s)).scopes = scopes'

/-- The update depends on nothing but the scopes. -/
def Blind (u : Update α) : Prop := ∀ scopes, ∃ a scopes', Gives scopes u a scopes'

theorem Gives.bind {a : α} {b : Except Failure β} {scopes'' : Scopes}
    (first : Gives scopes u (.ok a) scopes') (second : Gives scopes' (f a) b scopes'') :
    Gives scopes (u >>= f) b scopes'' := by
  intro s same
  have before := first s same
  cases ran : u s with
  | ok a' t =>
    rw [ran] at before
    obtain ⟨value, after⟩ := before
    cases value
    rw [bind_of_ok ran]
    exact second t after
  | error e t =>
    rw [ran] at before
    cases before.1

theorem Gives.bind_error {e : Failure} (first : Gives scopes u (.error e) scopes') :
    Gives scopes (u >>= f) (.error e) scopes' := by
  intro s same
  have before := first s same
  cases ran : u s with
  | ok a t =>
    rw [ran] at before
    cases before.1
  | error e' t =>
    rw [ran] at before
    obtain ⟨value, after⟩ := before
    cases value
    rw [bind_of_error ran]
    exact ⟨rfl, after⟩

namespace Blind

theorem pure (a : α) : Blind (Pure.pure a : Update α) := fun scopes =>
  ⟨.ok a, scopes, fun _ same => ⟨rfl, same⟩⟩

theorem bind (first : Blind u) (second : ∀ a, Blind (f a)) : Blind (u >>= f) := by
  intro scopes
  obtain ⟨answer, scopes', before⟩ := first scopes
  cases answer with
  | ok a =>
    obtain ⟨b, scopes'', after⟩ := second a scopes'
    exact ⟨b, scopes'', before.bind after⟩
  | error e => exact ⟨.error e, scopes', before.bind_error⟩

theorem evaluate (origin : Lexeme) (computation : Eval α) :
    Blind (Update.evaluate origin computation) := by
  intro scopes
  cases ran : computation scopes with
  | ok a scopes' =>
    refine ⟨.ok a, scopes', ?_⟩
    rintro s rfl
    rw [Update.evaluate, ran]
    exact ⟨rfl, rfl⟩
  | error e scopes' =>
    refine ⟨.error (.semantic ⟨.evaluation e, origin.site⟩), scopes', ?_⟩
    rintro s rfl
    rw [Update.evaluate, ran]
    exact ⟨rfl, rfl⟩

theorem modifyScopes (g : Scopes → Scopes) : Blind (Update.modifyScopes g) := by
  intro scopes
  refine ⟨.ok (), g scopes, ?_⟩
  rintro s rfl
  exact ⟨rfl, rfl⟩

/-- A look at the scopes. -/
theorem get {g : Session → Update α} (same : ∀ s, g s = g { scopes := s.scopes })
    (h : ∀ s, Blind (g s)) : Blind (MonadState.get >>= g) := by
  intro scopes
  obtain ⟨a, scopes', run⟩ := h { scopes } scopes
  refine ⟨a, scopes', ?_⟩
  rintro s rfl
  rw [← same] at run
  exact run s rfl

theorem reject (origin : Lexeme) (cause : SemanticCause) :
    Blind (Update.reject origin cause : Update α) := fun scopes =>
  ⟨.error (.semantic ⟨cause, origin.site⟩), scopes, fun _ same => ⟨rfl, same⟩⟩

theorem note (level : LogLevel) (text : String) : Blind (Update.note level text) := fun scopes =>
  ⟨.ok (), scopes, fun _ same => ⟨rfl, same⟩⟩

theorem inScope (parent : ScopeId) {g : ScopeId → Update α} (h : ∀ scope, Blind (g scope)) :
    Blind (Update.inScope parent g) := by
  intro scopes
  obtain ⟨a, scopes', run⟩ := h scopes.next (scopes.push .shadow parent)
  refine ⟨a, scopes'.release scopes.next, ?_⟩
  rintro s rfl
  have given := run { s with scopes := s.scopes.push .shadow parent } rfl
  unfold Update.inScope
  dsimp only
  cases ran : g s.scopes.next { s with scopes := s.scopes.push .shadow parent } with
  | ok b t =>
    rw [ran] at given
    exact ⟨given.1, congrArg (Scopes.release · _) given.2⟩
  | error e t =>
    rw [ran] at given
    exact ⟨given.1, congrArg (Scopes.release · _) given.2⟩

end Blind

end Update

end Rsrc
