import Rsrc.Proofs.Resource.Changes

/-!
# Bodies in steady scopes

Where all routines are built in, nothing that is read or carried out in the body of a block changes the
scopes. In these, every assignment has one answer, so the values of a new resource follow from the
assignments of its body alone (`Parse.BlockRun.values_of_complete`).
-/

namespace Rsrc

namespace Update

variable {α β : Type} {scopes : Scopes} {u : Update α} {f : α → Update β} {a : α}

theorem Yields.unique {a b : Except Failure α} (h : Yields scopes u a) (h' : Yields scopes u b) :
    a = b :=
  (h { scopes } rfl).1.symm.trans (h' { scopes } rfl).1

section

variable (plain : scopes.Plain)
include plain

theorem Yields.bind_eq_ok {b : β} (first : Scoped scopes.depth u)
    (second : ∀ a, Scoped scopes.depth (f a)) (h : Yields scopes (u >>= f) (.ok b)) :
    ∃ a, Yields scopes u (.ok a) ∧ Yields scopes (f a) (.ok b) := by
  obtain ⟨answer, before⟩ := first.settled plain
  cases answer with
  | error e => cases h.unique (Gives.bind_error before)
  | ok a =>
    obtain ⟨result, after⟩ := (second a).settled plain
    obtain rfl := h.unique (Gives.bind before after)
    exact ⟨a, before, after⟩

theorem Yields.foldlM_cons_eq_ok {g : β → α → Update β} {a : α} {items : List α} {b b' : β}
    (step : ∀ b a, Scoped scopes.depth (g b a))
    (h : Yields scopes ((a :: items).foldlM g b) (.ok b')) :
    ∃ c, Yields scopes (g b a) (.ok c) ∧ Yields scopes (items.foldlM g c) (.ok b') := by
  rw [List.foldlM_cons] at h
  exact h.bind_eq_ok plain (step b a) fun _ => .foldlM step _

end

theorem Yields.pure_eq_ok {a b : α} (h : Yields scopes (Pure.pure a) (.ok b)) : a = b :=
  Except.ok.inj ((Yields.pure a).unique h)

theorem not_yields_reject {origin : Lexeme} {cause : SemanticCause} :
    ¬ Yields scopes (Update.reject origin cause) (.ok a) := by
  intro h
  cases h.unique fun s same => ⟨rfl, same⟩

/-- A run that succeeds gives the answer that there is in its scopes, and it leaves them. -/
theorem Settled.of_ok {s t : Session} (h : Settled s.scopes u) (ran : u s = .ok a t) :
    Yields s.scopes u (.ok a) ∧ t.scopes = s.scopes := by
  have yields := h.yields
  rw [ran] at yields
  have left := (yields s rfl).2
  rw [ran] at left
  exact ⟨yields, left⟩

theorem Yields.exists_ok {s : Session} (h : Yields scopes u (.ok a)) (same : s.scopes = scopes) :
    ∃ t, u s = .ok a t ∧ t.scopes = scopes := by
  obtain ⟨ran, left⟩ := h s same
  cases run : u s with
  | ok b t =>
    rw [run] at ran left
    cases ran
    exact ⟨t, rfl, left⟩
  | error e t =>
    rw [run] at ran
    cases ran

/-- What is ensured of results holds of an answer. -/
theorem Ensures.of_yields {Q : α → Prop} (h : u.Ensures Q) (yields : Yields scopes u (.ok a)) :
    Q a := by
  obtain ⟨t, ran, -⟩ := yields.exists_ok (s := { scopes }) rfl
  exact (h.of_ok trivial ran).2

end Update

/-! ### Bodies -/

namespace TypeDef

open Update

variable {scopes : Scopes}

/-- Carries out the assignments of a body on values, and fills up lists. -/
def complete (d : TypeDef) (scope : ScopeId) (body : List Assignment) (r : Record) : Update Record := do
  let r ← body.foldlM (d.carryOut scope) r
  d.pad scope r

end TypeDef

/-! ### Sessions with the same scopes -/

/-- Nothing is different from the first session but messages and waiting decorators. -/
def Session.Still (s₀ s : Session) : Prop := { s with log := s₀.log, pending := s₀.pending } = s₀

namespace Session

variable {s₀ s t : Session}

theorem Still.refl (s : Session) : s.Still s := rfl

theorem Still.trans (h : s₀.Still s) (h' : s.Still t) : s₀.Still t := by
  unfold Still at h h' ⊢
  rw [← h, ← h']

theorem Still.scopes (h : s₀.Still s) : s.scopes = s₀.scopes := by rw [← h]

theorem Still.alike (h : s₀.Still s) : s₀.Alike s := by
  unfold Still at h
  unfold Alike
  rw [← h]

theorem still_of_alike (alike : s₀.Alike s) (scopes : s.scopes = s₀.scopes) : s₀.Still s := by
  unfold Still
  unfold Alike at alike
  rw [← alike]
  simp [scopes]

theorem Inside.still (h : s₀.Inside s) (depth : s.scopes.depth = s₀.scopes.depth) : s₀.Still s :=
  still_of_alike h.same (h.scopes_eq depth)

/-- Tame updates on all frames of a session leave them. -/
theorem stable_still (plain : s₀.scopes.Plain) : Session.Stable s₀.scopes.depth s₀.Still where
  tame {α u} tame := by
    refine .of_final fun s still => ?_
    have inside : s₀.Inside s :=
      ⟨still.alike, by simp [still.scopes], by rwa [still.scopes]⟩
    -- the old frames are kept, and there are no more than before
    have some : 1 ≤ s₀.scopes.depth := List.length_pos_iff.2 plain.rooted
    have depth : s.scopes.depth = s₀.scopes.depth := by rw [still.scopes]
    exact ((tame.inside s₀ rfl).final inside).still ((tame.level s₀.scopes.depth some).final depth)
  pending still _ := still

end Session

namespace Parse

/-- In steady scopes, a body comes to what its assignments come to one after another. -/
theorem Body.yields {s₀ : Session} (plain : s₀.scopes.Plain) {d : TypeDef} {scope : ScopeId}
    {st t : ParseState} {r r' : Record} {steps : List (Record × Assignment)}
    (body : Body d scope st r steps t r') (start : s₀.Still st.session) :
    Update.Yields s₀.scopes ((steps.map (·.2)).foldlM (d.carryOut scope) r) (.ok r') := by
  have stable := Session.stable_still plain
  induction body with
  | closed => exact .pure _
  | passed _ read _ ih => exact ih ((Upholds.bodyItem stable).of_ok start read).1
  | @assigned st u t r r' r'' a s steps _ read made _ ih =>
    -- reading moves the session on, but the step is taken in the scopes of `s₀`
    have before := ((Upholds.bodyItem stable).of_ok start read).1
    have after := ((stable.tame (d.scoped_assign ..).toTame).of_ok before made).1
    rw [← before.scopes] at plain ⊢
    have step := (((d.scoped_assign ..).settled plain).of_ok made).1
    rw [List.map_cons, List.foldlM_cons]
    refine Update.Gives.bind step ?_
    rw [before.scopes]
    exact ih after

namespace BlockRun

variable {d : TypeDef} {container : Option String} {st : ParseState} (run : BlockRun d container st)

/-- The assignments of the body. -/
def assignments : List Assignment := run.steps.map (·.2)

theorem still_planned (plain : st.session.scopes.Plain) : st.session.Still run.planned := by
  have stable := Session.stable_still plain
  have headed := (stable.blockHead.of_ok (.refl _) run.head).1
  exact ((stable.tame (run.kind.tame_plan ..)).of_ok headed run.plans).1

/-- In one session, blocks for the same slot with the same name open the same scope. -/
theorem opened_of_session {st' : ParseState} (run' : BlockRun d container st')
    (plain : st.session.scopes.Plain) (session : st'.session = st.session)
    (reference : run'.plan.reference = run.plan.reference) (name : run'.plan.name = run.plan.name) :
    run'.opened.scopes = run.opened.scopes ∧ run'.scope = run.scope := by
  have plain' : st'.session.scopes.Plain := by rwa [session]
  have planned : run'.planned.scopes = run.planned.scopes := by
    rw [(run'.still_planned plain').scopes, (run.still_planned plain).scopes, session]
  constructor
  · rw [run'.opened_eq, run.opened_eq]
    simp only [BlockPlan.scopesOf, reference, name, planned]
  · rw [run'.scope_eq, run.scope_eq, planned]

section

variable (plain : st.session.scopes.Plain)
include plain

theorem plain_opened : run.opened.scopes.Plain := by
  have planned : run.planned.scopes.Plain := by rwa [(run.still_planned plain).scopes]
  have above : 0 ≤ run.planned.scopes.next.index := Nat.zero_le _
  have pushed := Scopes.tolerates_plain.push .shadow Scopes.rootId planned
  rw [run.opened_eq]
  exact Scopes.tolerates_plain.define above _ _ (Scopes.tolerates_plain.define above _ _ pushed)

/-- What is stored is what the body and filling up make of the values before the body, if those were
made in steady scopes. -/
theorem yields_complete (steady : run.opened.Still run.begun) :
    Update.Yields run.opened.scopes (d.complete run.scope run.assignments run.first)
      (.ok run.padded) := by
  have plain := run.plain_opened plain
  have entered : run.opened.Still run.entered.session := by rwa [run.enters]
  have stable := Session.stable_still plain
  have left := run.body.keeps stable entered
  have closed := (stable.closeBlock.of_ok left run.closes).1
  refine Update.Gives.bind (run.body.yields plain entered) ?_
  rw [← closed.scopes] at plain ⊢
  exact (((d.scoped_pad ..).settled plain).of_ok run.pads).1

/-- Without a constructor, a new resource starts from defaults, made in the scopes of the block. -/
theorem yields_first (fresh : run.plan.start = none) (alone : run.plan.constructor = none) :
    Update.Yields run.opened.scopes (d.defaults run.scope {} "") (.ok run.first) ∧
      run.opened.Still run.begun := by
  have plain := run.plain_opened plain
  have begins := run.begins
  unfold BlockPlan.initial at begins
  rw [fresh, alone] at begins
  obtain ⟨r, s, made, rest⟩ := bind_eq_ok begins
  cases rest
  have tame := (Session.stable_still plain).tame (TypeDef.scoped_defaults run.scope d {} "").toTame
  exact ⟨(((d.scoped_defaults ..).settled plain).of_ok made).1,
    (tame.of_ok (.refl _) made).1⟩

/-- Without a constructor, the values of a new resource are what the assignments make of defaults. -/
theorem values_of_complete (fresh : run.plan.start = none) (alone : run.plan.constructor = none)
    {r padded : Record}
    (defaults : Update.Yields run.opened.scopes (d.defaults run.scope {} "") (.ok r))
    (completed : Update.Yields run.opened.scopes (d.complete run.scope run.assignments r)
      (.ok padded)) : run.resource.values = st.session.withCodes padded := by
  obtain ⟨first, still⟩ := run.yields_first plain fresh alone
  obtain rfl : r = run.first := Except.ok.inj (defaults.unique first)
  have same := Except.ok.inj (completed.unique (run.yields_complete plain still))
  rw [run.values_eq, same]

end

end BlockRun

end Parse

end Rsrc
