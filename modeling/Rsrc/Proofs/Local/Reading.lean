import Rsrc.Proofs.Local

/-!
# Reading lexemes in a setting

Reading single lexemes and expressions can not tell two settings apart. As the part ends with a brace
or a semicolon and neither belongs to an expression, an expression that begins in the part ends in it.
-/

namespace Rsrc

/-! ### Cursors -/

namespace Cursor

variable {k k' : Setting} {c : Cursor} {l : Lexeme}

theorem Open.first (h : c.Open k k') : c.ahead ≠ [] ∨ k.next = [] := by
  by_cases none : k.next = []
  · exact .inr none
  · exact .inl (h (.inl none))

theorem Open.second (h : c.Open k k') : c.ahead ≠ [] ∨ k'.next = [] := by
  by_cases none : k'.next = []
  · exact .inr none
  · exact .inl (h (.inr none))

theorem peek_within (h : c.ahead ≠ [] ∨ k.next = []) : (c.within k).peek = c.peek := by
  obtain ⟨source, consumed, injected, ahead⟩ := c
  cases injected with
  | cons l injected => rfl
  | nil =>
    cases ahead with
    | cons l ahead => rfl
    | nil =>
      rcases h with left | none
      · exact absurd rfl left
      · simp [peek, within, none]

theorem peek_within_of_some (h : c.peek = some l) : (c.within k).peek = some l := by
  obtain ⟨source, consumed, injected, ahead⟩ := c
  cases injected with
  | cons l' injected => exact h
  | nil =>
    cases ahead with
    | cons l' ahead => exact h
    | nil => cases h

theorem finished_within (h : c.ahead ≠ [] ∨ k.next = []) : (c.within k).finished = c.finished := by
  rcases h with left | none
  · obtain ⟨l, ahead, split⟩ := List.exists_cons_of_ne_nil left
    simp [finished, split]
  · simp [finished, none]

theorem Open.finished (h : c.Open k k') :
    (c.within k).finished = c.finished ∧ (c.within k').finished = c.finished :=
  ⟨finished_within h.first, finished_within h.second⟩

theorem Open.isAt (h : c.Open k k') (e : Expectation) :
    (c.within k).isAt e = c.isAt e ∧ (c.within k').isAt e = c.isAt e := by
  simp [Cursor.isAt, peek_within h.first, peek_within h.second]

theorem advance_within (h : c.ahead ≠ [] ∨ k.next = []) :
    (c.within k).advance = c.advance.within k := by
  obtain ⟨source, consumed, injected, ahead⟩ := c
  cases injected with
  | cons l injected => rfl
  | nil =>
    cases ahead with
    | cons l ahead => rfl
    | nil =>
      rcases h with left | none
      · exact absurd rfl left
      · simp [advance, within, none]

theorem peek_eq_none (h : c.peek = none) : c.injected = [] ∧ c.ahead = [] := by
  obtain ⟨source, consumed, injected, ahead⟩ := c
  cases injected with
  | cons l injected => cases h
  | nil =>
    cases ahead with
    | cons l ahead => cases h
    | nil => exact ⟨rfl, rfl⟩

theorem peek_of_unread (h : c.unread = 0) : c.peek = none := by
  have injected : c.injected = [] := List.eq_nil_of_length_eq_zero (by simp only [unread] at h; omega)
  have ahead : c.ahead = [] := List.eq_nil_of_length_eq_zero (by simp only [unread] at h; omega)
  simp [peek, injected, ahead]

theorem unread_pos (h : ¬ c.finished) : 0 < c.unread := by
  apply Nat.pos_of_ne_zero
  intro none
  apply h
  simp only [unread] at none
  have injected : c.injected = [] := List.eq_nil_of_length_eq_zero (by omega)
  have ahead : c.ahead = [] := List.eq_nil_of_length_eq_zero (by omega)
  simp [finished, injected, ahead]

theorem advance_of_peek_none (h : c.peek = none) : c.advance = c := by
  obtain ⟨source, consumed, injected, ahead⟩ := c
  obtain ⟨rfl, rfl⟩ := peek_eq_none h
  rfl

/-- A cursor at which a lexeme is next, by where the lexeme comes from. -/
theorem peek_cases (h : c.peek = some l) :
    (∃ injected, c.injected = l :: injected ∧ c.advance = { c with injected }) ∨
      ∃ ahead, c.injected = [] ∧ c.ahead = l :: ahead ∧
        c.advance = { c with consumed := l :: c.consumed, ahead } := by
  obtain ⟨source, consumed, injected, ahead⟩ := c
  cases injected with
  | cons l' injected =>
    obtain rfl : l' = l := by simpa [peek] using h
    exact .inl ⟨injected, rfl, rfl⟩
  | nil =>
    cases ahead with
    | nil => simp [peek] at h
    | cons l' ahead =>
      obtain rfl : l' = l := by simpa [peek] using h
      exact .inr ⟨ahead, rfl, rfl, rfl⟩

theorem unread_advance (h : c.peek = some l) : c.advance.unread + 1 = c.unread := by
  rcases peek_cases h with ⟨injected, was, moved⟩ | ⟨ahead, none, was, moved⟩
  · simp only [moved, unread, was, List.length_cons]
    omega
  · simp only [moved, unread, was, List.length_cons]
    omega

theorem Ready.advance (ready : c.Ready k k') (opened : c.Open k k') : c.advance.Ready k k' := by
  cases next : c.peek with
  | none =>
    rw [advance_of_peek_none next]
    exact ready
  | some l =>
    rcases peek_cases next with ⟨injected, was, moved⟩ | ⟨ahead, none, was, moved⟩
    · rw [moved]
      exact ⟨ready.edge, fun cut ended => absurd ended (opened cut), ready.ending⟩
    · rw [moved]
      refine ⟨fun cut last h => ?_, fun _ _ => none, fun whole => .inl (by simp)⟩
      refine ready.edge cut last ?_
      rw [was, List.getLast?_cons]
      exact congrArg some (by simp [show ahead.getLast? = some last from h])

theorem Open.advance (opened : c.Open k k') (ready : c.Ready k k') (h : c.peek = some l)
    (inner : ¬ l.isEdge) : c.advance.Open k k' := by
  intro cut
  rcases peek_cases h with ⟨injected, was, moved⟩ | ⟨ahead, none, was, moved⟩
  · rw [moved]
    exact opened cut
  · rw [moved]
    rintro rfl
    exact inner (ready.edge cut l (by simp [was]))

/-- At the end of the file, it is blamed on the same lexeme. -/
theorem Ready.endError (ready : c.Ready k k') (whole : ¬ Cut k k') (h : c.peek = none)
    (expected : String) : (c.within k).endError expected = (c.within k').endError expected := by
  have none : c.ahead = [] := (peek_eq_none h).2
  obtain ⟨first, second⟩ : k.next = [] ∧ k'.next = [] := by simpa [Cut] using whole
  have same : (c.consumed ++ k.back).head? = (c.consumed ++ k'.back).head? := by
    rcases ready.ending whole with some | same
    · cases consumed : c.consumed with
      | nil => simp [consumed, none] at some
      | cons l consumed => rfl
    · cases c.consumed with
      | nil => exact same
      | cons l consumed => rfl
  simp only [Cursor.endError, endSite, within, none, first, second, List.append_nil, same]

end Cursor

/-! ### Single lexemes -/

/-- Lexemes that match are not braces or semicolons. -/
def Expectation.Inner (e : Expectation) : Prop := ∀ l, e.matched l → ¬ l.isEdge

theorem Expectation.kind_of_matched {kind : LexemeKind} {text : Option String} {l : Lexeme}
    (h : matched { kind, text } l) : l.kind = kind := by
  have both : l.kind = kind ∧ text.all (l.text == ·) = true := by simpa [matched] using h
  exact both.1

/-- Whether lexemes can match that are braces or semicolons is a matter of the kind. -/
theorem Expectation.inner_iff {e : Expectation} :
    e.Inner ↔ e.negated = false ∧
      e.kind ≠ .semicolon ∧ e.kind ≠ .leftBrace ∧ e.kind ≠ .rightBrace := by
  obtain ⟨kind, text, negated⟩ := e
  have lexeme (kind : LexemeKind) : ∃ l : Lexeme, l.kind = kind ∧ l.text = text.getD "" :=
    ⟨⟨kind, text.getD "", none, 0, 0, ⟨"", ""⟩⟩, rfl, rfl⟩
  constructor
  · intro inner
    cases negated with
    | false =>
      obtain ⟨l, rfl, same⟩ := lexeme kind
      have edge := inner l (by cases text <;> simp_all [matched])
      simpa [Lexeme.isEdge, and_assoc] using edge
    | true =>
      -- Of two edges, one has another kind than the one that is ruled out.
      obtain ⟨l, semicolon, -⟩ := lexeme .semicolon
      obtain ⟨l', brace, -⟩ := lexeme .leftBrace
      have first := inner l
      have second := inner l'
      cases kind <;> simp_all [matched, Lexeme.isEdge]
  · rintro ⟨rfl, plain⟩ l fits
    simp [Lexeme.isEdge, kind_of_matched fits, plain]

instance (e : Expectation) : Decidable e.Inner := decidable_of_iff _ Expectation.inner_iff.symm

namespace Parse

variable {α β : Type} {k k' : Setting} {weak p : Prop} {st : ParseState} {q : α → Prop}
  {e : Expectation}

theorem ofReading_bind (x : Reading α) (f : α → Reading β) :
    ofReading (x >>= f) = ofReading x >>= fun a => ofReading (f a) := by
  funext st
  cases ran : x st.cursor with
  | ok a c =>
    have first : ofReading x st = .ok a { st with cursor := c } := by simp [ofReading, ran]
    rw [bind_of_ok first, ofReading, bind_of_ok ran]
    rfl
  | error e c =>
    have first : ofReading x st = .error (.grammar e) { st with cursor := c } := by
      simp [ofReading, ran]
    rw [bind_of_error first, ofReading, bind_of_error ran]

theorem ofReading_get (f : Cursor → Reading α) :
    ofReading (get >>= f) = cursor >>= fun c => ofReading (f c) := rfl

/-- A reading of one lexeme, which says what is taken from it. -/
theorem LocalAt.lexeme {r : Reading α} (take : Lexeme → Option α) (wrong : Lexeme → GrammarError)
    (wanted : String)
    (eq : ∀ c, r c = match c.peek with
      | some l => match take l with
        | some a => .ok a c.advance
        | none => .error (wrong l) c
      | none => .error (c.endError wanted) c) (inner : ∀ l a, take l = some a → q a → ¬ l.isEdge) :
    LocalAt k k' weak True (ofReading r) q st where
  later := by
    unfold ofReading
    rw [eq]
    cases st.cursor.peek with
    | none => exact .refl _
    | some l =>
      cases taken : take l with
      | none =>
        simp only [taken]
        exact .refl _
      | some a =>
        simp only [taken]
        exact .advance _
  sync ready opened := by
    have opened := opened trivial
    unfold Sync ofReading
    simp only [eq, ParseState.within_cursor, Cursor.peek_within opened.first,
      Cursor.peek_within opened.second, Cursor.advance_within opened.first,
      Cursor.advance_within opened.second]
    cases next : st.cursor.peek with
    | none =>
      by_cases cut : Cut k k'
      · exact .inl ⟨cut, .inl rfl⟩
      · refine .inr ⟨.error (.grammar ((st.cursor.within k).endError wanted)) st, rfl, ?_, ready,
          fun _ _ h => nomatch h⟩
        rw [ready.endError cut next]
        rfl
    | some l =>
      cases taken : take l with
      | none =>
        exact .inr ⟨.error (.grammar (wrong l)) st, by simp [taken, Setting.place, ParseState.within],
          by simp [taken, Setting.place, ParseState.within], ready, fun _ _ h => nomatch h⟩
      | some a =>
        refine .inr ⟨.ok a { st with cursor := st.cursor.advance },
          by simp [taken, Setting.place, ParseState.within],
          by simp [taken, Setting.place, ParseState.within], ready.advance opened, ?_⟩
        rintro _ _ ⟨⟩ left
        exact opened.advance ready next (inner l a taken left)

/-- What is done with more fuel than is needed, where the need is read off the cursor. -/
theorem LocalAt.fueled {f : Nat → Parse α} {need : Cursor → Nat}
    (enough : ∀ (st : ParseState) n n', need st.cursor ≤ n → need st.cursor ≤ n' → f n st = f n' st)
    (each : ∀ n, LocalAt k k' weak p (f n) q st) :
    LocalAt k k' weak p (Parse.cursor >>= fun c => f (need c)) q st := by
  let most := max (need st.cursor) (max (need (st.cursor.within k)) (need (st.cursor.within k')))
  refine (each most).congr ?_ ?_ ?_
  · exact enough st _ _ (Nat.le_refl _) (Nat.le_max_left ..)
  · exact enough (st.within k) _ _ (Nat.le_refl _)
      (Nat.le_trans (Nat.le_max_left ..) (Nat.le_max_right ..))
  · exact enough (st.within k') _ _ (Nat.le_refl _)
      (Nat.le_trans (Nat.le_max_right ..) (Nat.le_max_right ..))

theorem LocalAt.advance : LocalAt k k' weak True (ofReading (modify Cursor.advance))
    (fun _ => ∀ l, st.cursor.peek = some l → ¬ l.isEdge) st where
  later := .advance _
  sync ready opened := by
    have opened := opened trivial
    have run : ∀ k : Setting, st.cursor.ahead ≠ [] ∨ k.next = [] →
        ofReading (modify Cursor.advance) (st.within k) =
          k.place ParseState.within (.ok () { st with cursor := st.cursor.advance }) := by
      intro k here
      change EStateM.Result.ok () (ParseState.mk _ (st.cursor.within k).advance) = _
      rw [Cursor.advance_within here]
      rfl
    refine .inr ⟨_, run k opened.first, run k' opened.second, ready.advance opened, ?_⟩
    rintro _ _ ⟨⟩ inner
    cases next : st.cursor.peek with
    | none =>
      change st.cursor.advance.Open k k'
      rw [Cursor.advance_of_peek_none next]
      exact opened
    | some l => exact opened.advance ready next (inner l next)

theorem Local.any : Local k k' weak True (ofReading Reading.any) fun l => ¬ l.isEdge := fun _ =>
  .lexeme some (fun l => l.unexpected "") "more input"
    (fun c => by unfold Reading.any; cases c.peek <;> rfl)
    (fun l a taken inner => by cases taken; exact inner)

theorem Local.matching (e : Expectation) (wanted : String) :
    Local k k' weak True (ofReading (Reading.matching e wanted)) fun _ => e.Inner := fun _ =>
  .lexeme (fun l => if e.matched l then some l else none) (fun l => l.unexpected e.describe) wanted
    (fun c => by
      unfold Reading.matching
      cases c.peek with
      | none => rfl
      | some l => by_cases fits : e.matched l <;> simp [fits])
    (fun l a taken inner => by
      by_cases fits : e.matched l
      · exact inner l fits
      · simp [fits] at taken)

theorem Local.one (inner : e.Inner) : Local k k' weak True (ofReading (Reading.one e)) := fun st =>
  (Local.matching e _ st).mono id id fun _ _ => inner

theorem Local.oneEdge : Local k k' weak True (ofReading (Reading.one e)) fun _ => False := fun st =>
  (Local.matching e _ st).mono id id fun _ h => h.elim

theorem Local.identifier : Local k k' weak True (ofReading Reading.identifier) :=
  .one (by decide)

theorem discard_eq {ε σ : Type} (x : EStateM ε σ α) : discard x = x >>= fun _ => pure () := by
  funext c
  change EStateM.map _ x c = EStateM.bind x _ c
  unfold EStateM.map EStateM.bind
  cases x c <;> rfl

theorem Local.discard {x : Reading α} {q : Prop}
    (h : Local k k' False p (ofReading x) fun _ => q) :
    Local k k' weak p (ofReading (discard x)) fun _ => q := by
  intro st
  rw [discard_eq, ofReading_bind]
  exact (h st).bind fun _ st => .pure id

theorem Local.skip (inner : e.Inner) :
    Local k k' weak True (ofReading (Reading.skip e)) := .discard (.one inner)

theorem Local.skipEdge (e : Expectation) :
    Local k k' weak True (ofReading (Reading.skip e)) fun _ => False := .discard (.oneEdge)

/-- Lexemes that match one expectation after the other. -/
theorem Local.matchings (wanted : String) {expectations : List Expectation}
    (inner : ∀ e ∈ expectations, e.Inner) :
    Local k k' weak True
      (ofReading (expectations.forM fun e => Functor.discard (Reading.matching e wanted))) := by
  induction expectations with
  | nil =>
    intro st
    exact .pure id
  | cons e expectations ih =>
    intro st
    change LocalAt k k' weak True
      (ofReading (Functor.discard (Reading.matching e wanted) >>= fun _ =>
        expectations.forM fun e => Functor.discard (Reading.matching e wanted))) _ st
    rw [ofReading_bind]
    have here : e.Inner := inner e List.mem_cons_self
    have first : Local k k' False True (ofReading (Reading.matching e wanted)) :=
      fun st => (Local.matching e wanted st).mono id id fun _ _ => here
    exact (Local.discard first st).bind fun _ =>
      ih fun e' member => inner e' (List.mem_cons_of_mem _ member)

theorem Local.accept (e : Expectation) :
    Local k k' weak True (ofReading (Reading.accept e)) fun b => b = true → e.Inner := by
  intro st
  have same : ofReading (Reading.accept e) = Parse.cursor >>= fun c =>
      if c.isAt e then ofReading (modify Cursor.advance) >>= fun _ => pure true else pure false := by
    funext st
    change ofReading _ st = (if st.cursor.isAt e then _ else _ : Parse Bool) st
    unfold ofReading Reading.accept
    by_cases fits : st.cursor.isAt e <;> simp only [fits] <;> rfl
  rw [same]
  refine .cursor ?_ fun ready opened => ?_
  · refine .ite (fun fits => ?_) fun _ => .pure fun _ => trivial
    refine LocalAt.advance.bind fun _ st' => .pure fun inner l next => ?_
    exact inner rfl l (by simpa [Cursor.isAt, next] using fits)
  · obtain ⟨first, second⟩ := (opened trivial).isAt e
    exact ⟨by rw [first], by rw [second]⟩

theorem Local.acceptInner (inner : e.Inner) :
    Local k k' weak True (ofReading (Reading.accept e)) := fun st =>
  (Local.accept e st).mono id id fun _ _ _ => inner

/-- A semicolon belongs to the part, or there is none. -/
theorem Local.acceptSemicolon [meets : Meets k k'] :
    Local k k' weak False (ofReading (Reading.accept LexemeKind.semicolon)) fun _ => False := by
  intro st
  have inside : LocalAt k k' weak True (ofReading (Reading.accept LexemeKind.semicolon)) _ st :=
    Local.accept _ st
  refine ⟨inside.later, fun ready _ => ?_⟩
  by_cases opened : st.cursor.Open k k'
  · exact (inside.sync ready fun _ => opened).mono id fun _ h => h.elim
  · -- The part has been read, and what stands in front of it does not begin with a semicolon.
    obtain ⟨cut, ended⟩ : Cut k k' ∧ st.cursor.ahead = [] := by
      simpa [Cursor.Open] using opened
    have run : ∀ k : Setting, (∀ l, k.next.head? = some l → l.kind ≠ .semicolon) →
        ofReading (Reading.accept LexemeKind.semicolon) (st.within k) =
          k.place ParseState.within (.ok false st) := by
      intro k other
      have no : (st.within k).cursor.isAt LexemeKind.semicolon = false := by
        have next : (st.within k).cursor.peek = k.next.head? := by
          simp only [Cursor.peek, ParseState.within_cursor, Cursor.within_injected,
            ready.injected cut ended, Cursor.within_ahead, ended, List.nil_append]
          cases k.next <;> rfl
        rw [Cursor.isAt, next]
        cases found : k.next.head? with
        | none => rfl
        | some l => simpa [Expectation.matched] using other l found
      simp only [ofReading, Reading.accept, no]
      rfl
    exact .inr ⟨_, run k fun l h => (meets.first l h).1, run k' meets.second, ready,
      fun _ _ _ h => h.elim⟩

theorem Local.fail (expected : String) : Local k k' weak p (Parse.fail expected) q := by
  intro st
  refine ⟨.refl _, fun ready _ => ?_⟩
  by_cases cut : Cut k k'
  · exact .inl ⟨cut, .inl rfl⟩
  · have same : (st.cursor.within k).unexpected expected =
        (st.cursor.within k').unexpected expected := by
      obtain ⟨first, second⟩ : k.next = [] ∧ k'.next = [] := by simpa [Cut] using cut
      simp only [Cursor.unexpected, Cursor.peek_within (.inr first), Cursor.peek_within (.inr second)]
      cases next : st.cursor.peek with
      | none => exact ready.endError cut next expected
      | some l => rfl
    refine .inr ⟨.error (.grammar ((st.cursor.within k).unexpected expected)) st, rfl, ?_, ready,
      fun _ _ h => nomatch h⟩
    change EStateM.Result.error (Failure.grammar ((st.cursor.within k').unexpected expected)) _ = _
    rw [← same]
    rfl

theorem Local.isAt (e : Expectation) : Local k k' weak True (Parse.isAt e) := by
  intro st
  refine .cursor (.pure fun _ => trivial) fun _ opened => ?_
  obtain ⟨first, second⟩ := (opened trivial).isAt e
  exact ⟨by rw [first], by rw [second]⟩

end Parse

/-! ### Progress -/

namespace Reading

variable {e : Expectation} {c c' : Cursor} {l : Lexeme} {α : Type}

theorem matching_eq_ok {wanted : String} (h : matching e wanted c = .ok l c') :
    c.peek = some l ∧ c' = c.advance := by
  unfold matching at h
  cases next : c.peek with
  | none => simp [next] at h
  | some l' =>
    rw [next] at h
    by_cases fits : e.matched l'
    · simp only [fits, if_true, EStateM.Result.ok.injEq] at h
      exact ⟨congrArg some h.1, h.2.symm⟩
    · simp [fits] at h

theorem matched_of_one (h : one e c = .ok l c') : e.matched l := by
  unfold one matching at h
  cases next : c.peek with
  | none => simp [next] at h
  | some l' =>
    rw [next] at h
    by_cases fits : e.matched l'
    · simp only [fits, if_true, EStateM.Result.ok.injEq] at h
      exact h.1 ▸ fits
    · simp [fits] at h

theorem one_eq_ok (h : one e c = .ok l c') : c.peek = some l ∧ c' = c.advance :=
  matching_eq_ok h

theorem discard_eq_ok {x : Reading α} {u : Unit} (h : discard x c = .ok u c') :
    ∃ a, x c = .ok a c' := by
  rw [Parse.discard_eq] at h
  cases ran : x c with
  | ok l d =>
    rw [bind_of_ok ran] at h
    cases h
    exact ⟨l, rfl⟩
  | error failure d =>
    rw [bind_of_error ran] at h
    cases h

theorem unread_of_skip {u : Unit} (h : skip e c = .ok u c') : c'.unread + 1 = c.unread := by
  obtain ⟨l, read⟩ := discard_eq_ok h
  obtain ⟨next, rfl⟩ := one_eq_ok read
  exact Cursor.unread_advance next

theorem unread_of_identifier (h : identifier c = .ok l c') : c'.unread + 1 = c.unread := by
  obtain ⟨next, rfl⟩ := one_eq_ok h
  exact Cursor.unread_advance next

theorem unread_of_accept (h : accept e c = .ok true c') : c'.unread + 1 = c.unread := by
  unfold accept at h
  split at h
  · rename_i fits
    cases next : c.peek with
    | none => simp [Cursor.isAt, next] at fits
    | some l =>
      cases h
      exact Cursor.unread_advance next
  · cases h

theorem cursor_of_accept (h : accept e c = .ok false c') : c' = c := by
  unfold accept at h
  split at h
  · cases h
  · cases h
    rfl

theorem get_congr {f f' : Cursor → Reading α} (h : f c c = f' c c) :
    (get >>= f) c = (get >>= f') c := h

theorem advance_congr {x x' : Reading α} (h : x c.advance = x' c.advance) :
    (do modify Cursor.advance; x : Reading α) c = (do modify Cursor.advance; x' : Reading α) c := h

end Reading

namespace Parse

variable {α β : Type} {k k' : Setting} {weak p : Prop} {st : ParseState} {e : Expectation}

/-- If something is left to be read, the computation reads some of it, unless it fails for good. -/
def AdvancesAt (x : Parse α) (st : ParseState) : Prop := 0 < st.cursor.unread →
  match x st with
  | .ok _ t => t.cursor.unread < st.cursor.unread
  | .error failure t => failure.isRecoverable → t.cursor.unread < st.cursor.unread

/-- A computation that can not tell the settings apart and reads something: such are the steps of
loops. -/
structure StepAt (k k' : Setting) (weak p : Prop) (x : Parse α) (q : α → Prop) (st : ParseState) :
    Prop extends LocalAt k k' weak p x q st where
  advances : AdvancesAt x st

def Step (k k' : Setting) (weak p : Prop) (x : Parse α) (q : α → Prop := fun _ => True) : Prop :=
  ∀ st, StepAt k k' weak p x q st

theorem ofReading_eq_ok {r : Reading α} {t : ParseState} {a : α} (h : ofReading r st = .ok a t) :
    r st.cursor = .ok a t.cursor ∧ t.session = st.session := by
  unfold ofReading at h
  cases ran : r st.cursor with
  | ok b c =>
    rw [ran] at h
    cases h
    exact ⟨rfl, rfl⟩
  | error e c =>
    rw [ran] at h
    cases h

theorem AdvancesAt.reading {r : Reading α}
    (h : ∀ a c, r st.cursor = .ok a c → c.unread < st.cursor.unread) :
    AdvancesAt (ofReading r) st := by
  intro _
  unfold ofReading
  cases ran : r st.cursor with
  | ok a c => exact h a c ran
  | error e c =>
    intro recoverable
    cases recoverable

theorem AdvancesAt.bind {x : Parse α} {f : α → Parse β} (first : AdvancesAt x st)
    (second : ∀ a, Forward (f a)) : AdvancesAt (x >>= f) st := by
  intro left
  have here := first left
  cases ran : x st with
  | ok a t =>
    rw [ran] at here
    have later := second a t
    rw [bind_of_ok ran]
    cases run : f a t with
    | ok b u =>
      rw [run] at later
      exact Nat.lt_of_le_of_lt later.unread here
    | error failure u =>
      rw [run] at later
      exact fun _ => Nat.lt_of_le_of_lt later.unread here
  | error failure t =>
    rw [ran] at here
    rw [bind_of_error ran]
    exact here

theorem Step.local {x : Parse α} {q : α → Prop} (h : Step k k' weak p x q) :
    Local k k' weak p x q := fun st => (h st).toLocalAt

namespace StepAt

variable {x y : Parse α} {f : α → Parse β} {q : α → Prop} {r : β → Prop}

theorem bind (first : StepAt k k' False p x q st) (second : ∀ a, Local k k' weak (q a) (f a) r) :
    StepAt k k' weak p (x >>= f) r st where
  toLocalAt := first.toLocalAt.bind second
  advances := first.advances.bind fun a st => (second a st).later

theorem mono {weak' p' : Prop} {q' : α → Prop} (h : StepAt k k' weak p x q st)
    (weaker : weak → weak') (more : p → p') (less : ∀ a, q' a → q a) :
    StepAt k k' weak' p' x q' st :=
  ⟨h.toLocalAt.mono weaker more less, h.advances⟩

theorem ite {c : Prop} [Decidable c] (yes : c → StepAt k k' weak p x q st)
    (no : ¬ c → StepAt k k' weak p y q st) : StepAt k k' weak p (if c then x else y) q st := by
  split
  · exact yes ‹_›
  · exact no ‹_›

/-- A look at the cursor, where what is done next is the same in both settings. -/
theorem cursor {f : Cursor → Parse α} (h : StepAt k k' weak p (f st.cursor) q st)
    (same : st.cursor.Ready k k' → (p → st.cursor.Open k k') →
      f (st.cursor.within k) = f st.cursor ∧ f (st.cursor.within k') = f st.cursor) :
    StepAt k k' weak p (Parse.cursor >>= f) q st :=
  ⟨.cursor h.toLocalAt same, h.advances⟩

theorem isAt (e : Expectation) {f : Bool → Parse α} (h : ∀ b, Step k k' weak True (f b) q) :
    StepAt k k' weak True (Parse.isAt e >>= f) q st :=
  ⟨(Local.isAt e st).bind fun b => (h b).local, (h (st.cursor.isAt e) st).advances⟩

/-- What the computation does may be said in another way at this state. -/
theorem congr (h : StepAt k k' weak p y q st) (alone : x st = y st)
    (first : x (st.within k) = y (st.within k)) (second : x (st.within k') = y (st.within k')) :
    StepAt k k' weak p x q st where
  toLocalAt := h.toLocalAt.congr alone first second
  advances := by
    rw [AdvancesAt, alone]
    exact h.advances

/-- What is done with more fuel than is needed, where the need is read off the cursor. -/
theorem fueled {f : Nat → Parse α} {need : Cursor → Nat}
    (enough : ∀ (st : ParseState) n n', need st.cursor ≤ n → need st.cursor ≤ n' → f n st = f n' st)
    (each : ∀ n, StepAt k k' weak p (f n) q st) :
    StepAt k k' weak p (Parse.cursor >>= fun c => f (need c)) q st :=
  ⟨.fueled enough fun n => (each n).toLocalAt, (each (need st.cursor)).advances⟩

/-- Passing a lexeme that is known and does not end a construct. -/
theorem pass {l : Lexeme} (next : st.cursor.peek = some l) (inner : ¬ l.isEdge) :
    StepAt k k' weak True (ofReading (modify Cursor.advance)) (fun _ => True) st where
  toLocalAt := LocalAt.advance.mono id id fun _ _ l' next' => by
    obtain rfl : l = l' := Option.some.inj (next.symm.trans next')
    exact inner
  advances := .reading fun _ c passed => by
    obtain rfl : st.cursor.advance = c := by cases passed; rfl
    have one := Cursor.unread_advance next
    omega

end StepAt

theorem Step.fail (expected : String) {q : α → Prop} :
    Step k k' weak p (Parse.fail expected) q := fun st =>
  ⟨Local.fail expected st, fun _ recoverable => by cases recoverable⟩

theorem Step.matching (inner : e.Inner) (wanted : String) :
    Step k k' weak True (ofReading (Reading.matching e wanted)) := fun st =>
  ⟨(Local.matching e wanted st).mono id id fun _ _ => inner, .reading fun l c read => by
    obtain ⟨next, rfl⟩ := Reading.matching_eq_ok read
    have one := Cursor.unread_advance next
    omega⟩

theorem Step.one (inner : e.Inner) :
    Step k k' weak True (ofReading (Reading.one e)) := .matching inner _

theorem Step.discard {x : Reading α} {q : Prop} (h : Step k k' False p (ofReading x) fun _ => q) :
    Step k k' weak p (ofReading (discard x)) fun _ => q := by
  intro st
  rw [discard_eq, ofReading_bind]
  exact (h st).bind fun _ st => .pure id

theorem Step.skip (inner : e.Inner) :
    Step k k' weak True (ofReading (Reading.skip e)) := .discard (.one inner)

theorem Step.ensure {expectations : List Expectation} (inner : ∀ e' ∈ e :: expectations, e'.Inner) :
    Step k k' weak True (ofReading (Reading.ensure (e :: expectations))) := by
  intro st
  generalize wanted : " ".intercalate ((e :: expectations).map (·.describe)) = text
  have split : Reading.ensure (e :: expectations) =
      Functor.discard (Reading.matching e text) >>= fun _ =>
        expectations.forM fun e => Functor.discard (Reading.matching e text) := by
    rw [Reading.ensure, ← wanted]
    rfl
  rw [split, ofReading_bind]
  exact (Step.discard (.matching (inner e List.mem_cons_self) text) st).bind fun _ =>
    Local.matchings text fun e' member => inner e' (List.mem_cons_of_mem _ member)

/-- Reading the next lexeme, where it is known not to end a construct. -/
theorem StepAt.anyOf (inner : e.Inner) (fits : st.cursor.isAt e) :
    StepAt k k' weak True (ofReading Reading.any) (fun _ => True) st := by
  obtain ⟨l, next, matched⟩ : ∃ l, st.cursor.peek = some l ∧ e.matched l := by
    cases next : st.cursor.peek with
    | none => simp [Cursor.isAt, next] at fits
    | some l => exact ⟨l, rfl, by simpa [Cursor.isAt, next] using fits⟩
  have same : ∀ t : ParseState, t.cursor.peek = some l →
      ofReading Reading.any t = ofReading (Reading.one e) t := by
    intro t here
    simp [ofReading, Reading.any, Reading.one, Reading.matching, here, matched]
  exact (Step.one inner st).congr (same _ next) (same _ (Cursor.peek_within_of_some next))
    (same _ (Cursor.peek_within_of_some next))

end Parse

end Rsrc
