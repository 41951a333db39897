import Rsrc.Proofs.Position

/-!
# Loops without a limit

The loops of the grammar are given a limit on their turns. `Loops` describes a loop by its turns alone:
they are repeated until one of them ends the loop or fails, and each turn that goes on leaves less to
be read than there was. Here every loop is shown to be of that kind, so that no limit is ever reached.
`Descends` says the same of recursion: it goes on only where less is left.
-/

namespace Rsrc

section General

variable {ε σ α β : Type} {f : α → EStateM ε σ β}

/-- Turns are repeated from a state on up to a result. A turn gives what the next one starts with, or
the result of the loop; if it goes on, there is less left. -/
inductive Loops (left : σ → Nat) (turn : α → EStateM ε σ (α ⊕ β)) :
    α → σ → EStateM.Result ε σ β → Prop
  | again {a b : α} {s t : σ} {result : EStateM.Result ε σ β} (went : turn a s = .ok (.inl b) t)
    (fewer : left t < left s) (rest : Loops left turn b t result) : Loops left turn a s result
  | ends {a : α} {b : β} {s t : σ} (went : turn a s = .ok (.inr b) t) :
    Loops left turn a s (.ok b t)
  | fails {a : α} {e : ε} {s t : σ} (went : turn a s = .error e t) :
    Loops left turn a s (.error e t)

/-- What takes one turn and goes on by itself repeats the turns. -/
theorem Loops.of_unfolds {left : σ → Nat} {turn : α → EStateM ε σ (α ⊕ β)}
    (unfolds : ∀ a s, f a s = (turn a >>= Sum.elim f pure) s)
    (fewer : ∀ {a b s t}, turn a s = .ok (.inl b) t → left t < left s) (a : α) (s : σ) :
    Loops left turn a s (f a s) := by
  induction bound : left s using Nat.strongRecOn generalizing a s with
  | ind n ih =>
    rw [unfolds]
    cases went : turn a s with
    | error e t =>
      rw [bind_of_error went]
      exact .fails went
    | ok next t =>
      rw [bind_of_ok went]
      cases next with
      | inl b => exact .again went (fewer went) (ih _ (bound ▸ fewer went) b t rfl)
      | inr b => exact .ends went

/-- A loop that collects: in its midst, what has been read stands in front of what is read later. -/
theorem Loops.of_collects {left : σ → Nat} {turn : List α → EStateM ε σ (List α ⊕ List α)}
    {rest : EStateM ε σ (List α)}
    (unfolds : ∀ before s, (rest >>= fun all => pure (before ++ all)) s =
      (turn before >>= Sum.elim (fun before => rest >>= fun all => pure (before ++ all)) pure) s)
    (fewer : ∀ {before next s t}, turn before s = .ok (.inl next) t → left t < left s) (s : σ) :
    Loops left turn [] s (rest s) := by
  have start : rest s = (rest >>= fun all => pure ([] ++ all)) s := by
    simp only [List.nil_append, bind_pure]
  rw [start]
  exact Loops.of_unfolds (f := fun before => rest >>= fun all => pure (before ++ all)) unfolds fewer [] s

/-- The computation is what `body` makes of any other one that does the same where less is left. -/
def Descends (left : σ → Nat) (body : EStateM ε σ α → EStateM ε σ α) (run : EStateM ε σ α) : Prop :=
  ∀ s other, (∀ t, left t < left s → other t = run t) → run s = body other s

theorem bind_eq_ok {x : EStateM ε σ α} {s u : σ} {b : β} (h : (x >>= f) s = .ok b u) :
    ∃ a t, x s = .ok a t ∧ f a t = .ok b u := by
  cases ran : x s with
  | ok a t =>
    rw [bind_of_ok ran] at h
    exact ⟨a, t, rfl, h⟩
  | error e t =>
    rw [bind_of_error ran] at h
    cases h

theorem bind_eq_ok_iff {x : EStateM ε σ α} {s u : σ} {b : β} :
    (x >>= f) s = .ok b u ↔ ∃ a t, x s = .ok a t ∧ f a t = .ok b u := by
  refine ⟨bind_eq_ok, ?_⟩
  rintro ⟨a, t, first, rest⟩
  exact (bind_of_ok first).trans rest

theorem pure_eq_ok_iff {a b : α} {s t : σ} :
    (pure a : EStateM ε σ α) s = .ok b t ↔ t = s ∧ b = a := by
  constructor
  · intro h
    cases h
    exact ⟨rfl, rfl⟩
  · rintro ⟨rfl, rfl⟩
    rfl

end General

/-! ### Paths and expressions -/

namespace Reading

/-- Reads one more name onto a path, if there is one. -/
def pathTurn (path : String) : Reading (String ⊕ String) := do
  if (← get).expects [LexemeKind.dot, LexemeKind.identifier] then
    skip LexemeKind.dot
    let segment ← identifier
    return .inl (path ++ "." ++ segment.text)
  else return .inr path

/-- Reads all names that are left onto a path. -/
def pathLoop (path : String) : Reading String := do pathFrom path (← get).unread

theorem unread_of_pathTurn {path next : String} {c d : Cursor}
    (went : pathTurn path c = .ok (.inl next) d) : d.unread < c.unread := by
  change (if c.expects _ then _ else _ : Reading (String ⊕ String)) c = _ at went
  split at went
  · obtain ⟨_, c₁, passed, went⟩ := bind_eq_ok went
    obtain ⟨segment, c₂, named, went⟩ := bind_eq_ok went
    cases went
    have first := unread_of_skip passed
    have second := unread_of_identifier named
    omega
  · cases went

theorem pathTurn_of_finished {path : String} {c : Cursor} (ended : c.unread = 0) :
    pathTurn path c = .ok (.inr path) c := by
  have rest : c.rest = [] := by
    apply List.eq_nil_of_length_eq_zero
    simpa [Cursor.rest, Cursor.unread] using ended
  have none : ¬ c.expects [LexemeKind.dot, LexemeKind.identifier] := by
    simp [Cursor.expects, rest, Cursor.matchesAll]
  change (if c.expects _ then _ else _ : Reading (String ⊕ String)) c = _
  rw [if_neg none]
  rfl

theorem loops_path (path : String) (c : Cursor) :
    Loops Cursor.unread pathTurn path c (pathLoop path c) := by
  refine Loops.of_unfolds (fun path c => ?_) unread_of_pathTurn path c
  by_cases ended : c.unread = 0
  · rw [bind_of_ok (pathTurn_of_finished ended)]
    exact pathFrom_of_finished path _ ended
  · obtain ⟨n, more⟩ := Nat.exists_eq_succ_of_ne_zero ended
    change pathFrom path c.unread c = _
    rw [more, pathFrom]
    change (if c.expects _ then _ else _ : Reading String) c =
      ((if c.expects _ then _ else _ : Reading (String ⊕ String)) >>= _) c
    split
    · rw [bind_assoc]
      refine bind_congr_at rfl fun _ c₁ passed => ?_
      rw [bind_assoc]
      refine bind_congr_at rfl fun segment c₂ named => ?_
      have first := unread_of_skip passed
      have second := unread_of_identifier named
      exact pathFrom_fuel _ (by omega) (Nat.le_refl _)
    · rfl

end Reading

namespace Expr

/-! The readers of expressions, with fuel for all that is left. -/

def fueledLayer (layer : Nat) : Reading Expr := do readLayer (3 * (← get).unread + 3) layer

def fueledOperators (layer : Nat) (left : Expr) : Reading Expr := do
  readOperators (3 * (← get).unread + 1) layer left

def fueledUnary : Reading Expr := do readUnary (3 * (← get).unread + 2)

def fueledPrimary : Reading Expr := do readPrimary (3 * (← get).unread + 1)

def fueledArguments : Reading (List Expr) := do readArguments (3 * (← get).unread + 4)

/-- Reads one more operator of at least the given layer with its right operand, if there is one. -/
def operatorTurn (layer : Nat) (left : Expr) : Reading (Expr ⊕ Expr) := do
  match (← get).operator? layer with
  | none => return .inr left
  | some op =>
    modify Cursor.advance
    let right ← fueledLayer (op.layer + 1)
    return .inl (.binary op left right)

/-- Reads one more argument of a call, and the closing parenthesis behind the last one. -/
def argumentTurn (before : List Expr) : Reading (List Expr ⊕ List Expr) := do
  let next ← fueledLayer 0
  if ← Reading.accept LexemeKind.comma then return .inl (before ++ [next])
  else
    Reading.skip LexemeKind.rightParen
    return .inr (before ++ [next])

/-- Reads an operand, where `operand` reads what is behind a unary operator. -/
def unaryBy (operand : Reading Expr) : Reading Expr := do
  match (← get).peekKind.bind UnaryOp.ofKind? with
  | none => fueledPrimary
  | some op =>
    modify Cursor.advance
    return applyUnary op (← operand)

theorem fueledLayer_eq (layer : Nat) :
    fueledLayer layer = fueledUnary >>= fueledOperators layer := by
  funext c
  change readLayer (3 * c.unread + 2 + 1) layer c = _
  rw [readLayer]
  refine bind_congr_at rfl fun left d read => ?_
  have less := unread_of_unary read
  exact readOperators_fuel _ _ layer left d (by omega) (Nat.le_refl _)

theorem unread_of_operatorTurn {layer : Nat} {left next : Expr} {c d : Cursor}
    (went : operatorTurn layer left c = .ok (.inl next) d) : d.unread < c.unread := by
  change (match c.operator? layer with
    | none => pure (.inr left)
    | some op => _ : Reading (Expr ⊕ Expr)) c = _ at went
  cases found : c.operator? layer with
  | none =>
    rw [found] at went
    cases went
  | some op =>
    rw [found] at went
    obtain ⟨l, next, -⟩ := Parse.exists_of_operator? found
    have passed := Cursor.unread_advance next
    change (fueledLayer (op.layer + 1) >>= fun right =>
      pure (Sum.inl (.binary op left right) : Expr ⊕ Expr)) c.advance = _ at went
    obtain ⟨right, d, read, went⟩ := bind_eq_ok went
    cases went
    have less : d.unread ≤ c.advance.unread := unread_of_layer read
    omega

theorem loops_operators (layer : Nat) (left : Expr) (c : Cursor) :
    Loops Cursor.unread (operatorTurn layer) left c (fueledOperators layer left c) := by
  refine Loops.of_unfolds (f := fueledOperators layer) (fun left c => ?_) unread_of_operatorTurn left c
  change readOperators (3 * c.unread + 1) layer left c = _
  rw [readOperators]
  change (match c.operator? layer with
    | none => pure left
    | some op => _ : Reading Expr) c = ((match c.operator? layer with
    | none => pure (.inr left)
    | some op => _ : Reading (Expr ⊕ Expr)) >>= _) c
  cases found : c.operator? layer with
  | none => rfl
  | some op =>
    obtain ⟨l, next, -⟩ := Parse.exists_of_operator? found
    have passed := Cursor.unread_advance next
    simp only [bind_assoc]
    refine Reading.advance_congr ?_
    refine bind_congr_at (readLayer_fuel _ _ _ _ (by omega) (Nat.le_refl _)) fun right d read => ?_
    have less := unread_of_layer read
    exact readOperators_fuel _ _ layer _ d (by omega) (Nat.le_refl _)

theorem loops_arguments (c : Cursor) :
    Loops Cursor.unread argumentTurn [] c (fueledArguments c) := by
  refine Loops.of_collects (fun before c => ?_) (fun {before next c d} went => ?_) c
  · change (readArguments (3 * c.unread + 3 + 1) >>= fun rest => pure (before ++ rest)) c = _
    rw [readArguments, argumentTurn]
    simp only [bind_assoc]
    refine bind_congr_at rfl fun next c₁ read => bind_congr_at rfl fun more c₂ accepted => ?_
    have less : c₁.unread ≤ c.unread := unread_of_layer read
    cases more with
    | false =>
      simp only [Bool.false_eq_true, if_false, bind_assoc]
      exact bind_congr_at rfl fun _ _ _ => rfl
    | true =>
      have comma := Reading.unread_of_accept accepted
      simp only [if_true, bind_assoc, pure_bind, Sum.elim_inl]
      refine bind_congr_at (readArguments_fuel _ _ c₂ (by omega) (Nat.le_refl _)) fun rest d _ => ?_
      rw [List.append_assoc, List.singleton_append]
  · obtain ⟨e, c₁, read, went⟩ := bind_eq_ok went
    obtain ⟨more, c₂, accepted, went⟩ := bind_eq_ok went
    have less : c₁.unread ≤ c.unread := unread_of_layer read
    cases more with
    | false =>
      obtain ⟨_, c₃, closed, went⟩ := bind_eq_ok went
      cases went
    | true =>
      cases went
      have comma := Reading.unread_of_accept accepted
      omega

theorem descends_unary : Descends Cursor.unread unaryBy fueledUnary := by
  intro c operand same
  change readUnary (3 * c.unread + 1 + 1) c = _
  rw [readUnary]
  change (match c.peekKind.bind UnaryOp.ofKind? with
    | none => _
    | some op => _ : Reading Expr) c = (match c.peekKind.bind UnaryOp.ofKind? with
    | none => _
    | some op => _ : Reading Expr) c
  cases found : c.peekKind.bind UnaryOp.ofKind? with
  | none => rfl
  | some op =>
    obtain ⟨l, next, -⟩ := Parse.exists_of_unary found
    have passed := Cursor.unread_advance next
    refine Reading.advance_congr ?_
    have fuel : readUnary (3 * c.unread + 1) c.advance = operand c.advance := by
      rw [same _ (by omega)]
      exact readUnary_fuel _ _ _ (by omega) (Nat.le_refl _)
    exact bind_congr_at fuel fun _ _ _ => rfl

theorem primary_eq {c : Cursor} {inner : Reading Expr} {arguments : Reading (List Expr)}
    (same : ∀ d : Cursor, d.unread < c.unread →
      inner d = fueledLayer 0 d ∧ arguments d = fueledArguments d) :
    fueledPrimary c = primaryBy inner arguments c := by
  change primaryBy (readLayer (3 * c.unread) 0) (readArguments (3 * c.unread)) c = _
  refine primaryBy_congr (fun d fewer => ?_) fun d fewer => ?_
  · rw [(same d fewer).1]
    exact readLayer_fuel _ _ _ _ (by omega) (Nat.le_refl _)
  · rw [(same d (by omega)).2]
    exact readArguments_fuel _ _ _ (by omega) (Nat.le_refl _)

end Expr

/-! ### Constructs -/

namespace Parse

variable {α : Type} {importer : Importer}

/-- What is left to be read. -/
abbrev left (st : ParseState) : Nat := st.cursor.unread

/-- Takes one more step, unless a closing brace is next. -/
def braceTurn (step : α → Parse α) (a : α) : Parse (α ⊕ α) := do
  let c ← cursor
  if c.isAt LexemeKind.rightBrace then return .inr a
  else if c.finished then fail "`\x7d`"
  else return .inl (← step a)

/-- Reads one more construct of a file, unless it has ended. -/
def fileTurn (importer : Importer) (_ : Unit) : Parse (Unit ⊕ Unit) := do
  if (← cursor).finished then return .inr ()
  else
    fileStep importer
    return .inl ()

/-- Reads one more item, and says whether a comma is behind it. -/
def itemTurn (item : Parse α) (before : List α) : Parse (List α ⊕ List α) := do
  let next ← item
  if ← Reading.accept LexemeKind.comma then return .inl (before ++ [next])
  else return .inr (before ++ [next])

/-- Reads one more label that is joined to a value, if there is one. -/
def joinTurn (before : List FieldValue) : Parse (List FieldValue ⊕ List FieldValue) := do
  if ← Reading.accept (.keyword "join") then
    let part ← valuePart
    return .inl (before ++ [part])
  else return .inr before

/-- Reads all labels that are joined to a value. -/
def joined : Parse (List FieldValue) := do joinedWithin (← cursor).unread

theorem loops_toBrace {step : α → Parse α} (advances : ∀ a st, AdvancesAt (step a) st) (a : α)
    (st : ParseState) : Loops left (braceTurn step) a st (toBrace step a st) := by
  refine Loops.of_unfolds (f := toBrace step) (fun a st => ?_) (fun {a b st t} went => ?_) a st
  · rw [toBrace_eq advances]
    change _ = ((if st.cursor.isAt _ then _ else _ : Parse (α ⊕ α)) >>= _) st
    split
    · rfl
    · split
      · rfl
      · rw [bind_assoc]
        exact bind_congr_at rfl fun _ _ _ => rfl
  · change (if st.cursor.isAt _ then _ else _ : Parse (α ⊕ α)) st = _ at went
    split at went
    · cases went
    · split at went
      · cases went
      · rename_i unfinished
        obtain ⟨b, t, ran, went⟩ := bind_eq_ok went
        cases went
        have fewer := advances a st (Cursor.unread_pos unfinished)
        rwa [ran] at fewer

theorem loops_file [importer.Natural] (st : ParseState) :
    Loops left (fileTurn importer) () st (Place.file.loop importer st) := by
  refine Loops.of_unfolds (f := fun _ => Place.file.loop importer) (fun _ st => ?_)
    (fun {_ _ st t} went => ?_) () st
  · rw [fileLoop_eq]
    change _ = ((if st.cursor.finished then _ else _ : Parse (Unit ⊕ Unit)) >>= _) st
    split
    · rfl
    · rw [bind_assoc]
      exact bind_congr_at rfl fun _ _ _ => rfl
  · change (if st.cursor.finished then _ else _ : Parse (Unit ⊕ Unit)) st = _ at went
    split at went
    · cases went
    · rename_i unfinished
      obtain ⟨_, t, ran, went⟩ := bind_eq_ok went
      cases went
      have fewer := advances_fileStep importer st (Cursor.unread_pos unfinished)
      rwa [ran] at fewer

theorem loops_items {item : Parse α} (forward : Forward item) (st : ParseState) :
    Loops left (itemTurn item) [] st (items item st) := by
  have unread_le {st t : ParseState} {a : α} (ran : item st = .ok a t) :
      t.cursor.unread ≤ st.cursor.unread := by
    have later := (forward st).unread
    rwa [ran] at later
  refine Loops.of_collects (fun before st => ?_) (fun {before next st t} went => ?_) st
  · change (itemsWithin item (st.cursor.unread + 1) >>= fun all => pure (before ++ all)) st = _
    rw [itemsWithin, itemTurn]
    simp only [bind_assoc]
    refine bind_congr_at rfl fun next t read => bind_congr_at rfl fun more u accepted => ?_
    cases more with
    | false => rfl
    | true =>
      have less := unread_le read
      have comma := unread_of_accepted accepted
      simp only [if_true, bind_assoc, pure_bind, Sum.elim_inl]
      refine bind_congr_at (itemsWithin_fuel forward (by omega) (Nat.le_refl _)) fun rest d _ => ?_
      rw [List.append_assoc, List.singleton_append]
  · obtain ⟨a, t, read, went⟩ := bind_eq_ok went
    obtain ⟨more, u, accepted, went⟩ := bind_eq_ok went
    cases more with
    | false => cases went
    | true =>
      cases went
      have less := unread_le read
      have comma := unread_of_accepted accepted
      simp only [left]
      omega

theorem loops_joined (st : ParseState) : Loops left joinTurn [] st (joined st) := by
  have unread_le {st t : ParseState} {part : FieldValue} (ran : valuePart st = .ok part t) :
      t.cursor.unread ≤ st.cursor.unread :=
    unread_le_of_ok Step.valuePart.local ran
  refine Loops.of_collects (fun before st => ?_) (fun {before next st t} went => ?_) st
  · change (joinedWithin st.cursor.unread >>= fun all => pure (before ++ all)) st = _
    have once : joinedWithin st.cursor.unread st = joinedWithin (st.cursor.unread + 1) st :=
      joinedWithin_fuel (Nat.le_refl _) (Nat.le_succ _)
    rw [bind_congr_at once fun _ _ _ => rfl, joinedWithin, joinTurn]
    simp only [bind_assoc]
    refine bind_congr_at rfl fun more t accepted => ?_
    cases more with
    | false => simp
    | true =>
      simp only [if_true, bind_assoc]
      refine bind_congr_at rfl fun part u read => ?_
      have word := unread_of_accepted accepted
      have less := unread_le read
      simp only [pure_bind, Sum.elim_inl]
      refine bind_congr_at (joinedWithin_fuel (by omega) (Nat.le_refl _)) fun rest d _ => ?_
      rw [List.append_assoc, List.singleton_append]
  · obtain ⟨more, t, accepted, went⟩ := bind_eq_ok went
    cases more with
    | false => cases went
    | true =>
      obtain ⟨part, u, read, went⟩ := bind_eq_ok went
      cases went
      have word := unread_of_accepted accepted
      have less := unread_le read
      simp only [left]
      omega

/-- Modules inside a module are read where less is left. -/
theorem descends_module [importer.Natural] :
    Descends left (fun body => toBrace (fun () => guarded (construct importer body)) ())
      (Place.module.loop importer) := by
  intro st other same
  refine loop_module_eq fun t limit fewer le => ?_
  rw [moduleBody_eq_loop fewer]
  exact (same t (Nat.lt_of_lt_of_le fewer le)).symm

end Parse

end Rsrc
