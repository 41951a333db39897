import Rsrc.Proofs.Resource.Entries
import Rsrc.Proofs.Scopes.Calls

/-!
# What a constructor writes

A constructor binds names behind `this.` in a frame of its own. Only when it has run, the bound values
are assigned, one for each name, in the order of the names. So a new resource that is made by a
constructor has the values that these assignments give in a body (`Parse.constructor_assigns`).
Assignments to different values commute (`TypeDef.yields_of_perm`), so the order of the statements does
as well for most constructors (`Parse.BlockRun.sameWith_in_order`).
-/

namespace Rsrc

open Update (Yields Scoped)

/-! ### Scripts -/

/-- The bindings that statements make in a scope, one after another. -/
inductive Scopes.Writes (scope : ScopeId) :
    Scopes → List Statement → List (String × Value) → Prop
  | done (s : Scopes) : Writes scope s [] []
  | passed {s : Scopes} {statement : Statement} {rest : List Statement} {value : Value}
    {writes : List (String × Value)} (target : statement.target = none)
    (evaluated : statement.expr.eval scope s = .ok value s) (more : Writes scope s rest writes) :
    Writes scope s (statement :: rest) writes
  | bound {s : Scopes} {statement : Statement} {rest : List Statement} {name : String}
    {value : Value} {writes : List (String × Value)} (target : statement.target = some name)
    (evaluated : statement.expr.eval scope s = .ok value s)
    (more : Writes scope (s.define scope name value) rest writes) :
    Writes scope s (statement :: rest) ((name, value) :: writes)

theorem Scopes.Plain.exists_writes {s t : Scopes} (plain : s.Plain) {scope : ScopeId}
    {statements : List Statement} {last value : Value}
    (ran : runFrom Scopes.call scope last statements s = .ok value t) :
    ∃ writes, Scopes.Writes scope s statements writes ∧ t = s.defineAll scope writes := by
  induction statements generalizing s last with
  | nil =>
    cases ran
    exact ⟨[], .done _, rfl⟩
  | cons statement rest ih =>
    obtain ⟨value₁, s₁, executed, later⟩ := bind_eq_ok ran
    obtain ⟨value₂, s₂, evaluated, bound⟩ := bind_eq_ok executed
    obtain rfl : s₂ = s := ((plain.eval scope statement.expr).of_ok rfl evaluated).1
    cases target : statement.target with
    | none =>
      rw [target] at bound
      cases bound
      obtain ⟨writes, made, rfl⟩ := ih plain later
      exact ⟨writes, .passed target evaluated made, rfl⟩
    | some name =>
      rw [target] at bound
      cases bound
      obtain ⟨writes, made, rfl⟩ :=
        ih (Scopes.tolerates_plain.define (Nat.zero_le _) name value₁ plain) later
      exact ⟨(name, value₁) :: writes, .bound target evaluated made, rfl⟩

/-! ### Names behind a front -/

theorem Text.dropFront?_eq_some {front text rest : List Char} :
    dropFront? front text = some rest ↔ text = front ++ rest := by
  induction front generalizing text with
  | nil => simp [dropFront?]
  | cons c front ih =>
    cases text with
    | nil => simp [dropFront?]
    | cons c' text =>
      by_cases same : c = c'
      · simp [dropFront?, same, ih]
      · simp [dropFront?, same, Ne.symm same]

theorem Text.stripFront?_eq_some {front text rest : String} :
    stripFront? front text = some rest ↔ text = front ++ rest := by
  rw [stripFront?, Option.map_eq_some_iff]
  constructor
  · rintro ⟨cs, dropped, rfl⟩
    rw [← String.toList_inj, Text.dropFront?_eq_some.1 dropped]
    simp
  · rintro rfl
    exact ⟨rest.toList, Text.dropFront?_eq_some.2 (by simp), by simp⟩

namespace Dict

variable {α : Type} {key : String} {value : α} {entries : List (String × α)}

theorem Sorted.filter {d : Dict α} (h : d.Sorted) (p : String × α → Bool) :
    (⟨d.entries.filter p⟩ : Dict α).Sorted := List.Pairwise.filter p h

theorem find?_of_mem (distinct : (entries.map (·.1)).Nodup) (member : (key, value) ∈ entries) :
    find? key entries = some value := by
  induction entries with
  | nil => cases member
  | cons head rest ih =>
    obtain ⟨k, v⟩ := head
    obtain ⟨fresh, others⟩ := List.nodup_cons.1 distinct
    rcases List.mem_cons.1 member with same | later
    · cases same
      simp [find?]
    · have differs : k ≠ key := by
        rintro rfl
        exact fresh (List.mem_map.2 ⟨_, later, rfl⟩)
      rw [find?, if_neg differs, ih others later]

theorem Sorted.mem_iff {d : Dict α} (h : d.Sorted) :
    (key, value) ∈ d.entries ↔ d.get? key = some value :=
  ⟨find?_of_mem h.nodup_keys, mem_of_find?⟩

/-- A binding is found if it is the last one for its key. -/
theorem find?_reverse_eq_some_iff :
    find? key entries.reverse = some value ↔
      ∃ before after, entries = before ++ (key, value) :: after ∧ key ∉ after.map (·.1) := by
  constructor
  · intro found
    induction entries using List.reverseRecOn with
    | nil => cases found
    | append_singleton entries binding ih =>
      obtain ⟨k, v⟩ := binding
      rw [List.reverse_append, List.reverse_singleton, List.singleton_append, find?] at found
      split at found
      · rename_i same
        cases found
        exact ⟨entries, [], by rw [same], by simp⟩
      · rename_i differs
        obtain ⟨before, after, rfl, last⟩ := ih found
        refine ⟨before, after ++ [(k, v)], by simp, ?_⟩
        simp only [List.map_append, List.mem_append, not_or]
        exact ⟨last, by simpa using Ne.symm differs⟩
  · rintro ⟨before, after, rfl, last⟩
    rw [List.reverse_append, List.reverse_cons, List.append_assoc, find?_append,
      find?_eq_none_iff.2 (by simpa using last)]
    simp [find?]

/-- Bindings of names with a front are kept apart from all others. -/
theorem filter_foldl_insert {base own : Dict α} (sorted : base.Sorted) (ordered : own.Sorted)
    {front : String} (clear : ∀ name, Text.startsWith front name = true → base.get? name = none) :
    ((own.entries.filter (Text.startsWith front ·.1)).foldl (fun d (name, value) => d.insert name value)
        base).entries.filter (Text.startsWith front ·.1) =
      own.entries.filter (Text.startsWith front ·.1) ∧
    ((own.entries.filter (Text.startsWith front ·.1)).foldl (fun d (name, value) => d.insert name value)
        base).entries.filter (!Text.startsWith front ·.1) = base.entries := by
  -- both sides are sorted, so it is enough to compare what is found under each name
  have all := sorted.foldl_insert (own.entries.filter (Text.startsWith front ·.1))
  have bound (name : String) :
      ((own.entries.filter (Text.startsWith front ·.1)).foldl
        (fun d (name, value) => d.insert name value) base).get? name =
        if Text.startsWith front name then own.get? name else base.get? name := by
    have distinct := (ordered.filter (Text.startsWith front ·.1)).nodup_keys
    rw [get?_foldl_insert, find?_reverse distinct, find?_filter]
    cases starts : Text.startsWith front name with
    | true =>
      rw [clear name starts, Option.or_none]
      rfl
    | false => simp
  constructor
  · refine congrArg entries ((all.filter _).ext (ordered.filter _) fun name => ?_)
    have found := bound name
    unfold get? at found ⊢
    rw [find?_filter, find?_filter, found]
    cases Text.startsWith front name <;> simp
  · refine congrArg entries ((all.filter _).ext sorted fun name => ?_)
    have found := bound name
    unfold get? at found clear ⊢
    rw [find?_filter (fun name => !Text.startsWith front name), found]
    cases starts : Text.startsWith front name with
    | true => simp [clear name starts]
    | false => simp

end Dict

namespace Scopes

variable {s : Scopes} {scope : ScopeId} {own : Dict Value} {front : String}

theorem filterMap_stripFront? (entries : List (String × Value)) :
    (entries.filter (Text.startsWith front ·.1)).filterMap
        (fun (name, value) => (Text.stripFront? front name).map (·, value)) =
      entries.filterMap fun (name, value) => (Text.stripFront? front name).map (·, value) := by
  rw [List.filterMap_filter]
  refine List.filterMap_congr fun binding _ => ?_
  cases stripped : Text.stripFront? front binding.1 with
  | none => simp [stripped, Text.startsWith]
  | some rest => simp [stripped, Text.startsWith]

theorem modify_of_fixed (live : scope.index < s.depth) {f : Frame → Frame}
    (fixed : f s.frames[scope.index] = s.frames[scope.index]) : s.modify scope f = s := by
  refine congrArg Scopes.mk (List.ext_getElem? fun i => ?_)
  rw [List.getElem?_modify]
  by_cases here : scope.index = i
  · subst here
    have there : s.frames[scope.index]? = some s.frames[scope.index] := List.getElem?_eq_getElem live
    simp [there, fixed]
  · simp [here]

theorem modify_modify (f g : Frame → Frame) :
    (s.modify scope f).modify scope g = s.modify scope (g ∘ f) := by
  rw [modify, modify, List.modify_modify_eq]
  rfl

/-- Names with a front that have been defined in a scope are those there, and forgetting them leaves
the scopes as they were. -/
theorem taken_of_defineAll (live : scope.index < s.depth) (sorted : (s.locals scope).Sorted)
    (ordered : own.Sorted)
    (clear : ∀ name, Text.startsWith front name = true → (s.locals scope).get? name = none) :
    (s.defineAll scope (own.entries.filter (Text.startsWith front ·.1))).localsBehind scope front =
      own.entries.filterMap (fun (name, value) => (Text.stripFront? front name).map (·, value)) ∧
    (s.defineAll scope (own.entries.filter (Text.startsWith front ·.1))).dropLocals scope front = s := by
  have there : s.frame? scope = some s.frames[scope.index] := List.getElem?_eq_getElem live
  have here : s.locals scope = s.frames[scope.index].bindings := by rw [locals, there]; rfl
  have bound : (s.defineAll scope (own.entries.filter (Text.startsWith front ·.1))).locals scope =
      (own.entries.filter (Text.startsWith front ·.1)).foldl
        (fun d (name, value) => d.insert name value) (s.locals scope) := by
    simp [locals, frame?_defineAll_self, there]
  obtain ⟨inside, outside⟩ := Dict.filter_foldl_insert sorted ordered clear
  constructor
  · rw [localsBehind, ← filterMap_stripFront?, bound, inside, filterMap_stripFront?]
  · rw [here] at outside
    rw [defineAll_eq_modify, dropLocals, modify_modify]
    refine modify_of_fixed live ?_
    exact congrArg (fun entries => { s.frames[scope.index] with bindings := ⟨entries⟩ }) outside

end Scopes

/-! ### Constructors -/

/-- The paths behind `this.` that have been bound, in the order of their texts, each with the value of
the last binding. -/
structure Constructor.LastWrites (bindings pairs : List (String × Value)) : Prop where
  sorted : (⟨pairs⟩ : Dict Value).Sorted
  last : ∀ path value, (path, value) ∈ pairs ↔ ∃ before after,
    bindings = before ++ (self ++ path, value) :: after ∧ self ++ path ∉ after.map (·.1)

namespace Constructor

/-- What has been bound behind `this.`, in the order of the bindings. -/
def written (bindings : List (String × Value)) : List (String × Value) :=
  bindings.filterMap fun (name, value) => (Text.stripFront? self name).map (·, value)

theorem mem_written {bindings : List (String × Value)} {path : String} {value : Value} :
    (path, value) ∈ written bindings ↔ (self ++ path, value) ∈ bindings := by
  rw [written, List.mem_filterMap]
  constructor
  · rintro ⟨⟨name, value'⟩, member, known⟩
    obtain ⟨path', stripped, same⟩ := Option.map_eq_some_iff.1 known
    cases same
    rwa [← Text.stripFront?_eq_some.1 stripped]
  · intro member
    have stripped : Text.stripFront? self (self ++ path) = some path :=
      Text.stripFront?_eq_some.2 rfl
    exact ⟨_, member, by simp [stripped]⟩

theorem lastWrites_of_bindings (bindings : List (String × Value)) :
    LastWrites bindings (written (Dict.ofList bindings).entries) where
  sorted := by
    refine List.Pairwise.filterMap _ (fun a b before a' known b' known' => ?_) (Dict.Sorted.ofList bindings)
    obtain ⟨path, stripped, rfl⟩ := Option.map_eq_some_iff.1 known
    obtain ⟨path', stripped', rfl⟩ := Option.map_eq_some_iff.1 known'
    rw [Text.stripFront?_eq_some.1 stripped, Text.stripFront?_eq_some.1 stripped',
      String.lt_iff_toList_lt] at before
    rw [String.lt_iff_toList_lt]
    simpa [self, List.cons_lt_cons_iff] using before
  last path value := by
    rw [← Dict.find?_reverse_eq_some_iff, ← Dict.get?_ofList, ← (Dict.Sorted.ofList bindings).mem_iff,
      mem_written]

/-- If each path is bound once, the order is all that is lost. -/
theorem LastWrites.perm {bindings pairs : List (String × Value)} (h : LastWrites bindings pairs)
    (once : ((written bindings).map (·.1)).Nodup) : pairs.Perm (written bindings) := by
  refine (List.perm_ext_iff_of_nodup h.sorted.nodup_keys.of_map once.of_map).2 ?_
  rintro ⟨path, value⟩
  rw [h.last, mem_written]
  constructor
  · rintro ⟨before, after, rfl, -⟩
    simp
  · intro member
    obtain ⟨before, after, rfl⟩ := List.append_of_mem member
    refine ⟨before, after, rfl, fun again => ?_⟩
    obtain ⟨⟨name, value'⟩, later, same⟩ := List.mem_map.1 again
    cases same
    have stripped : Text.stripFront? self (self ++ path) = some path :=
      Text.stripFront?_eq_some.2 rfl
    have twice : path ∈ (written after).map (·.1) := List.mem_map_of_mem (mem_written.2 later)
    have split : written (before ++ (self ++ path, value) :: after) =
        written before ++ (path, value) :: written after := by
      simp [written, stripped]
    rw [split, List.map_append, List.map_cons] at once
    exact (List.nodup_cons.1 (List.nodup_append.1 once).2.1).1 twice

/-- A constructor that succeeds has bound what its parameters and statements bind in its frame, as far
as the names are behind `this.`. -/
theorem execute_eq_ok {typeName : String} {parameters : List String} {statements : List Statement}
    {origin : Lexeme} {s t : Scopes} (plain : s.Plain) {scope : ScopeId}
    (live : scope.index < s.depth) {arguments : List Value} {value : Value}
    (ran : (make typeName parameters statements origin).routine.execute Scopes.call scope arguments s =
      .ok value t) :
    ∃ writes, Scopes.Writes s.next
        ((make typeName parameters statements origin).routine.entered scope arguments s) statements
        writes ∧
      t = s.defineAll scope
        ((Dict.ofList (Routine.bindings 1 parameters arguments ++ writes)).entries.filter
          (Text.startsWith self ·.1)) := by
  have calls : ∀ scope name values, Scopes.Atomic scope (Scopes.call scope name values) :=
    Scopes.atomic_callWithin Scopes.callLimit
  rw [Routine.execute_eq] at ran
  split at ran
  · cases ran
  change Routine.runScript Scopes.call _ statements scope arguments s = _ at ran
  rw [Routine.runScript_eq calls _ statements arguments live] at ran
  split at ran
  · rename_i value' u run
    cases ran
    have started : ((make typeName parameters statements origin).routine.entered scope arguments s).Plain :=
      Scopes.tolerates_plain.defineAll (Nat.zero_le _) _
        (Scopes.tolerates_plain.push .subscope scope plain)
    obtain ⟨writes, made, rfl⟩ := started.exists_writes run
    refine ⟨writes, made, ?_⟩
    -- the frame was empty when it was pushed, so all its bindings have been made since
    have own : (((make typeName parameters statements origin).routine.entered scope arguments
        s).defineAll s.next writes).locals s.next =
          Dict.ofList (Routine.bindings 1 parameters arguments ++ writes) := by
      rw [Routine.entered, ← Scopes.defineAll_append, Scopes.locals, Scopes.frame?_defineAll_self,
        Scopes.frame?_push]
      rfl
    have watched (name : String) :
        (make typeName parameters statements origin).routine.isWatched name =
          Text.startsWith self name := by
      simp [Routine.isWatched, make, Watch.covers]
    rw [own]
    simp only [watched]
  · cases ran

end Constructor

/-! ### Assignments of values -/

/-- The assignment is that of a value to a path. -/
def Assignment.Sets (a : Assignment) (pair : String × Value) : Prop :=
  a.path = pair.1.splitOn "." ∧ ∃ operand, a.operands = [operand] ∧ operand.Denotes pair.2

theorem Assignment.exists_sets (origin : Lexeme) (pairs : List (String × Value)) :
    ∃ body, List.Forall₂ Assignment.Sets body pairs := by
  refine ⟨pairs.map fun pair => ⟨pair.1.splitOn ".", [⟨.literal pair.2, origin⟩], origin⟩, ?_⟩
  rw [List.forall₂_map_left_iff]
  exact List.forall₂_same.2 fun pair _ => ⟨rfl, _, rfl, Operand.denotes_literal _ _⟩

namespace TypeDef

variable {d : TypeDef} {scope : ScopeId} {r r' : Record} {keyword : Lexeme} {scopes : Scopes}

section Denotes

variable {operand operand' : Operand} {value : Value} (h : operand.Denotes value)
  (h' : operand'.Denotes value)
include h h'

theorem assignValues_of_denotes (d : TypeDef) (scope : ScopeId) (front : String) (r : Record)
    (values : List FieldValue) :
    d.assignValues scope front r values [operand] = d.assignValues scope front r values [operand'] := by
  cases values with
  | nil => rfl
  | cons v rest =>
    simp only [assignValues, List.zip_cons_cons, List.zip_nil_right, List.foldlM_cons,
      assignValue_of_denotes h, assignValue_of_denotes h']

variable {scopes : Scopes} {scope : ScopeId} {r r' : Record}

theorem yields_assignField_of_denotes {d : TypeDef} {front : String} {field : Field}
    (run : Yields scopes (d.assignField scope front r field [operand]) (.ok r')) :
    Yields scopes (d.assignField scope front r field [operand']) (.ok r') := by
  unfold assignField at run ⊢
  simp only [assignValues_of_denotes h h'] at run
  cases length : field.values.length with
  | zero =>
    rw [length] at run
    cases run.unique (Update.Gives.bind_error fun s same => ⟨rfl, same⟩)
  | succ n =>
    rw [length] at run
    exact run

end Denotes

section Steps

variable {d : TypeDef} {scopes : Scopes} {scope : ScopeId} {r r' : Record} {target : Target}
  {operands : List Operand} {front : String} {path : List String} {origin : Lexeme}

theorem assign_of_whole (found : d.targetOf? path = some target) (ends : target.inner = [])
    (value : target.value = none) :
    d.assign scope origin operands r front path = (do
      warnDeprecated target.field origin
      d.assignField scope front r target.field operands) := by
  rw [assign]
  split
  · simp_all
  · rename_i target' found'
    obtain rfl : target' = target := by simpa [found'] using found
    simp [ends, value]

variable (plain : scopes.Plain)
include plain

/-- A change in the same place that gives the same results. -/
theorem yields_changeAt {field : Field} {change change' : String → Record → Update Record}
    (inner : ∀ front entry, Scoped scopes.depth (change front entry))
    (inner' : ∀ front entry, Scoped scopes.depth (change' front entry))
    (same : ∀ front entry entry', Yields scopes (change front entry) (.ok entry') →
      Yields scopes (change' front entry) (.ok entry'))
    (run : Yields scopes (d.changeAt scope field front change r) (.ok r')) :
    Yields scopes (d.changeAt scope field front change' r) (.ok r') := by
  unfold changeAt at run ⊢
  split
  · rename_i repeats
    rw [if_pos repeats] at run
    obtain ⟨fresh, made⟩ := (d.scoped_defaultEntry scope field).settled plain
    choose answers ran using fun front entry => (inner front entry).settled plain
    choose others reran using fun front entry => (inner' front entry).settled plain
    have focused := (yields_updateLast made (ran "") (front ++ field.name) r).unique run
    have focused' := yields_updateLast (d := d) made (reran "") (front ++ field.name) r
    obtain ⟨elements, entry, there, changed, rfl⟩ := Record.focusLast_eq_ok_iff.1 focused
    have step := same "" _ entry (changed ▸ ran "" _)
    have equal := Record.focusLast_eq_ok_iff.2 ⟨elements, entry, there, (reran "" _).unique step, rfl⟩
    rwa [equal] at focused'
  · rename_i single
    rw [if_neg single] at run
    exact same _ _ _ run

/-- An assignment of a value gives the same, however the value is written and wherever it stands. -/
theorem yields_assign_of_denotes {operand operand' : Operand} {value : Value}
    (h : operand.Denotes value) (h' : operand'.Denotes value) (origin origin' : Lexeme) (d : TypeDef)
    (r r' : Record) (front : String) (path : List String)
    (run : Yields scopes (d.assign scope origin [operand] r front path) (.ok r')) :
    Yields scopes (d.assign scope origin' [operand'] r front path) (.ok r') := by
  obtain ⟨target, found, ⟨ends, value, assigned⟩ | ⟨v, only, ends, value, single, assigned⟩ |
    ⟨v, t, goesOn, value, nested, assigned⟩⟩ := assign_cases plain run
  · rw [assign_of_whole found ends value]
    exact yields_warned (yields_assignField_of_denotes h h' assigned)
  · cases single
    have held : target.container? = some v := by rw [Target.container?, value]
    rw [assign_of_ends found ends (fun _ => by rw [value]; rfl) held]
    refine yields_warned ?_
    simpa only [assignValue_of_denotes h, assignValue_of_denotes h'] using assigned
  · have shorter : target.inner.length < path.length := length_inner_lt found
    rw [assign_of_goesOn found goesOn value nested]
    refine yields_warned (yields_changeAt plain (fun _ _ => scoped_assign ..)
      (fun _ _ => scoped_assign ..) (fun front entry entry' step => ?_) assigned)
    exact yields_assign_of_denotes h h' origin origin' t entry entry' _ target.inner step
termination_by path.length

end Steps

/-- Assigns a value that a constructor has bound to a path. -/
def assignBound (d : TypeDef) (scope : ScopeId) (keyword : Lexeme) (r : Record)
    (pair : String × Value) : Update Record :=
  d.assign scope keyword [⟨.literal pair.2, keyword⟩] r "" (pair.1.splitOn ".")

/-- A constructor that succeeds is followed by assignments of what it has bound, in the scopes from
before it. -/
theorem runConstructor_eq_ok {typeName : String} {parameters : List String}
    {statements : List Statement} {origin : Lexeme} {values : List Value} {s t : Session}
    (plain : s.scopes.Plain) (live : scope.index < s.scopes.depth)
    (sorted : (s.scopes.locals scope).Sorted)
    (clear : ∀ name, Text.startsWith Constructor.self name = true →
      (s.scopes.locals scope).get? name = none)
    (found : d.constructor? values.length = some (.make typeName parameters statements origin))
    (ran : d.runConstructor scope keyword r values s = .ok r' t) :
    ∃ writes pairs, Scopes.Writes s.scopes.next ((Constructor.make typeName parameters statements
        origin).routine.entered scope values s.scopes) statements writes ∧
      Constructor.LastWrites (Routine.bindings 1 parameters values ++ writes) pairs ∧ s.Still t ∧
      Yields s.scopes (pairs.foldlM (d.assignBound scope keyword) r) (.ok r') := by
  unfold runConstructor at ran
  rw [found] at ran
  obtain ⟨value, s₁, evaluated, rest⟩ := bind_eq_ok ran
  obtain ⟨_, _, got, rest₁⟩ := bind_eq_ok rest
  cases got
  obtain ⟨_, s₂, dropped, assigned⟩ := bind_eq_ok rest₁
  cases dropped
  unfold Update.evaluate at evaluated
  split at evaluated
  · rename_i value' scopes' executed
    cases evaluated
    obtain ⟨writes, made, rfl⟩ := Constructor.execute_eq_ok plain live executed
    -- what has been exported is taken again, which leaves the scopes from before the call
    obtain ⟨taken, left⟩ := Scopes.taken_of_defineAll live sorted (Dict.Sorted.ofList _) clear
    dsimp only at assigned
    rw [taken, left] at assigned
    change List.foldlM (d.assignBound scope keyword) r _ s = _ at assigned
    have confined (pairs : List (String × Value)) :
        Update.Scoped s.scopes.depth (pairs.foldlM (d.assignBound scope keyword) r) :=
      .foldlM (fun _ _ => scoped_assign ..) r
    exact ⟨writes, _, made, Constructor.lastWrites_of_bindings _,
      (((Session.stable_still plain).tame (confined _).toTame).of_ok (.refl s) assigned).1,
      (((confined _).settled plain).of_ok assigned).1⟩
  · cases evaluated

/-- What the values of a constructor come to, assignments of the same values to the same paths come to
in a body. -/
theorem yields_body_of_sets (plain : scopes.Plain) {body : List Assignment}
    {pairs : List (String × Value)} (sets : List.Forall₂ Assignment.Sets body pairs)
    (run : Yields scopes (pairs.foldlM (d.assignBound scope keyword) r) (.ok r')) :
    Yields scopes (body.foldlM (d.carryOut scope) r) (.ok r') := by
  induction sets generalizing r with
  | nil => exact run
  | cons set rest ih =>
    obtain ⟨path, operand, only, denotes⟩ := set
    obtain ⟨r₁, first, later⟩ := run.foldlM_cons_eq_ok plain fun _ _ => scoped_assign ..
    rw [List.foldlM_cons]
    refine Update.Gives.bind ?_ (ih later)
    rw [carryOut, path, only]
    exact yields_assign_of_denotes plain (Operand.denotes_literal _ _) denotes _ _ d r r₁ "" _ first

/-! ### Orders of assignments -/

/-- Assignments to paths that lead to different values can be made in any order. -/
theorem yields_of_perm (plain : scopes.Plain) {pairs pairs' : List (String × Value)}
    (perm : pairs.Perm pairs') {key : String → String}
    (leads : ∀ pair ∈ pairs, ∃ v, LeadsTo (key pair.1) v d "" (pair.1.splitOn "."))
    (apart : (pairs.map (key ·.1)).Nodup)
    (run : Yields scopes (pairs.foldlM (d.assignBound scope keyword) r) (.ok r')) :
    Yields scopes (pairs'.foldlM (d.assignBound scope keyword) r) (.ok r') := by
  induction perm generalizing r with
  | nil => exact run
  | cons pair perm ih =>
    obtain ⟨r₁, first, later⟩ := run.foldlM_cons_eq_ok plain fun _ _ => scoped_assign ..
    rw [List.foldlM_cons]
    exact Update.Gives.bind first (ih (fun p member => leads p (List.mem_cons_of_mem _ member))
      (List.nodup_cons.1 apart).2 later)
  | swap pair pair' rest =>
    obtain ⟨r₁, first, later⟩ := run.foldlM_cons_eq_ok plain fun _ _ => scoped_assign ..
    obtain ⟨r₂, second, later⟩ := later.foldlM_cons_eq_ok plain fun _ _ => scoped_assign ..
    -- what each of the two sets, and under which key, does not depend on the record
    have sets (p : String × Value) (known : p = pair ∨ p = pair') : ∃ value bound, ∀ r,
        Yields scopes (d.assignBound scope keyword r p)
          (bound >>= fun _ : Unit => .ok (r.set (key p.1) value)) := by
      obtain ⟨v, leads⟩ := leads p (by rcases known with rfl | rfl <;> simp)
      obtain ⟨bound, binds⟩ := (scoped_symbols scope v.symbols).settled plain
      exact ⟨_, bound, leads.yields_assign binds (Operand.denotes_literal ..) keyword⟩
    obtain ⟨value, bound, runs⟩ := sets pair (.inl rfl)
    obtain ⟨value', bound', runs'⟩ := sets pair' (.inr rfl)
    have differ : key pair.1 ≠ key pair'.1 := by
      intro same
      simp [same] at apart
    obtain ⟨_, rfl, same'⟩ := exists_of_bind_eq_ok ((runs' r).unique first)
    cases same'
    obtain ⟨_, rfl, same⟩ := exists_of_bind_eq_ok ((runs _).unique second)
    cases same
    rw [Record.set, Record.set, Dict.insert, Dict.insert, Dict.put_comm differ] at later
    refine Update.Gives.bind (runs r) ?_
    exact Update.Gives.bind (runs' _) later
  | trans perm perm' ih ih' =>
    exact ih' (fun p member => leads p (perm.mem_iff.2 member))
      ((perm.map _).nodup_iff.1 apart) (ih leads apart run)

theorem yields_complete_append {front back : List Assignment} {r'' : Record}
    (first : Yields scopes (front.foldlM (d.carryOut scope) r) (.ok r'))
    (rest : Yields scopes (d.complete scope back r') (.ok r'')) :
    Yields scopes (d.complete scope (front ++ back) r) (.ok r'') := by
  rw [complete, List.foldlM_append, bind_assoc]
  exact Update.Gives.bind first rest

end TypeDef

/-! ### Plans without a name -/

namespace BlockKind

/-- The references among arguments. -/
def references (arguments : List Argument) : List Reference :=
  (arguments.filterMap (·.reference?)).map (·.reference)

/-- The plan of a new resource for which no name is given. -/
theorem plan_unnamed_eq_ok_iff {d : TypeDef} {container : Option String} {keyword : Lexeme}
    {arguments : List Argument} {s t : Session} {plan : BlockPlan}
    (unnamed : naming? d arguments = some {}) :
    BlockKind.new.plan d container keyword arguments s = .ok plan t ↔
      t = s ∧ (references arguments).length ≤ 1 ∧
      s.slot d container (references arguments).head? = .ok plan.reference ∧
      s.resource? plan.reference = none ∧
      plan = { reference := plan.reference, name := "",
               constructor :=
                if (d.constructor? (arguments.filter (·.reference?.isNone)).length).isSome then
                  some ((arguments.filter (·.reference?.isNone)).map (·.value)) else none } := by
  have explained (found : Option GivenReference) : explicit found {} = pure found := by
    cases found <;> rfl
  rw [plan_new_eq_ok_iff, references, List.length_map, List.head?_map]
  constructor
  · rintro ⟨rfl, few, naming, given, named, explicit, place, free, built⟩
    obtain rfl : {} = naming := Option.some.inj (unnamed.symm.trans named)
    obtain rfl := (EStateM.Result.ok.inj (congrFun ((explained _).symm.trans explicit) {})).1
    exact ⟨rfl, few, place, free, built⟩
  · rintro ⟨rfl, few, place, free, built⟩
    exact ⟨rfl, few, {}, _, unnamed, explained _, place, free, built⟩

/-- The plan of a new resource for which nothing but references is given. -/
theorem plan_references_eq_ok_iff {d : TypeDef} {container : Option String} {keyword : Lexeme}
    {arguments : List Argument} {s t : Session} {plan : BlockPlan}
    (without : d.constructor? 0 = none) (only : ∀ a ∈ arguments, a.reference?.isSome = true) :
    BlockKind.new.plan d container keyword arguments s = .ok plan t ↔
      t = s ∧ (references arguments).length ≤ 1 ∧
      s.slot d container (references arguments).head? = .ok plan.reference ∧
      s.resource? plan.reference = none ∧ plan = { reference := plan.reference, name := "" } := by
  have others : arguments.filter (·.reference?.isNone) = [] := by
    rw [List.filter_eq_nil_iff]
    intro a member
    simpa [Option.isSome_iff_ne_none] using only a member
  have unnamed : naming? d arguments = some {} := by simp [naming?, others, without, Naming.ofArguments?]
  rw [plan_unnamed_eq_ok_iff unnamed, others]
  simp [without]

end BlockKind

/-! ### Values of blocks -/

theorem Session.Alike.slot {s t : Session} (h : s.Alike t) : t.slot = s.slot := by
  rw [← h]
  rfl

namespace BlockPlan

/-- The values of the resource of a block that is planned, with assignments in its body. -/
def values (plan : BlockPlan) (d : TypeDef) (keyword : Lexeme) (body : List Assignment) :
    Update Record := do
  let scope ← plan.openScope
  let r ← plan.initial d scope keyword
  let r ← d.complete scope body r
  return (← get).withCodes r

theorem sorted_frame (plan : BlockPlan) : plan.frame.bindings.Sorted :=
  (Dict.Sorted.empty.insert _ _).insert _ _

/-- No name behind `this.` is bound before a constructor runs. -/
theorem get?_frame_self (plan : BlockPlan) {name : String}
    (starts : Text.startsWith Constructor.self name = true) : plan.frame.bindings.get? name = none := by
  have unnamed : name ≠ "name" := by
    rintro rfl
    exact absurd starts (by decide)
  have unnumbered : name ≠ "id" := by
    rintro rfl
    exact absurd starts (by decide)
  rw [plan.get?_frame, if_neg unnamed, if_neg unnumbered]

/-- Without a constructor, the values are what the body makes of defaults in the scopes of the block. -/
theorem exists_values {plan : BlockPlan} (fresh : plan.start = none) (alone : plan.constructor = none)
    {s : Session} {d : TypeDef} {body : List Assignment} {r r' : Record}
    (first : Yields (plan.scopesOf s.scopes) (d.defaults s.scopes.next {} "") (.ok r))
    (rest : Yields (plan.scopesOf s.scopes) (d.complete s.scopes.next body r) (.ok r'))
    (keyword : Lexeme) : ∃ t, plan.values d keyword body s = .ok (s.withCodes r') t := by
  have initial : plan.initial d s.scopes.next keyword = d.defaults s.scopes.next {} "" := by
    unfold BlockPlan.initial
    rw [fresh, alone]
    exact bind_pure _
  have confined : Update.Scoped 0 (d.complete s.scopes.next body r) :=
    .bind (.foldlM (fun _ _ => d.scoped_assign ..) r) fun _ => d.scoped_pad ..
  have opened : plan.openScope s =
      .ok s.scopes.next { s with scopes := plan.scopesOf s.scopes } := rfl
  obtain ⟨s₁, made, scopes⟩ := first.exists_ok (s := { s with scopes := plan.scopesOf s.scopes }) rfl
  obtain ⟨s₂, completed, -⟩ := rest.exists_ok scopes
  have start : s.Alike { s with scopes := plan.scopesOf s.scopes } := rfl
  have alike₁ : s.Alike s₁ :=
    (((TypeDef.scoped_defaults (n := 0) s.scopes.next d {} "").toTame.alike s).of_ok start made).1
  have alike₂ : s.Alike s₂ := ((confined.toTame.alike s).of_ok alike₁ completed).1
  refine ⟨s₂, (bind_of_ok opened).trans ?_⟩
  rw [initial]
  refine (bind_of_ok made).trans ((bind_of_ok completed).trans ?_)
  rw [← alike₂.withCodes]
  rfl

end BlockPlan

namespace Parse

namespace BlockRun

variable {d : TypeDef} {container : Option String} {st : ParseState} (run : BlockRun d container st)

/-- The values of the arguments that are no references. -/
def constants : List Value := (run.arguments.filter (·.reference?.isNone)).map (·.value)

/-- A block without a constructor, whose body begins with these assignments and goes on as that of the
block, is accepted where the block is, and makes the same values. -/
def SameWith (given : List Argument) (body : List Assignment) : Prop :=
  (∀ keyword', ∃ s, (do
    let plan ← BlockKind.new.plan d container keyword' given
    plan.values d keyword' (body ++ run.assignments)) run.headed.session =
      .ok run.resource.values s) ∧
  ∀ (st' : ParseState) (run' : BlockRun d container st'), st'.session = st.session →
    run'.kind = .new → run'.arguments = given → run'.assignments = body ++ run.assignments →
      run'.resource.values = run.resource.values

variable {typeName : String} {parameters : List String} {statements : List Statement} {origin : Lexeme}
  (plain : st.session.Plain) (kind : run.kind = .new)
  (built : d.constructor? (run.arguments.filter (·.reference?.isNone)).length =
    some (.make typeName parameters statements origin))
include kind built

theorem plan_of_built :
    run.planned = run.headed.session ∧ (BlockKind.references run.arguments).length ≤ 1 ∧
      run.headed.session.slot d container (BlockKind.references run.arguments).head? =
        .ok run.plan.reference ∧
      run.headed.session.resource? run.plan.reference = none ∧
      run.plan = { reference := run.plan.reference, name := "",
                   constructor := some run.constants } := by
  have plans := run.plans
  have unnamed : BlockKind.naming? d run.arguments = some {} := by simp [BlockKind.naming?, built]
  rw [kind, BlockKind.plan_unnamed_eq_ok_iff unnamed, built] at plans
  exact plans

include plain

/-- Before the body, a block with a constructor has assigned to defaults what the constructor has
bound. -/
theorem yields_constructed :
    ∃ r writes pairs,
      Scopes.Writes run.opened.scopes.next ((Constructor.make typeName parameters statements
        origin).routine.entered run.scope run.constants run.opened.scopes) statements writes ∧
      Constructor.LastWrites (Routine.bindings 1 parameters run.constants ++ writes) pairs ∧
      run.opened.Still run.begun ∧ Yields run.opened.scopes (d.defaults run.scope {} "") (.ok r) ∧
      Yields run.opened.scopes (pairs.foldlM (d.assignBound run.scope run.keyword) r)
        (.ok run.first) := by
  have plain := run.plain_opened plain
  obtain ⟨-, -, -, -, plan⟩ := run.plan_of_built kind built
  have fresh : run.plan.start = none := by rw [plan]
  have constructed : run.plan.constructor = some run.constants := by rw [plan]
  have begins := run.begins
  unfold BlockPlan.initial at begins
  rw [fresh, constructed] at begins
  obtain ⟨r, s, made, ran⟩ := bind_eq_ok begins
  have tame := (Session.stable_still plain).tame (TypeDef.scoped_defaults run.scope d {} "").toTame
  have still : run.opened.Still s := (tame.of_ok (.refl _) made).1
  have defaults := (((d.scoped_defaults ..).settled plain).of_ok made).1
  have frame : s.scopes.frame? run.scope = some run.plan.frame := by
    rw [still.scopes, run.opened_eq, run.scope_eq]
    exact run.plan.frame?_scopesOf _
  have live : run.scope.index < s.scopes.depth := (List.getElem?_eq_some_iff.1 frame).1
  have locals : s.scopes.locals run.scope = run.plan.frame.bindings := by
    rw [Scopes.locals, frame]
    rfl
  rw [← still.scopes] at plain defaults ⊢
  obtain ⟨writes, pairs, written, last, later, assigned⟩ := TypeDef.runConstructor_eq_ok plain live
    (locals ▸ run.plan.sorted_frame) (fun name starts => locals ▸ run.plan.get?_frame_self starts)
    (by rwa [constants, List.length_map]) ran
  exact ⟨r, writes, pairs, written, last, still.trans later, defaults, assigned⟩

/-- Any body that comes to what the constructor's values come to makes the same values. -/
theorem sameWith_of_yields (without : d.constructor? 0 = none) {r : Record}
    (still : run.opened.Still run.begun)
    (defaults : Yields run.opened.scopes (d.defaults run.scope {} "") (.ok r))
    {given : List Argument} {body : List Assignment} (only : ∀ a ∈ given, a.reference?.isSome = true)
    (same : BlockKind.references given = BlockKind.references run.arguments)
    (ran : Yields run.opened.scopes (body.foldlM (d.carryOut run.scope) r) (.ok run.first)) :
    run.SameWith given body := by
  obtain ⟨planned, few, place, free, plan⟩ := run.plan_of_built kind built
  have completed : Yields run.opened.scopes (d.complete run.scope (body ++ run.assignments) r)
      (.ok run.padded) :=
    TypeDef.yields_complete_append ran (run.yields_complete plain still)
  have nameless : run.plan.name = "" := by rw [plan]
  constructor
  · -- the block with the assignments, planned where this block was planned
    intro keyword'
    have scopes : run.opened.scopes = BlockPlan.scopesOf { reference := run.plan.reference, name := "" }
        run.headed.session.scopes := by
      rw [run.opened_eq, planned, ← nameless]
      rfl
    have scope : run.scope = run.headed.session.scopes.next := by rw [run.scope_eq, planned]
    rw [scopes, scope] at defaults completed
    obtain ⟨s, values⟩ := BlockPlan.exists_values rfl rfl defaults completed keyword'
    have plans' : BlockKind.new.plan d container keyword' given run.headed.session =
        .ok { reference := run.plan.reference, name := "" } run.headed.session := by
      rw [BlockKind.plan_references_eq_ok_iff without only, same]
      exact ⟨rfl, few, place, free, rfl⟩
    refine ⟨s, (bind_of_ok plans').trans ?_⟩
    rw [values, run.values_eq, run.alike_headed.withCodes]
  · -- a block with the assignments that has been read has the same slot, and so the same scope
    intro st' run' session kind' arguments' assignments'
    have plans' := run'.plans
    rw [kind', arguments', BlockKind.plan_references_eq_ok_iff without only, same] at plans'
    obtain ⟨-, -, place', -, plan'⟩ := plans'
    rw [run'.alike_headed.slot, session, ← run.alike_headed.slot, place] at place'
    have reference : run'.plan.reference = run.plan.reference := (Except.ok.inj place').symm
    have name : run'.plan.name = run.plan.name := by rw [plan', nameless]
    obtain ⟨scopes, scope⟩ := run.opened_of_session run' plain session reference name
    rw [← scopes, ← scope] at defaults completed
    rw [← assignments'] at completed
    have plain' : st'.session.scopes.Plain := by rwa [session]
    rw [run'.values_of_complete plain' (by rw [plan']) (by rw [plan']) defaults completed,
      run.values_eq, session]

/-- Where the constructor binds paths that lead to different values, its values are also those of a body
which makes the assignments in the order of the statements. -/
theorem sameWith_in_order (without : d.constructor? 0 = none) :
    ∃ writes, Scopes.Writes run.opened.scopes.next ((Constructor.make typeName parameters statements
        origin).routine.entered run.scope run.constants run.opened.scopes) statements writes ∧
      let made := Constructor.written (Routine.bindings 1 parameters run.constants ++ writes)
      ∀ (given : List Argument) (body : List Assignment) (key : String → String),
        (∀ a ∈ given, a.reference?.isSome = true) →
        BlockKind.references given = BlockKind.references run.arguments →
        (∀ pair ∈ made, ∃ v, TypeDef.LeadsTo (key pair.1) v d "" (pair.1.splitOn ".")) →
        (made.map (key ·.1)).Nodup → List.Forall₂ Assignment.Sets body made →
          run.SameWith given body := by
  obtain ⟨r, writes, pairs, written, last, still, defaults, assigned⟩ :=
    run.yields_constructed plain kind built
  refine ⟨writes, written, fun given body key only same leads apart sets => ?_⟩
  have perm := last.perm (List.Nodup.of_map key (by rwa [List.map_map]))
  have ordered := TypeDef.yields_of_perm (run.plain_opened plain) perm
    (fun pair member => leads pair (perm.mem_iff.1 member)) ((perm.map _).nodup_iff.2 apart) assigned
  exact run.sameWith_of_yields plain kind built without still defaults only same
    (TypeDef.yields_body_of_sets (run.plain_opened plain) sets ordered)

end BlockRun

/-- A new resource that a constructor makes has the values that a body gives it which assigns what the
constructor has bound: to each path the last value, in the order of the texts of the paths. -/
theorem constructor_assigns {st t u : ParseState} {d : TypeDef} {container : Option String}
    {keyword : Lexeme} {arguments : List Argument} {typeName : String} {parameters : List String}
    {statements : List Statement} {origin : Lexeme} (plain : st.session.Plain)
    (without : d.constructor? 0 = none)
    (head : blockHead st = .ok (some (.new, keyword, arguments)) u)
    (built : d.constructor? (arguments.filter (·.reference?.isNone)).length =
      some (.make typeName parameters statements origin))
    (accepted : resourceBlock d container st = .ok () t) :
    ∃ (run : BlockRun d container st) (values : List Value) (writes pairs : List (String × Value)),
      t = run.result ∧ values = (arguments.filter (·.reference?.isNone)).map (·.value) ∧
      Scopes.Writes run.opened.scopes.next ((Constructor.make typeName parameters statements
        origin).routine.entered run.scope values run.opened.scopes) statements writes ∧
      Constructor.LastWrites (Routine.bindings 1 parameters values ++ writes) pairs ∧
      ∀ (given : List Argument) (body : List Assignment),
        (∀ a ∈ given, a.reference?.isSome = true) →
        BlockKind.references given = BlockKind.references arguments →
        List.Forall₂ Assignment.Sets body pairs →
          (∀ keyword', ∃ s, (do
            let plan ← BlockKind.new.plan d container keyword' given
            plan.values d keyword' (body ++ run.assignments)) u.session =
              .ok run.resource.values s) ∧
          ∀ (st' : ParseState) (run' : BlockRun d container st'), st'.session = st.session →
            run'.kind = .new → run'.arguments = given →
            run'.assignments = body ++ run.assignments →
              run'.resource.values = run.resource.values := by
  obtain ⟨run, rfl, kind, rfl, rfl, rfl⟩ := exists_blockRun_of_head head accepted
  obtain ⟨r, writes, pairs, written, last, still, defaults, assigned⟩ :=
    run.yields_constructed plain kind built
  refine ⟨run, _, writes, pairs, rfl, rfl, written, last, fun given body only same sets => ?_⟩
  exact run.sameWith_of_yields plain kind built without still defaults only same
    (TypeDef.yields_body_of_sets (run.plain_opened plain) sets assigned)

end Parse

/-! ### A row of two cells -/

namespace Sample

/-- `this.cells = a; this.cells = b;` -/
def pairing : List Statement :=
  [⟨some "this.cells", .var "a", here "cells"⟩, ⟨some "this.cells", .var "b", here "cells"⟩]

/-- A row with a constructor that writes to the list twice. -/
def pairedRow : TypeDef :=
  { row with constructors := [.make "Row" ["a", "b"] pairing (here "constructor")] }

/-- In front of `new (1, 2) {};` -/
def newPair : ParseState :=
  ({} : Session).between default []
    [.bare .identifier "new", .bare .leftParen, number 1, .bare .comma, number 2, .bare .rightParen,
      .bare .leftBrace, .bare .rightBrace, .bare .semicolon]

/-- In front of `new { cells = 1; cells = 2; };` -/
def newCells : ParseState :=
  ({} : Session).between default []
    [.bare .identifier "new", .bare .leftBrace, .bare .identifier "cells", .bare .equals, number 1,
      .bare .semicolon, .bare .identifier "cells", .bare .equals, number 2, .bare .semicolon,
      .bare .rightBrace, .bare .semicolon]

theorem newPair_numbers :
    (match Parse.resourceBlock pairedRow none newPair with
      | .ok _ t => t.session.resources.map (numbers "cells" "cell")
      | .error _ _ => []) = [[some 2]] := by
  rw [Parse.resourceBlock_eq_rest]
  unfold Parse.blockRest BlockPlan.initial TypeDef.runConstructor
  simp only [splitOn_point]
  decide +kernel

theorem newPair_isEmptyBlock : isEmptyBlock .new [1, 2] newPair = true := by decide +kernel

end Sample

theorem Parse.constructor_assigns_pair : ∃ (t u : ParseState)
    (run : BlockRun Sample.pairedRow none Sample.newPair) (values : List Value)
    (writes pairs : List (String × Value)) (body : List Assignment) (s : Session),
      resourceBlock Sample.pairedRow none Sample.newPair = .ok () t ∧ t = run.result ∧
      values = [.integer 1, .integer 2] ∧ run.assignments = [] ∧
      Constructor.LastWrites (Routine.bindings 1 ["a", "b"] values ++ writes) pairs ∧
      List.Forall₂ Assignment.Sets body pairs ∧
      (do
        let plan ← BlockKind.new.plan Sample.pairedRow none run.keyword []
        plan.values Sample.pairedRow run.keyword body) u.session = .ok run.resource.values s ∧
      Sample.numbers "cells" "cell" run.resource = [some 2] := by
  have numbers := Sample.newPair_numbers
  obtain ⟨keyword, arguments, u, head, numbered, brace⟩ := Sample.exists_head Sample.newPair_isEmptyBlock
  obtain ⟨a, _, rfl, first, rest⟩ := List.map_eq_cons_iff.1 numbered
  obtain ⟨b, rfl, second⟩ := List.map_eq_singleton_iff.1 rest
  have plainly : [a, b].filter (·.reference?.isNone) = [a, b] := by
    simp [Argument.reference?, first, second]
  cases accepted : resourceBlock Sample.pairedRow none Sample.newPair with
  | error failure t =>
    rw [accepted] at numbers
    cases numbers
  | ok _ t =>
    have plain : Sample.newPair.session.Plain := Scopes.Plain.initial
    have without : Sample.pairedRow.constructor? 0 = none := rfl
    have built : Sample.pairedRow.constructor? ([a, b].filter (·.reference?.isNone)).length =
        some (.make "Row" ["a", "b"] Sample.pairing (Sample.here "constructor")) := by
      rw [plainly]
      rfl
    obtain ⟨run, values, writes, pairs, rfl, given, -, last, assigns⟩ :=
      constructor_assigns plain without head built accepted
    have references : BlockKind.references [a, b] = [] := by
      simp [BlockKind.references, Argument.reference?, first, second]
    obtain ⟨body, sets⟩ := Assignment.exists_sets run.keyword pairs
    obtain ⟨values', -⟩ := assigns [] body (List.forall_mem_nil _) references.symm sets
    obtain ⟨s, made⟩ := values' run.keyword
    have empty : run.assignments = [] := by
      obtain rfl : u = run.headed := (EStateM.Result.ok.inj (head.symm.trans run.head)).2
      rw [BlockRun.assignments, run.body.nil_of_brace (brace _ run.brace)]
      rfl
    rw [plainly] at given
    rw [empty, List.append_nil] at made
    have stored : Sample.numbers "cells" "cell" run.resource = [some 2] := by
      have all : ∀ r ∈ run.result.session.resources, Sample.numbers "cells" "cell" r = [some 2] := by
        simp only [accepted] at numbers
        intro r member
        have there := List.mem_map_of_mem (f := Sample.numbers "cells" "cell") member
        simpa [numbers] using there
      exact all _ run.stores_resource.self_mem
    exact ⟨_, u, run, values, writes, pairs, body, s, rfl, rfl, by rw [given]; simp [first, second],
      empty, last, sets, made, stored⟩

/-- Of two writes to a list only the last one makes an element; of two assignments, each one does. -/
theorem Parse.constructor_of_two_writes :
    (match resourceBlock Sample.pairedRow none Sample.newPair with
      | .ok _ t => t.session.resources.map (Sample.numbers "cells" "cell")
      | .error _ _ => []) = [[some 2]] ∧
    (match resourceBlock Sample.pairedRow none Sample.newCells with
      | .ok _ t => t.session.resources.map (Sample.numbers "cells" "cell")
      | .error _ _ => []) = [[some 1, some 2]] := by
  refine ⟨Sample.newPair_numbers, ?_⟩
  rw [resourceBlock_eq_rest]
  decide +kernel

end Rsrc
