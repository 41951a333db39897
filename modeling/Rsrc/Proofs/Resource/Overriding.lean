import Rsrc.Proofs.Resource.Padding

/-!
# Overriding resources

A block that overrides a resource starts from its values. The labels that are taken by name are set
anew, also if they had been assigned; everything else keeps its value unless the body of the block
targets it (`Parse.override_places`).
-/

namespace Rsrc

open Record (Changes)

variable {d : TypeDef} {arguments : List Argument}

/-! ### Values taken by name -/

/-- The place of a label that has no declared field, and whose name is visible in the scope. -/
def TypeDef.ByName (d : TypeDef) (scopes : Scopes) (scope : ScopeId) (place : Place) : Prop :=
  ∃ f ∈ d.fields, f.synthesized = true ∧ f.isRepeatable = false ∧
    ∃ v ∈ f.values, place = .value v.name ∧ (scopes.lookup scope v.name).isSome = true

theorem TypeDef.changes_refresh (d : TypeDef) (scopes : Scopes) (scope : ScopeId) (r : Record) :
    Changes (d.ByName scopes scope) (fun _ => False) r (d.refresh scopes scope r) := by
  refine Changes.foldl (fun v member r => ?_) r
  cases found : scopes.lookup scope v.name with
  | none => exact .refl r
  | some value =>
    obtain ⟨f, chosen, held⟩ := List.mem_flatMap.1 member
    obtain ⟨known, kinds⟩ := List.mem_filter.1 chosen
    rw [Bool.and_eq_true, Bool.not_eq_true'] at kinds
    have named : d.ByName scopes scope (.value v.name) :=
      ⟨f, known, kinds.1, kinds.2, v, held, rfl, by rw [found]; rfl⟩
    exact .set named _

theorem Scopes.findUp_succ {α : Type} {s : Scopes} {scope : ScopeId} {frame : Frame}
    (found : s.frame? scope = some frame) (answer : Frame → Option α) (length : Nat) :
    s.findUp answer (length + 1) scope =
      (answer frame).or (frame.parent.bind (s.findUp answer length)) := by
  rw [findUp, found]
  cases ok : answer frame with
  | some a => simp [ok]
  | none => cases up : frame.parent <;> simp [ok, up]

/-- In the scope of a block, the id and the name are visible, and what the root sees. -/
theorem BlockPlan.isSome_lookup (plan : BlockPlan) {s : Scopes} (root : s.parent? Scopes.rootId = none)
    (key : String) :
    ((plan.scopesOf s).lookup s.next key).isSome = true ↔
      key = "id" ∨ key = "name" ∨ (s.lookup Scopes.rootId key).isSome = true := by
  have frames := plan.frames_scopesOf s
  have depth : (plan.scopesOf s).depth = s.depth + 1 := by simp [Scopes.depth, frames]
  have above : (plan.scopesOf s).findUp (·.bindings.get? key) s.depth Scopes.rootId =
      s.lookup Scopes.rootId key := by
    unfold Scopes.lookup
    cases rooted : s.frames with
    | nil => simp [Scopes.depth, rooted, Scopes.findUp]
    | cons frame rest =>
      have found : s.frame? Scopes.rootId = some frame := by simp [Scopes.frame?, rooted, Scopes.rootId]
      have found' : (plan.scopesOf s).frame? Scopes.rootId = some frame := by
        simp [Scopes.frame?, frames, rooted, Scopes.rootId]
      have none : frame.parent = none := by simpa [Scopes.parent?, found] using root
      have count : s.depth = rest.length + 1 := by simp [Scopes.depth, rooted]
      rw [count, Scopes.findUp_succ found, Scopes.findUp_succ found', none]
      rfl
  have up : plan.frame.parent.bind ((plan.scopesOf s).findUp (·.bindings.get? key) s.depth) =
      s.lookup Scopes.rootId key := above
  rw [Scopes.lookup, depth, Scopes.findUp_succ (plan.frame?_scopesOf s), up, plan.get?_frame]
  by_cases name : key = "name"
  · simp [name]
  · by_cases id : key = "id"
    · simp [id]
    · simp [name, id]

/-! ### What stays -/

theorem TypeDef.pad_of_filled {r : Record} (filled : r.Filled d) (scope : ScopeId) :
    d.pad scope r = pure r := by
  have all : ∀ fields : List Field, (∀ f ∈ fields, ∀ rep, f.repetition = some rep →
      rep.lower.toInt ≤ (r.list f.name).length) →
      (fields.foldlM (d.padField scope) r : Update Record) = pure r := by
    intro fields enough
    induction fields with
    | nil => rfl
    | cons f fields ih =>
      have full : d.padField scope r f = pure r := by
        unfold padField
        split
        · rfl
        · rename_i rep repeats
          have long := enough f List.mem_cons_self rep repeats
          rw [if_pos (by omega)]
      rw [List.foldlM_cons, full, pure_bind]
      exact ih fun f member => enough f (List.mem_cons_of_mem _ member)
  exact all d.fields filled

theorem Record.Filled.mono {r r' : Record} {T : Place → Prop} {L : String → Prop} (h : r.Filled d)
    (changes : Changes T L r r') : r'.Filled d := by
  intro f known rep repeats
  have before := h f known rep repeats
  have grown := changes.longer f.name
  omega

/-! ### What the head amounts to -/

/-- The arguments give the id and nothing else: a reference, or an integer that no constructor
takes. -/
def TypeDef.TakesAsId (d : TypeDef) (arguments : List Argument) : Prop :=
  ∃ a, arguments = [a] ∧
    (a.reference?.isSome = true ∨ (∃ id, a.value = .integer id) ∧ d.constructor? 1 = none)

theorem TypeDef.TakesAsId.exists_naming (h : d.TakesAsId arguments)
    (plain : d.constructor? 0 = none) :
    ∃ naming : Naming,
      naming.name = none ∧ d.constructor? (arguments.filter (·.reference?.isNone)).length = none ∧
      Naming.ofArguments? (arguments.filter (·.reference?.isNone)) = some naming := by
  obtain ⟨a, rfl, reference | ⟨⟨id, integer⟩, none⟩⟩ := h
  · have rest : [a].filter (·.reference?.isNone) = [] := by
      simpa using Option.isSome_iff_ne_none.1 reference
    exact ⟨{}, rfl, by rw [rest]; exact plain, by rw [rest]; rfl⟩
  · obtain ⟨value, origin⟩ := a
    cases integer
    exact ⟨{ id := some (id, origin) }, rfl, none, rfl⟩

/-- A block that overrides a resource starts with its values, and with its name if none is given. -/
theorem BlockKind.keeps_plan_override {s₀ : Session} {container : Option String} (keyword : Lexeme)
    {naming : Naming}
    (plain : d.constructor? (arguments.filter (·.reference?.isNone)).length = none)
    (named : Naming.ofArguments? (arguments.filter (·.reference?.isNone)) = some naming) :
    Keeps s₀.Alike (BlockKind.override.plan d container keyword arguments) fun plan =>
      plan.constructor = none ∧ ∀ old, s₀.resource? plan.reference = some old →
        plan.start = some old.values ∧ plan.name = naming.name.getD old.name := by
  refine (keeps_source _ _ _).trivial.andThen fun (source, references) => ?_
  refine (keeps_target references).trivial.andThen fun target => ?_
  simp only [plain, Option.isSome_none, Bool.false_eq_true, if_false, named, pure_bind]
  refine (keeps_explicit target naming).trivial.andThen fun given => ?_
  refine (keeps_slotAt _).trivial.andThen fun slot => ?_
  refine Stays.bind (Q := fun started : String × Option Record => ∀ old,
      s₀.resource? slot = some old → started.2 = some old.values ∧
        started.1 = naming.name.getD old.name) ?_ fun started known => .pure ⟨rfl, known⟩
  refine Stays.get.bind fun s alike => ?_
  have same : s.resource? slot = s₀.resource? slot := by rw [← alike]; rfl
  dsimp only
  rw [same]
  cases existing : s₀.resource? slot with
  | none =>
    refine .pure fun old there => ?_
    cases there
  | some old =>
    refine .pure fun old' there => ?_
    cases there
    exact ⟨rfl, rfl⟩

namespace Parse

variable {d : TypeDef} {scope : ScopeId} {st t : ParseState} {r r' : Record}
  {steps : List (Record × Assignment)}

/-- A body changes what its assignments target. -/
theorem Body.changes (body : Body d scope st r steps t r') :
    Changes
      (fun place => ∃ step ∈ steps, d.Targets step.2.operands.length step.1 "" step.2.path place)
      (fun key => ∃ step ∈ steps, d.listOf? "" step.2.path = some key) r r' := by
  induction body with
  | closed => exact .refl _
  | passed _ _ _ ih => exact ih
  | @assigned st u t r r' r'' a s steps more read made rest ih =>
    have step := ((d.ensures_assign scope a.origin a.operands r "" a.path).of_ok trivial made).2
    refine Changes.trans (step.mono ?_ ?_) (ih.mono ?_ ?_)
    · exact fun place there => ⟨(r, a), List.mem_cons_self, there⟩
    · exact fun key listed => ⟨(r, a), List.mem_cons_self, listed⟩
    · rintro place ⟨step, member, there⟩
      exact ⟨step, List.mem_cons_of_mem _ member, there⟩
    · rintro key ⟨step, member, listed⟩
      exact ⟨step, List.mem_cons_of_mem _ member, listed⟩

theorem Body.eq_of_nil (body : Body d scope st r [] t r') : r' = r := by
  generalize none : ([] : List (Record × Assignment)) = steps at body
  induction body with
  | closed => rfl
  | passed _ _ _ ih => exact ih none
  | assigned => cases none

theorem Body.nil_of_brace (body : Body d scope st r steps t r')
    (brace : st.cursor.isAt LexemeKind.rightBrace = true) : steps = [] := by
  cases body with
  | closed => rfl
  | passed more => exact absurd brace more
  | assigned more => exact absurd brace more

namespace BlockRun

variable {d : TypeDef} {container : Option String} {st : ParseState} (run : BlockRun d container st)

/-- A block that starts with values and runs no constructor sets the labels taken by name. -/
theorem first_of_start {r : Record} (start : run.plan.start = some r)
    (alone : run.plan.constructor = none) :
    run.first = d.refresh run.opened.scopes run.scope r := by
  have begins := run.begins
  unfold BlockPlan.initial at begins
  rw [start, alone] at begins
  exact (EStateM.Result.ok.inj begins).1.symm

/-- If the lists are long enough at the start, the values after the body are stored. They differ in
what the body's assignments target from the values in which labels have been set by name. -/
theorem values_of_start {r : Record} (start : run.plan.start = some r)
    (alone : run.plan.constructor = none) (filled : r.Filled d) :
    run.resource.values = run.last.mapValues st.session.coded ∧
    Changes
      (fun place => ∃ step ∈ run.steps, d.Targets step.2.operands.length step.1 "" step.2.path place)
      (fun key => ∃ step ∈ run.steps, d.listOf? "" step.2.path = some key)
      (d.refresh run.opened.scopes run.scope r) run.last := by
  have changes := run.body.changes
  rw [run.first_of_start start alone] at changes
  have enough := (filled.mono (d.changes_refresh run.opened.scopes run.scope r)).mono changes
  have pads := run.pads
  rw [TypeDef.pad_of_filled enough] at pads
  have same : run.last = run.padded := (EStateM.Result.ok.inj pads).1
  rw [run.values_eq, Session.withCodes_eq, ← same]
  exact ⟨rfl, changes⟩

end BlockRun

/-- An override that gives only the id keeps the resource's name, and it starts from the resource's
values, in which the labels taken by name are set anew (`renewed`). What is taken by name is `id`,
`name` or the name of a variable of the root. Every place that no assignment of the body targets is
stored as it is in `renewed`, and so is every list that none of them changes; references to types that
are known by now get their codes. -/
theorem override_places {st t u : ParseState} {d : TypeDef} {container : Option String}
    {keyword : Lexeme} {arguments : List Argument} (declared : st.session.Declared)
    (plain : d.constructor? 0 = none)
    (head : blockHead st = .ok (some (.override, keyword, arguments)) u)
    (onlyId : d.TakesAsId arguments) (accepted : resourceBlock d container st = .ok () t) :
    ∃ run : BlockRun d container st, t = run.result ∧ run.kind = .override ∧
      run.arguments = arguments ∧
      ∀ old, st.session.resource? run.plan.reference = some old → old.definition = d →
        let renewed := d.refresh run.opened.scopes run.scope old.values
        run.resource.name = old.name ∧
        (∀ place, (∀ step ∈ run.steps,
            ¬ d.Targets step.2.operands.length step.1 "" step.2.path place) →
          run.resource.values.at? place = (renewed.at? place).map st.session.coded) ∧
        (∀ key, (∀ step ∈ run.steps, d.listOf? "" step.2.path ≠ some key) →
          run.resource.values.list key = (old.values.list key).map st.session.withCodes) ∧
        (run.steps = [] → run.resource.values = st.session.withCodes renewed) ∧
        (∀ place, ¬ d.ByName run.opened.scopes run.scope place →
          renewed.at? place = old.values.at? place) ∧
        (run.planned.scopes.parent? Scopes.rootId = none →
          ∀ place, d.ByName run.opened.scopes run.scope place → ∃ key, place = .value key ∧
            (key = "id" ∨ key = "name" ∨
              (run.planned.scopes.lookup Scopes.rootId key).isSome = true)) := by
  obtain ⟨run, rfl, kind, -, given, -⟩ := exists_blockRun_of_head head accepted
  obtain ⟨naming, unnamed, unbuilt, named⟩ := onlyId.exists_naming plain
  have plans := run.plans
  rw [kind, given] at plans
  obtain ⟨alone, starts⟩ :=
    ((BlockKind.keeps_plan_override _ unbuilt named).of_ok run.alike_headed plans).2
  refine ⟨run, rfl, kind, given, fun old there typed => ?_⟩
  obtain ⟨start, name⟩ := starts old there
  have filled : old.values.Filled d := by
    rw [← typed]
    exact declared.filled old (List.mem_of_find?_eq_some there)
  obtain ⟨stored, changes⟩ := run.values_of_start start alone filled
  have renews := d.changes_refresh run.opened.scopes run.scope old.values
  refine ⟨name.trans (by rw [unnamed]; rfl), fun place untouched => ?_, fun key unlisted => ?_,
    fun none => ?_, renews.places, fun root place byName => ?_⟩
  · rw [stored, Record.at?_mapValues, changes.places place]
    rintro ⟨step, member, there⟩
    exact untouched step member there
  · have same : run.last.list key = old.values.list key := by
      rw [changes.lists key, renews.lists key False.elim]
      rintro ⟨step, member, listed⟩
      exact unlisted step member listed
    rw [stored, Record.list_mapValues, same]
    rfl
  · have body := run.body
    rw [none] at body
    rw [stored, body.eq_of_nil, run.first_of_start start alone, Session.withCodes_eq]
  · obtain ⟨f, known, -, -, v, held, rfl, visible⟩ := byName
    rw [run.opened_eq, run.scope_eq] at visible
    exact ⟨v.name, rfl, (run.plan.isSome_lookup root v.name).1 visible⟩

end Parse

/-! ### A medal with a number of its own -/

namespace Sample

/-- A type with a label that is called like a name of every block. -/
def medal : TypeDef where
  name := "Medal"
  code := "MEDL"
  template :=
    { entries := [{ label := "id", tag := .integer .two true },
        { label := "weight", tag := .integer .two true }] }
  fields := [Field.synthesize "id" (here "id"), Field.synthesize "weight" (here "weight")]

/-- In front of `new { id = 7; weight = 5; };` -/
def newMedal : ParseState :=
  ({} : Session).between default []
    [.bare .identifier "new", .bare .leftBrace, .bare .identifier "id", .bare .equals, number 7,
      .bare .semicolon, .bare .identifier "weight", .bare .equals, number 5, .bare .semicolon,
      .bare .rightBrace, .bare .semicolon]

/-- In front of `override (128) {};` where that medal has been stored. -/
def sameMedal : ParseState :=
  (finalState (Parse.resourceBlock medal none newMedal)).session.between default []
    [.bare .identifier "override", .bare .leftParen, number 128, .bare .rightParen, .bare .leftBrace,
      .bare .rightBrace, .bare .semicolon]

/-- The number that a value is. -/
def integer? : Value → Option Int64
  | .integer n => some n
  | _ => none

/-- The resource has an integer under a key. -/
def hasNumber (key : String) (n : Int64) (r : Resource) : Bool :=
  (r.values.get? key).bind integer? == some n

/-- A block of the kind with numbers for arguments and nothing in its body is next. -/
def isEmptyBlock (kind : BlockKind) (numbers : List Int64) (st : ParseState) : Bool :=
  match Parse.blockHead st with
  | .ok (some (found, _, arguments)) u =>
    found == kind && arguments.map (integer? ·.value) == numbers.map some &&
      match Reading.skip LexemeKind.leftBrace u.cursor with
      | .ok _ c => c.isAt LexemeKind.rightBrace
      | .error _ _ => true
  | _ => false

theorem eq_of_integer? {value : Value} {n : Int64} (h : integer? value = some n) :
    value = .integer n := by
  cases value with
  | integer m =>
    cases h
    rfl
  | _ => cases h

theorem values_of_integer? {arguments : List Argument} {numbers : List Int64}
    (h : arguments.map (integer? ·.value) = numbers.map some) :
    arguments.map (·.value) = numbers.map .integer := by
  induction arguments generalizing numbers with
  | nil =>
    cases numbers with
    | nil => rfl
    | cons => cases h
  | cons a arguments ih =>
    cases numbers with
    | nil => cases h
    | cons n numbers =>
      obtain ⟨first, rest⟩ := List.cons.inj h
      rw [List.map_cons, List.map_cons, eq_of_integer? first, ih rest]

theorem exists_head {kind : BlockKind} {numbers : List Int64} {st : ParseState}
    (h : isEmptyBlock kind numbers st = true) : ∃ keyword arguments u,
      Parse.blockHead st = .ok (some (kind, keyword, arguments)) u ∧
      arguments.map (·.value) = numbers.map .integer ∧
      ∀ c, Reading.skip LexemeKind.leftBrace u.cursor = .ok () c →
        c.isAt LexemeKind.rightBrace = true := by
  unfold isEmptyBlock at h
  split at h
  · rename_i found keyword arguments u head
    rw [Bool.and_eq_true, Bool.and_eq_true, beq_iff_eq, beq_iff_eq] at h
    obtain ⟨⟨rfl, same⟩, brace⟩ := h
    refine ⟨keyword, arguments, u, head, values_of_integer? same, fun c skipped => ?_⟩
    rwa [skipped] at brace
  · cases h

theorem sameMedal_before :
    (sameMedal.session.resources.length == 1 &&
      sameMedal.session.resources.all (hasNumber "id" 7)) = true := by
  unfold sameMedal
  rw [Parse.resourceBlock_eq_rest]
  decide +kernel

theorem sameMedal_after :
    (match Parse.resourceBlock medal none sameMedal with
      | .ok _ t => t.session.resources.length == 1 &&
        t.session.resources.all fun r => hasNumber "id" 128 r && hasNumber "weight" 5 r
      | .error _ _ => false) = true := by
  unfold sameMedal
  rw [Parse.resourceBlock_eq_rest]
  decide +kernel

theorem sameMedal_isEmptyBlock : isEmptyBlock .override [128] sameMedal = true := by
  unfold sameMedal
  rw [Parse.resourceBlock_eq_rest]
  decide +kernel

end Sample

theorem Parse.override_same_medal : ∃ (t : ParseState) (old : Resource)
    (run : BlockRun Sample.medal none Sample.sameMedal), Sample.sameMedal.session.Declared ∧
      resourceBlock Sample.medal none Sample.sameMedal = .ok () t ∧ t = run.result ∧
      Sample.sameMedal.session.resource? run.plan.reference = some old ∧ run.steps = [] ∧
      run.resource.values = Sample.sameMedal.session.withCodes
        (Sample.medal.refresh run.opened.scopes run.scope old.values) ∧
      Sample.hasNumber "id" 7 old = true ∧ Sample.hasNumber "id" 128 run.resource = true ∧
      Sample.hasNumber "weight" 5 run.resource = true := by
  have declared : Sample.sameMedal.session.Declared :=
    .block (.start rfl) Sample.medal none Sample.newMedal.cursor
  obtain ⟨keyword, arguments, u, head, values, brace⟩ := Sample.exists_head Sample.sameMedal_isEmptyBlock
  obtain ⟨a, rfl, given⟩ := List.map_eq_singleton_iff.1 values
  have before := Sample.sameMedal_before
  have after := Sample.sameMedal_after
  simp only [Bool.and_eq_true, beq_iff_eq, List.all_eq_true] at before
  cases accepted : resourceBlock Sample.medal none Sample.sameMedal with
  | error failure t =>
    rw [accepted] at after
    cases after
  | ok _ t =>
    simp only [accepted, Bool.and_eq_true, beq_iff_eq, List.all_eq_true] at after
    obtain ⟨run, rfl, -, -, effect⟩ :=
      override_places declared rfl head ⟨a, rfl, .inr ⟨⟨128, given⟩, rfl⟩⟩ accepted
    obtain ⟨old, taken⟩ : ∃ old, Sample.sameMedal.session.resource? run.plan.reference = some old := by
      rw [← Option.ne_none_iff_exists']
      intro free
      have stores := run.stores_resource
      have count := after.1
      generalize run.result.session.resources = stored at stores count
      cases stores with
      | added => simp [before.1] at count
      | replaced _ there same =>
        refine Session.resource?_eq_none_iff.1 free (List.mem_map.2 ⟨_, ?_, same⟩)
        exact List.mem_of_getElem? there
    have kept : old ∈ Sample.sameMedal.session.resources := List.mem_of_find?_eq_some taken
    have typed : old.definition = Sample.medal := by
      rcases mem_of_resourceBlock kept with none | ⟨first, -, rfl⟩
      · cases none
      · rfl
    have empty : run.steps = [] := by
      obtain rfl : u = run.headed := (EStateM.Result.ok.inj (head.symm.trans run.head)).2
      exact run.body.nil_of_brace (brace _ run.brace)
    have stored : run.resource ∈ run.result.session.resources := run.stores_resource.self_mem
    obtain ⟨-, -, -, values, -⟩ := effect old taken typed
    exact ⟨_, old, run, declared, rfl, rfl, taken, empty, values empty, before.2 old kept,
      (after.2 _ stored).1, (after.2 _ stored).2⟩

end Rsrc
