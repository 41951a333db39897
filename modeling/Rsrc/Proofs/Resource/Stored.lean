import Rsrc.Proofs.Encoding.Confined
import Rsrc.Proofs.Resource.Declared
import Rsrc.Proofs.Resource.Places
import Rsrc.Proofs.Scopes.Calls

/-!
# What resources store

Every step by which the values of a resource are made stores them in places of the type: defaults,
assignments, constructors and copies, in the record itself and in the elements of its lists. So all
resources of a session are within the places of their types, whatever has been read
(`Session.stored_within`).
-/

namespace Rsrc

/-- All routines of the session are built in. -/
def Session.Plain (s : Session) : Prop := s.scopes.Plain

theorem Update.Tame.keeps_plain {α : Type} {u : Update α} (h : u.Tame 0) :
    Keeps Session.Plain u := by
  refine .of_final fun s plain => ?_
  -- the session is inside one that has no frames, and is the same otherwise
  exact ((h.inside { s with scopes := ⟨[]⟩ } rfl).final ⟨rfl, List.nil_prefix, plain⟩).plain

/-! ### Constructors -/

theorem Text.stripFront?_number (i : Nat) : stripFront? Constructor.self (toString i) = none := by
  rw [stripFront?, Option.map_eq_none_iff]
  change dropFront? ('t' :: _) (toString i).toList = none
  cases digits : (toString i).toList with
  | nil => rfl
  | cons c cs =>
    have digit : c.isDigit := by
      have member : c ∈ (toString i).toList := digits ▸ List.mem_cons_self
      simp only [Nat.toString_eq_repr, Nat.toList_repr] at member
      exact Nat.isDigit_of_mem_toDigits (by decide) (by decide) member
    have other : ¬ 't' = c := by
      rintro rfl
      exact absurd digit (by decide)
    rw [dropFront?, if_neg other]

namespace TypeDef

variable {v : FieldValue} {target : Target}

/-- A constructor gives names that constructors of the type bind. -/
theorem keeps_construct (d : TypeDef) (scope : ScopeId) (origin : Lexeme) (arguments : List Value) :
    Keeps Session.Plain (d.construct scope origin arguments)
      fun written => ∀ binding ∈ written, binding.1 ∈ d.writes := by
  have names : Runs Session.Plain (d.construct scope origin arguments)
      (fun written _ => ∀ binding ∈ written, binding.1 ∈ d.writes) fun _ _ => True := by
    intro s plain
    unfold construct
    cases found : d.constructor? arguments.length with
    | none => trivial
    | some c =>
      have pushed : (s.scopes.push .shadow scope).Plain := Scopes.tolerates_plain.push _ _ plain
      dsimp only [Update.inScope]
      cases run : c.routine.execute Scopes.call s.scopes.next arguments
          (s.scopes.push .shadow scope) with
      | error e scopes =>
        have evaluated : Update.evaluate origin
            (c.routine.execute Scopes.call s.scopes.next arguments)
              { s with scopes := s.scopes.push .shadow scope } =
            .error (.semantic ⟨.evaluation e, origin.site⟩) { s with scopes } := by
          rw [Update.evaluate, run]
        rw [bind_of_error evaluated]
        trivial
      | ok value scopes =>
        have evaluated : Update.evaluate origin
            (c.routine.execute Scopes.call s.scopes.next arguments)
              { s with scopes := s.scopes.push .shadow scope } = .ok value { s with scopes } := by
          rw [Update.evaluate, run]
        rw [bind_of_ok evaluated]
        intro binding member
        obtain ⟨name, bound, stripped⟩ := Scopes.mem_localsBehind member
        have live : s.scopes.next.index < (s.scopes.push .shadow scope).depth := by simp [Scopes.next]
        rcases c.routine.names_execute pushed live run bound with old | own | ⟨i, rfl⟩
        · rw [Scopes.names_push] at old
          cases old
        · have known : c ∈ d.constructors := List.mem_of_find?_eq_some found
          exact List.mem_flatMap.2 ⟨c, known, List.mem_filterMap.2 ⟨name, own, stripped⟩⟩
        · rw [Text.stripFront?_number] at stripped
          cases stripped
  exact Runs.mono (Runs.and (d.scoped_construct scope origin arguments).toTame.keeps_plain names)
    (fun _ plain => ⟨plain, plain⟩) (fun _ _ kept => ⟨kept.1.1, kept.2⟩) fun _ _ kept => kept.1

/-- Whatever is stored is within the slots. -/
abbrev Stores (slots : List Slot) (u : Update Record) : Prop :=
  Keeps Session.Plain u (Record.Within slots)

variable {d : TypeDef} {slots : List Slot} {front : String} {r : Record} (scope : ScopeId)

section

variable (within : r.Within slots)
include within

theorem stores_constructInto {nested : TypeDef} {key : String}
    (places : ∀ name ∈ nested.writes, ∃ tag, Slot.value (key ++ "." ++ name) tag ∈ slots)
    (origin : Lexeme) (arguments : List Expr) :
    Stores slots (nested.constructInto scope key r origin arguments) := by
  have evaluated : Update.Scoped 0 (arguments.mapM fun e => Update.evaluate origin (e.eval scope)) :=
    .mapM fun e => .value origin scope e
  refine Stays.andThen evaluated.toTame.keeps_plain fun values => ?_
  refine (nested.keeps_construct scope origin values).bind fun written names => .pure ?_
  induction written generalizing r with
  | nil => exact within
  | cons binding written ih =>
    refine ih (within.set (places _ (names binding List.mem_cons_self)) _) ?_
    exact fun other member => names other (List.mem_cons_of_mem _ member)

/-! ### Values and defaults -/

theorem stores_assignExpr (houses : d.Houses front slots v.name) (operand : Operand) :
    Stores slots (d.assignExpr scope v (front ++ v.name) r operand) := by
  rcases d.assignExpr_cases scope (front ++ v.name) with ⟨t, arguments, nested, -, run⟩ | ⟨-, run⟩
  · rw [run]
    exact stores_constructInto scope within (houses.writes t nested) _ _
  · rw [run]
    exact Stays.andThen (scoped_withSymbols ..).toTame.keeps_plain fun value =>
      .pure (within.set houses.value _)

theorem stores_assignValue (houses : ∀ p ∈ v.parts, d.Houses front slots p.name) (operand : Operand) :
    Stores slots (d.assignValue scope v front r operand) := by
  refine .ite (fun _ => ?_) fun _ => ?_
  · exact stores_assignExpr scope within (houses v List.mem_cons_self) operand
  · refine .foldlM (fun part member r within => ?_) within
    have known : part ∈ v.parts := (List.mem_filter.1 member).1
    refine Stays.andThen (scoped_partValue ..).toTame.keeps_plain fun value => .pure ?_
    exact within.set (houses part known).value _

omit within in
theorem nested?_of_below? {label : String} {t : d.Below} (h : d.below? label = some t) :
    d.nested? label = some t.val := by
  obtain ⟨e, found, nested⟩ := Option.bind_eq_some_iff.1 h
  rw [Template.entry?] at found
  rw [nested?, Template.entry?, ← d.layout_entries, List.find?_map]
  change ((d.layout.entries.find? (·.label == label)).map _).bind _ = _
  rw [found]
  simp [Entry.map, nested, Below.type]

theorem stores_defaultValue {inner : d.Below → Record → String → Update Record}
    (houses : d.Houses front slots v.name)
    (nested : ∀ t r, d.nested? v.name = some t.val → r.Within slots →
      Stores slots (inner t r (front ++ v.name ++ "."))) (byName : Bool) :
    Stores slots (d.defaultValue inner scope byName front r v) := by
  unfold defaultValue
  split
  · exact .pure (within.set houses.value _)
  · exact stores_assignExpr scope within houses _
  · refine Stays.get.trivial.andThen fun s => ?_
    dsimp only
    split
    · exact .pure (within.set houses.value _)
    · rename_i t _ found
      exact nested t r (nested?_of_below? found) within
    · exact .pure within

end

/-- The types behind labels have whatever a type has everywhere. -/
theorem Everywhere.nested? {P : TypeDef → Prop} (h : d.Everywhere P) {label : String} {t : TypeDef}
    (found : d.nested? label = some t) : t.Everywhere P := by
  obtain ⟨-, nested⟩ := h
  obtain ⟨e, known, same⟩ := Option.bind_eq_some_iff.1 found
  exact nested e (List.mem_of_find?_eq_some known) t same

theorem stores_defaults {d : TypeDef} (kept : d.Everywhere Kept) {slots : List Slot} {front : String}
    {r : Record} (places : d.places front ⊆ slots) (within : r.Within slots) :
    Stores slots (d.defaults scope r front) := by
  have here := kept.here
  rw [defaults]
  refine .foldlM (fun f known r within => .ite (fun repeats => ?_) fun single => ?_) within
  · exact .pure (within.appendEntries (here.list_mem known repeats places) (by simp))
  · have single : f.repetition = none := by simpa [Field.isRepeatable] using single
    refine .foldlM (fun v part r within => ?_) within
    have houses := here.houses_outside known single places part
    refine stores_defaultValue scope within houses (fun t r found within => ?_) _
    exact stores_defaults (kept.nested? found) (houses.nested _ found) within
termination_by sizeOf d
decreasing_by exact t.2

variable {f : Field}

section

variable (kept : d.Everywhere Kept) (known : f ∈ d.fields) (places : d.places front ⊆ slots)
include kept known places

theorem stores_defaultEntry (repeats : f.isRepeatable) :
    Stores (Slot.membersOf (front ++ f.name) slots) (d.defaultEntry scope f) := by
  have here := kept.here
  obtain ⟨repetition, repeats⟩ := Option.isSome_iff_exists.1 repeats
  refine .foldlM (fun v part r within => ?_) Record.Within.empty
  have houses := (here.houses_inside known repeats places).2 v part
  refine stores_defaultValue scope within houses (fun t r found within => ?_) false
  exact stores_defaults scope (kept.nested? found) (houses.nested _ found) within

theorem keeps_defaultEntries (repeats : f.isRepeatable) (n : Nat) :
    Keeps Session.Plain (d.defaultEntries scope f n)
      fun all => ∀ element ∈ all, element.Within (Slot.membersOf (front ++ f.name) slots) := by
  induction n with
  | zero => exact .pure (by simp)
  | succ n ih =>
    refine (stores_defaultEntry scope kept known places repeats).bind fun entry first => ?_
    exact ih.bind fun entries rest => .pure (by simpa using ⟨first, rest⟩)

/-! ### Assignments -/

/-- The last element of a list is changed inside the places of the list's members. -/
theorem stores_updateLast (repeats : f.isRepeatable) (within : r.Within slots)
    {update : Record → Update Record}
    (each : ∀ entry, entry.Within (Slot.membersOf (front ++ f.name) slots) →
      Stores (Slot.membersOf (front ++ f.name) slots) (update entry)) :
    Stores slots (d.updateLast scope f (front ++ f.name) r update) := by
  have here := kept.here
  have listed := here.list_mem known repeats places
  have ensured : Stores slots (d.ensureEntry scope f (front ++ f.name) r) := by
    refine .ite (fun _ => .pure within) fun _ => ?_
    refine (stores_defaultEntry scope kept known places repeats).bind fun entry fresh => .pure ?_
    exact within.appendEntries listed (by simpa using fresh)
  refine ensured.bind fun r within => ?_
  split
  · exact .pure within
  · rename_i entry last
    have inside := within.list (front ++ f.name) entry (List.mem_of_getLast? last)
    exact (each entry inside).bind fun entry changed => .pure (within.modifyLast fun _ => changed)

omit kept known places in
/-- The parts of a part of a field are parts of the field. -/
theorem Fitting.parts_subset (fits : d.Fitting f) (part : v ∈ f.parts) :
    ∀ p ∈ v.parts, p ∈ f.parts := by
  intro p member
  obtain ⟨w, known, place⟩ := List.mem_flatMap.1 part
  rcases List.mem_cons.1 place with rfl | joined
  · exact List.mem_flatMap.2 ⟨v, known, member⟩
  · rw [FieldValue.parts, fits.simple w known v joined, List.mem_singleton] at member
    rw [member]
    exact part

omit kept known places in
theorem stores_assignValues (within : r.Within slots)
    (houses : ∀ p ∈ f.parts, d.Houses front slots p.name) (operands : List Operand) :
    Stores slots (d.assignValues scope front r f.values operands) := by
  refine .foldlM (fun (v, operand) member r within => ?_) within
  have known : v ∈ f.values := (List.of_mem_zip member).1
  exact stores_assignValue scope within (fun p part => houses p (List.mem_flatMap.2 ⟨v, known, part⟩)) _

theorem stores_assignField (within : r.Within slots) (operands : List Operand) :
    Stores slots (d.assignField scope front r f operands) := by
  have here := kept.here
  have houses (p : FieldValue) (part : p ∈ f.parts) := here.houses_room known places part
  have body (u : Unit) : Stores slots (if f.isRepeatable = true then do
        let entry ← d.defaultEntry scope f
        let entry ← d.assignValues scope "" entry f.values operands
        return r.pushEntry (front ++ f.name) entry
      else d.assignValues scope front r f.values operands) := by
    refine .ite (fun repeats => ?_) fun single => ?_
    · simp only [room, if_pos repeats] at houses
      refine (stores_defaultEntry scope kept known places repeats).bind fun entry fresh => ?_
      refine (stores_assignValues scope fresh houses operands).bind fun entry filled => .pure ?_
      exact within.appendEntries (here.list_mem known repeats places) (by simpa using filled)
    · simp only [room, if_neg single] at houses
      exact stores_assignValues scope within houses operands
  unfold assignField
  dsimp only
  split
  · exact (Stays.throw _ : Keeps Session.Plain _ fun _ : PUnit => True).andThen body
  · exact body ()

theorem stores_assignPart (within : r.Within slots) (part : v ∈ f.parts) (operand : Operand) :
    Stores slots (d.assignPart scope front r f v operand) := by
  have here := kept.here
  have houses (p : FieldValue) (inside : p ∈ v.parts) :=
    here.houses_room known places ((here.fields f known).parts_subset part p inside)
  refine .ite (fun repeats => ?_) fun single => ?_
  · simp only [room, if_pos repeats] at houses
    exact stores_updateLast scope kept known places repeats within fun entry inside =>
      stores_assignValue scope inside houses operand
  · simp only [room, if_neg single] at houses
    exact stores_assignValue scope within houses operand

end

theorem mem_of_target? {name : String} (h : d.target? name = some target) :
    target.field ∈ d.fields ∧ ∀ v ∈ target.value, v ∈ target.field.parts := by
  unfold target? at h
  cases found : d.field? name with
  | some field =>
    rw [found] at h
    cases h
    exact ⟨List.mem_of_find?_eq_some found, by simp⟩
  | none =>
    rw [found] at h
    obtain ⟨field, claimed, rfl⟩ := Option.map_eq_some_iff.1 h
    exact ⟨List.mem_of_find?_eq_some claimed, fun v part => List.mem_of_find?_eq_some part⟩

theorem mem_of_container? (h : ∀ v ∈ target.value, v ∈ target.field.parts)
    (found : target.container? = some v) : v ∈ target.field.parts := by
  unfold Target.container? at found
  split at found
  · rename_i value
    cases found
    exact h v value
  · rename_i only
    cases found
    refine List.mem_flatMap.2 ⟨v, ?_, List.mem_cons_self⟩
    rw [only]
    exact List.mem_cons_self
  · cases found

/-- A path ends at a field of the type, at one of its values if at any. -/
theorem mem_of_targetOf? {path : List String} (h : d.targetOf? path = some target) :
    target.field ∈ d.fields ∧ ∀ v ∈ target.value, v ∈ target.field.parts := by
  match path with
  | [] => cases h
  | [first] => exact mem_of_target? h
  | first :: name :: tail =>
    simp only [targetOf?, resolve?, Option.bind_eq_bind, Option.bind_eq_some_iff] at h
    obtain ⟨start, found, h⟩ := h
    obtain ⟨known, parts⟩ := mem_of_target? found
    split at h
    · rename_i v _ part
      have inside : v ∈ start.field.parts := List.mem_of_find?_eq_some part
      cases tail with
      | nil =>
        cases h
        exact ⟨known, by simpa using inside⟩
      | cons next more =>
        simp only [Option.bind_eq_some_iff] at h
        obtain ⟨_, _, _, _, rest⟩ := h
        cases rest
        exact ⟨known, by simpa using inside⟩
    · simp only [Option.bind_eq_some_iff] at h
      obtain ⟨v, container, _, _, _, _, rest⟩ := h
      cases rest
      exact ⟨known, by simpa using mem_of_container? parts container⟩

theorem stores_assign (origin : Lexeme) (operands : List Operand) {d : TypeDef}
    (kept : d.Everywhere Kept) {slots : List Slot} {front : String} {r : Record}
    (places : d.places front ⊆ slots) (within : r.Within slots) (path : List String) :
    Stores slots (d.assign scope origin operands r front path) := by
  rw [assign]
  split
  · exact .throw _
  · rename_i target found
    obtain ⟨known, value⟩ := mem_of_targetOf? found
    refine Stays.andThen (scoped_warnDeprecated _ _).toTame.keeps_plain fun _ => ?_
    refine .ite (fun _ => ?_) fun _ => ?_
    · split
      · rename_i v held
        refine Stays.andThen (scoped_singleOperand ..).toTame.keeps_plain fun operand => ?_
        exact stores_assignPart scope kept known places within (value v held) operand
      · exact stores_assignField scope kept known places within operands
    · split
      · rename_i v container
        split
        · rename_i nested behind
          have shorter : target.inner.length < path.length := length_inner_lt found
          have here := kept.here
          have houses := here.houses_room known places (mem_of_container? value container)
          refine .ite (fun repeats => ?_) fun single => ?_
          · simp only [room, if_pos repeats] at houses
            refine stores_updateLast scope kept known places repeats within fun entry inside => ?_
            have places' := houses.nested nested behind
            rw [String.empty_append] at places'
            exact stores_assign origin operands (kept.nested? behind) places' inside target.inner
          · simp only [room, if_neg single] at houses
            exact stores_assign origin operands (kept.nested? behind) (houses.nested nested behind) within
              target.inner
        · exact .throw _
      · exact .throw _
termination_by path.length

section

variable (kept : d.Everywhere Kept) (places : d.places "" ⊆ slots) (within : r.Within slots)
include kept places within

theorem stores_runConstructor (origin : Lexeme) (arguments : List Value) :
    Stores slots (d.runConstructor scope origin r arguments) := by
  unfold runConstructor
  split
  · exact .pure within
  · rename_i c _
    have executed := Update.Scoped.execute origin (Nat.zero_le scope.index) c.routine arguments
    refine Stays.andThen executed.toTame.keeps_plain fun _ => Stays.get.trivial.andThen fun s => ?_
    refine Stays.andThen (.modifyState fun s plain => ?_) fun _ => ?_
    · exact Scopes.tolerates_plain.dropLocals (Nat.zero_le _) _ plain
    · exact .foldlM (fun binding _ r within => stores_assign scope origin _ kept places within _) within

/-! ### Copies and lists that are filled up -/

theorem within_refresh (scopes : Scopes) : (d.refresh scopes scope r).Within slots := by
  have each : ∀ v ∈ (d.fields.filter fun f => f.synthesized && !f.isRepeatable).flatMap (·.values),
      ∃ tag, Slot.value v.name tag ∈ slots := by
    intro v member
    obtain ⟨f, filtered, value⟩ := List.mem_flatMap.1 member
    obtain ⟨known, plain⟩ := List.mem_filter.1 filtered
    have single : f.repetition = none := by
      simp only [Bool.and_eq_true, Bool.not_eq_true', Field.isRepeatable, Option.isSome_eq_false_iff,
        Option.isNone_iff_eq_none] at plain
      exact plain.2
    have part : v ∈ f.parts := List.mem_flatMap.2 ⟨v, value, List.mem_cons_self⟩
    simpa using (kept.here.houses_outside known single places part).value
  unfold refresh
  dsimp only
  revert each
  generalize (d.fields.filter fun f => f.synthesized && !f.isRepeatable).flatMap (·.values) = values
  induction values generalizing r with
  | nil => exact fun _ => within
  | cons v values ih =>
    intro each
    refine ih ?_ fun w member => each w (List.mem_cons_of_mem _ member)
    dsimp only
    split
    · exact within.set (each v List.mem_cons_self) _
    · exact within

theorem stores_pad : Stores slots (d.pad scope r) := by
  have here := kept.here
  refine .foldlM (fun f known r within => ?_) within
  unfold padField
  split
  · exact .pure within
  · rename_i repetition repeats
    have repeats : f.isRepeatable := by rw [Field.isRepeatable, repeats]; rfl
    refine .ite (fun _ => .pure within) fun _ => ?_
    refine (keeps_defaultEntries scope kept known places repeats _).bind fun all filled => .pure ?_
    rw [String.empty_append] at filled
    have listed := here.list_mem known repeats places
    rw [String.empty_append] at listed
    exact within.appendEntries listed filled

end

end TypeDef

theorem BlockPlan.stores_initial (plan : BlockPlan) {d : TypeDef} (kept : d.Everywhere TypeDef.Kept)
    {slots : List Slot} (places : d.places "" ⊆ slots)
    (start : ∀ r, plan.start = some r → r.Within slots) (scope : ScopeId) (keyword : Lexeme) :
    TypeDef.Stores slots (plan.initial d scope keyword) := by
  have run (r : Record) (within : r.Within slots) :
      TypeDef.Stores slots (plan.construct d scope keyword r) := by
    unfold BlockPlan.construct
    split
    · exact TypeDef.stores_runConstructor scope kept places within _ _
    · exact .pure within
  unfold BlockPlan.initial
  dsimp only
  split
  · rename_i r copied
    refine Stays.get.trivial.andThen fun s => ?_
    exact run _ (TypeDef.within_refresh scope kept places (start r copied) _)
  · exact (TypeDef.stores_defaults scope kept places .empty).bind run

/-! ### Sessions -/

/-- The types of a session are kept, and its resources are within the places of their types. -/
structure Session.Housed (s : Session) : Prop where
  plain : s.Plain
  types : ∀ d ∈ s.types, d.Everywhere TypeDef.Kept
  known : ∀ r ∈ s.resources, r.reference.typeName = some r.definition.name ∧
    s.typeNamed? r.definition.name = some r.definition
  stored : ∀ r ∈ s.resources, r.values.Within (r.definition.places "")

namespace Session.Housed

variable {s t : Session}

/-- Nothing else counts than routines, types and resources. -/
theorem of_same (h : s.Housed) (plain : t.Plain) (types : t.types = s.types)
    (resources : t.resources = s.resources) : t.Housed where
  plain := plain
  types := types ▸ h.types
  known r member := by
    rw [typeNamed?, types]
    exact h.known r (resources ▸ member)
  stored r member := h.stored r (resources ▸ member)

theorem stable : Session.Stable 0 Housed where
  tame {α u} tame := by
    refine .of_final fun s housed => ?_
    have same : _ = s := (tame.alike s).final rfl
    have types := congrArg Session.types same
    have resources := congrArg Session.resources same
    exact housed.of_same (tame.keeps_plain.final housed.plain) types resources
  pending housed _ := housed.of_same housed.plain rfl rfl

theorem kept (h : s.Housed) {r : Resource} (stored : r ∈ s.resources) :
    r.definition.Everywhere TypeDef.Kept :=
  h.types _ (List.mem_of_find?_eq_some (h.known r stored).2)

/-- The session is housed, and the type is one of its types. -/
def With (d : TypeDef) (s : Session) : Prop := s.Housed ∧ s.typeNamed? d.name = some d

theorem With.everywhere {d : TypeDef} (h : With d s) : d.Everywhere TypeDef.Kept :=
  h.1.types d (List.mem_of_find?_eq_some h.2)

theorem With.stable (d : TypeDef) : Session.Stable 0 (With d) := by
  refine Housed.stable.and (.of_alike fun s t alike known => ?_)
  rw [Session.typeNamed?] at known ⊢
  rw [← known, ← alike]

theorem initial (o : Options) : (Session.ofOptions o).Housed :=
  ⟨Scopes.Plain.initial, by simp [ofOptions], by simp [ofOptions], by simp [ofOptions]⟩

/-- A further type, of a name that is new. -/
theorem register (h : s.Housed) {d : TypeDef} (kept : d.Everywhere TypeDef.Kept)
    (added : s.register? d = some t) : t.Housed := by
  obtain ⟨-, modules, rfl⟩ := register?_eq_some added
  refine ⟨h.plain, fun d' member => ?_, fun r member => ?_, h.stored⟩
  · rcases List.mem_append.1 member with old | new
    · exact h.types d' old
    · rw [List.mem_singleton.1 new]
      exact kept
  · obtain ⟨named, found⟩ := h.known r member
    refine ⟨named, ?_⟩
    rw [typeNamed?] at found ⊢
    rw [List.find?_append, found]
    rfl

/-- A further resource, or one in place of another. -/
theorem store (h : s.Housed) {r : Resource} (named : r.reference.typeName = some r.definition.name)
    (found : s.typeNamed? r.definition.name = some r.definition)
    (within : r.values.Within (r.definition.places "")) : (s.store r).Housed := by
  have housed {rs : List Resource} (each : ∀ r' ∈ rs, r' = r ∨ r' ∈ s.resources) :
      Housed { s with resources := rs } := by
    refine ⟨h.plain, h.types, fun r' member => ?_, fun r' member => ?_⟩
    · rcases each r' member with rfl | old
      · exact ⟨named, found⟩
      · exact h.known r' old
    · rcases each r' member with rfl | old
      · exact within
      · exact h.stored r' old
  unfold Session.store
  split
  · exact housed fun r' member => (List.mem_or_eq_of_mem_set member).symm
  · exact housed fun r' member => by simpa [or_comm] using member

end Session.Housed

namespace Parse

open Session

/-! ### Reading types and resources -/

/-- Whatever is nested in an entry that has been read is kept. -/
theorem kept_of_holds {tag : Tag} {nested : Option TypeDef} (h : Holds Housed tag nested) {t : TypeDef}
    (found : nested = some t) : Slot.IsNested tag ∧ t.Everywhere TypeDef.Kept := by
  cases h with
  | nested housed known =>
    cases found
    exact ⟨.inr ⟨_, rfl⟩, housed.types t (List.mem_of_find?_eq_some known)⟩
  | rect housed => exact ⟨.inl rfl, housed.types t (List.mem_of_find?_eq_some found)⟩
  | plain known other => cases found

theorem builds_kept : Builds Housed
    (fun t => ∀ e ∈ t.entries, ∀ inner, e.nested = some inner →
      Slot.IsNested e.tag ∧ inner.Everywhere TypeDef.Kept)
    fun d => d.Everywhere TypeDef.Kept where
  empty order := by simp
  entry {t t' label tag nested} held known added := by
    obtain ⟨entries, -⟩ := Template.entries_addEntry added
    have made : (Entry.make TypeDef.minimumSize label tag nested).tag = tag ∧
        (Entry.make TypeDef.minimumSize label tag nested).nested = nested := by
      cases tag <;> cases nested <;> exact ⟨rfl, rfl⟩
    intro e member inner found
    rw [entries] at member
    rcases List.mem_append.1 member with old | new
    · exact known e old inner found
    · rw [List.mem_singleton.1 new, made.2] at found
      rw [List.mem_singleton.1 new, made.1]
      exact kept_of_holds held found
  start name code decorators origin := .intro (.start ..) (by simp)
  template {d d' t} kept known set := by
    obtain ⟨here, -⟩ := kept
    refine .intro (here.setTemplate (fun e member inner found => (known e member inner found).1) set) ?_
    obtain ⟨-, t', accepted, rfl⟩ := TypeDef.setTemplate_eq_ok set
    rw [Template.entries_validate accepted]
    exact fun e member inner found => (known e member inner found).2
  constructor kept added := by
    obtain ⟨here, nested⟩ := kept
    refine .intro (here.addConstructor added) ?_
    obtain ⟨rfl, -⟩ := TypeDef.addConstructor_eq_ok added
    exact nested
  field kept simple added := by
    obtain ⟨here, nested⟩ := kept
    refine .intro (here.addField simple added) ?_
    obtain ⟨values, rfl, -⟩ := TypeDef.addField_eq_ok added
    exact nested

/-- A block that is planned in a housed session starts with values within the places of its type. -/
theorem keeps_plan_housed {d : TypeDef} (container : Option String) (kind : BlockKind) (keyword : Lexeme)
    (arguments : List Argument) :
    Keeps (Housed.With d) (kind.plan d container keyword arguments) fun plan =>
      plan.reference.typeName = some d.name ∧ ∀ r, plan.start = some r → r.Within (d.places "") := by
  intro s housed
  have settles : Keeps s.Alike (kind.plan d container keyword arguments)
      (BlockPlan.Settles s d container kind arguments) := kind.keeps_plan keyword arguments
  have settled := settles s rfl
  have kept := (Housed.With.stable d).tame (kind.tame_plan d container keyword arguments) s housed
  cases run : kind.plan d container keyword arguments s with
  | error failure t =>
    rw [run] at kept
    exact kept
  | ok plan t =>
    rw [run] at kept settled
    refine ⟨kept.1, settled.2.slot.typeName, fun r copied => ?_⟩
    obtain ⟨slot, old, named, found, rfl⟩ := settled.2.start r copied
    have member : old ∈ s.resources := List.mem_of_find?_eq_some found
    obtain ⟨typeName, known⟩ := housed.1.known old member
    -- the resource that is copied is of the same type, by the name in its slot
    have key := Resource.occupies_iff.1 (List.find?_some (p := (Resource.occupies · slot)) found)
    have same : old.definition.name = d.name := by
      have equal : old.reference.typeName = slot.typeName := congrArg (·.1) key
      rw [typeName, named] at equal
      exact Option.some.inj equal
    have definition : old.definition = d := by
      rw [same, housed.2] at known
      exact (Option.some.inj known).symm
    rw [← definition]
    exact housed.1.stored old member

theorem attempts_resourceBlock_housed (d : TypeDef) (container : Option String) :
    Attempts (Housed.With d) Housed (resourceBlock d container) := by
  have stable := Housed.With.stable d
  have keeps {u : Update Record} (tame : u.Tame 0)
      (h : d.Everywhere TypeDef.Kept → TypeDef.Stores (d.places "") u) :
      Keeps (Housed.With d) u (Record.Within (d.places "")) := by
    intro s known
    exact Runs.mono (Runs.and (stable.tame tame) (h known.everywhere)) (fun _ => id)
      (fun _ _ ran => ⟨ran.1.1, ran.2.2⟩) (fun _ _ ran => ran.1) s ⟨known, known.1.plain⟩
  have here : d.places "" ⊆ d.places "" := List.Subset.refl _
  have fills (scope : ScopeId) : Fills (Housed.With d) (fun _ => Housed.With d) Housed d scope
      (fun plan => plan.reference.typeName = some d.name ∧
        ∀ r, plan.start = some r → r.Within (d.places ""))
      (Record.Within (d.places "")) :=
    { initial := fun {plan} planned keyword =>
        keeps (plan.tame_initial d (Nat.zero_le _) keyword) fun kept =>
          plan.stores_initial kept here planned.2 scope keyword
      assign := fun origin operands path {r} within =>
        keeps (d.scoped_assign ..).toTame fun kept =>
          TypeDef.stores_assign scope origin operands kept here within path
      finish := by
        intro plan planned keyword r within
        refine Stays.runs (keeps (d.scoped_pad scope r).toTame fun kept =>
          TypeDef.stores_pad scope kept here within) fun r within s known => ?_
        have released : Housed { s with scopes := s.scopes.release scope } :=
          known.1.of_same (Scopes.tolerates_plain.release (Nat.zero_le _) known.1.plain) rfl rfl
        exact released.store planned.1 known.2 (within.mapValues _) }
  refine stable.resourceBlock (K := fun _ => True)
    (fun kind keyword arguments => keeps_plan_housed container kind keyword arguments)
    (fun plan s known => ⟨⟨?_, known.2⟩, trivial⟩) (fun scope _ => fills scope) fun _ => And.left
  refine known.1.of_same ?_ rfl rfl
  have tolerates := Scopes.tolerates_plain
  exact tolerates.define (Nat.zero_le _) _ _
    (tolerates.define (Nat.zero_le _) _ _ (tolerates.push _ _ known.1.plain))

/-- Whatever is read, the session stays housed. -/
theorem lasting_housed : Lasting (fun _ _ => Housed) fun _ _ _ => Housed := by
  refine .of_same Housed.stable (fun {s t} housed scopes types resources => ?_)
    (fun {s} depth housed => ?_) ?_ fun d container =>
      (attempts_resourceBlock_housed d container).mono (fun _ => id) (fun _ _ => id) fun _ _ => And.left
  · exact housed.of_same (scopes.symm ▸ housed.plain : t.scopes.Plain) types resources
  · have released : (s.scopes.release ⟨depth⟩).Plain :=
      Scopes.tolerates_plain.release (Nat.zero_le _) housed.plain
    exact housed.of_same released rfl rfl
  · refine (Housed.stable.typeBlock builds_kept (fun _ => id) fun name d kept s housed => ?_).upholds
    rw [registerType_eq]
    cases added : s.register? d with
    | none => exact housed
    | some t => exact housed.register kept added

end Parse

namespace Session

/-- Sessions in which sources have been read, one after another. A compilation reads the prelude and
then its own source, with its path at the front of the import stack. -/
inductive Read : Session → Prop
  | start (o : Options) : Read (.ofOptions o)
  | source {s : Session} (before : Read s) (stack : List Path) (tree : FileTree) (source : SourceFile) :
    Read (finalState (tree.parse source { s with importStack := stack }))

theorem Read.housed {s : Session} (h : s.Read) : s.Housed := by
  induction h with
  | start o => exact .initial o
  | @source s before stack tree source ih =>
    have start : Housed { s with importStack := stack } := ih.of_same ih.plain rfl rfl
    exact Parse.lasting_housed.final_parse tree source start

/-- Whatever has been read, the values of resources are in slots of their types or at strays: under the
label of a nested type itself, or behind it under a name that a constructor of the nested type binds.
Types without nested ones have no strays. What is at a stray that is not a slot as well is lost: the
bytes of the resource are the same whatever is there. -/
theorem stored_within {s : Session} (read : s.Read) {r : Resource} (stored : r ∈ s.resources) :
    r.values.Within (r.definition.places "") ∧
      ((∀ e ∈ r.definition.template.entries, ¬ Slot.IsNested e.tag) →
        r.values.Within (r.definition.slots "")) ∧
      ∀ key, (∀ tag, .value key tag ∉ r.definition.slots "") → ∀ value format,
        Resource.encode format { r with values := r.values.set key value } = r.encode format := by
  have within := read.housed.stored r stored
  have kept := read.housed.kept stored
  refine ⟨within, fun flat => ?_, fun key stray value format => ?_⟩
  · rwa [← kept.here.places_of_flat flat]
  · refine TypeDef.encode_congr r.subject format (kept.mono fun d kept => kept.validated) _ _ _ ⟨?_, ?_⟩
    · intro other tag slot
      have differs : other ≠ key := by
        rintro rfl
        exact stray tag slot
      exact Dict.get?_insert_of_ne _ differs _
    · exact fun other owned members slot => rfl

end Session

/-- A ship is at a point, but by default it has a plain value there. -/
def Sample.fleet : SourceFile where
  name := "fleet.rdl"
  contents :=
    "type Point : \"PONT\" \x7b template \x7b DWRD x; \x7d; field(\"x\") \x7b x = 7; \x7d; \x7d; " ++
    "type Ship : \"SHIP\" \x7b template \x7b Nested<Point> at; \x7d; field(\"at\") \x7b at = 5; \x7d; \x7d; " ++
    "declare Point \x7b new(#1) \x7b\x7d; \x7d; declare Ship \x7b new(#1) \x7b\x7d; \x7d;"

namespace Session

theorem stored_stray : ∃ s : Session, s.Read ∧
    (∃ r ∈ s.resources, (∀ e ∈ r.definition.template.entries, ¬ Slot.IsNested e.tag) ∧
      r.values.values.entries.map (·.1) = ["x"] ∧ r.values.Within (r.definition.slots "")) ∧
    ∃ r ∈ s.resources, r.values.values.entries.map (·.1) = ["at"] ∧
      r.values.Within (r.definition.places "") ∧ ¬ r.values.Within (r.definition.slots "") ∧
      ∀ value format,
        Resource.encode format { r with values := r.values.set "at" value } = r.encode format := by
  let s := finalState (({} : FileTree).parse Sample.fleet { ofOptions {} with importStack := [] })
  have read : s.Read := .source (.start {}) [] {} Sample.fleet
  have made : s.resources.map (fun r => (r.values.values.entries.map (·.1),
      r.definition.template.entries.map fun e => (e.label, e.tag))) =
      [(["x"], [("x", .integer .two true)]), (["at"], [("at", .nested "Point")])] := by
    decide +kernel
  obtain ⟨point, rest, all, first, made⟩ := List.map_eq_cons_iff.1 made
  obtain ⟨ship, rest, rfl, second, -⟩ := List.map_eq_cons_iff.1 made
  simp only [Prod.mk.injEq] at first second
  have inside : point ∈ s.resources := by simp [all]
  have inside' : ship ∈ s.resources := by simp [all]
  refine ⟨s, read, ⟨point, inside, ?_⟩, ship, inside', second.1, ?_⟩
  · have flat : ∀ e ∈ point.definition.template.entries, ¬ Slot.IsNested e.tag := by
      intro e member
      have known := List.mem_map_of_mem (f := fun e => (e.label, e.tag)) member
      rw [first.2] at known
      simp only [List.mem_singleton, Prod.mk.injEq] at known
      simp [known, Slot.IsNested]
    exact ⟨flat, first.1, (stored_within read inside).2.1 flat⟩
  · have stray : ∀ tag, .value "at" tag ∉ ship.definition.slots "" := by
      intro tag slot
      have validated := (read.housed.kept inside').mono fun d kept => kept.validated
      obtain ⟨e, member, same⟩ := TypeDef.key_of_slot validated slot
      have known := List.mem_map_of_mem (f := fun e => (e.label, e.tag)) member
      rw [second.2] at known
      simp only [List.mem_singleton, Prod.mk.injEq] at known
      rcases same with ⟨plain, -⟩ | ⟨rest, same⟩
      · exact plain (.inr ⟨_, known.2⟩)
      · rw [known.1] at same
        have chars := congrArg String.toList same
        simp at chars
    refine ⟨(stored_within read inside').1, fun within => ?_,
      fun value format => (stored_within read inside').2.2 "at" stray value format⟩
    obtain ⟨values, -, -⟩ := within
    have key : "at" ∈ ship.values.values.entries.map (·.1) := by simp [second.1]
    obtain ⟨binding, member, same⟩ := List.mem_map.1 key
    obtain ⟨tag, slot⟩ := values binding member
    exact stray tag (same ▸ slot)

end Session

end Rsrc
