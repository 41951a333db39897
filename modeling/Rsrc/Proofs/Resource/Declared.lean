import Rsrc.Proofs.Insertion
import Rsrc.Proofs.Lasting

/-!
# Declared resources

A resource block stores at most one resource, in the slot that its head asks for. The slot is free,
unless the block overrides what is there; so no two resources of a session are ever in one slot, in
whatever order blocks come (`Session.Declared`). An id that is not given is the smallest one that the
type does not use in the container.
-/

namespace Rsrc

variable {r : Resource} {s : Session}

/-- What tells the slot of a resource from others: type, container and id. -/
def Reference.key (r : Reference) : Option String × Option String × Int64 :=
  (r.typeName, r.container, r.id)

theorem Resource.occupies_iff {slot : Reference} :
    r.occupies slot = true ↔ r.reference.key = slot.key := by
  simp only [occupies, Reference.key, Bool.and_eq_true, beq_iff_eq, Prod.mk.injEq]
  tauto

namespace Session

variable {s : Session} {container : Option String}

/-! ### Free ids -/

/-- No resource of the type has the id in the container. -/
def Unused (s : Session) (typeName : String) (container : Option String) (id : Int64) : Prop :=
  ∀ r ∈ s.resources, r.reference.typeName = some typeName → r.container = container → r.id ≠ id

theorem unused_iff {typeName : String} {id : Int64} :
    s.Unused typeName container id ↔ id ∉ s.takenIds typeName container := by
  simp only [Unused, takenIds, List.mem_map, List.mem_filter, Bool.and_eq_true, beq_iff_eq]
  constructor
  · rintro h ⟨r, ⟨member, named, inside⟩, same⟩
    exact h r member named inside same
  · intro h r member named inside same
    exact h ⟨r, ⟨member, named, inside⟩, same⟩

theorem toInt_add_one {a b : Int64} (h : a < b) : (a + 1).toInt = a.toInt + 1 := by
  have below := Int64.lt_iff_toInt_lt.1 h
  have bound := b.toInt_lt
  have bound' := a.le_toInt
  rw [Int64.toInt_add]
  change Int.bmod (a.toInt + 1) (2 ^ 64) = a.toInt + 1
  refine Int.bmod_eq_of_le ?_ ?_ <;> omega

/-- The search from `id` on ends at or before every free id. Each turn leaves a taken id behind, so
there are no more turns than taken ids from `id` on. -/
theorem freeIdFrom_le {taken : List Int64} {free : Int64} (unused : free ∉ taken) (n : Nat)
    {id : Int64} (le : id ≤ free) (enough : (taken.filter (id ≤ ·)).length ≤ n) :
    id ≤ freeIdFrom (.ofList taken) n id ∧ freeIdFrom (.ofList taken) n id ≤ free ∧
      freeIdFrom (.ofList taken) n id ∉ taken := by
  induction n generalizing id with
  | zero =>
    rw [freeIdFrom]
    refine ⟨Int64.le_refl _, le, fun used => ?_⟩
    have inside : id ∈ taken.filter (id ≤ ·) := List.mem_filter.2 ⟨used, by simp⟩
    have some := List.length_pos_of_mem inside
    omega
  | succ n ih =>
    rw [freeIdFrom]
    by_cases used : id ∈ taken
    · rw [if_pos (by simpa using used)]
      have lt : id < free := by
        have differ : id.toInt ≠ free.toInt := fun same => unused (Int64.toInt_inj.1 same ▸ used)
        rw [Int64.le_iff_toInt_le] at le
        rw [Int64.lt_iff_toInt_lt]
        omega
      have next := toInt_add_one lt
      have fewer : (taken.filter (id + 1 ≤ ·)).length < (taken.filter (id ≤ ·)).length := by
        have above : taken.filter (id + 1 ≤ ·) = (taken.filter (id ≤ ·)).filter (id + 1 ≤ ·) := by
          rw [List.filter_filter]
          refine List.filter_congr fun x _ => ?_
          rw [Bool.eq_iff_iff]
          simp only [Bool.and_eq_true, decide_eq_true_eq, Int64.le_iff_toInt_le, next]
          omega
        rw [above, List.length_filter_lt_length_iff_exists]
        refine ⟨id, List.mem_filter.2 ⟨used, by simp⟩, ?_⟩
        simp only [Int64.le_iff_toInt_le, next, decide_eq_true_eq]
        omega
      have le' : id + 1 ≤ free := by
        rw [Int64.lt_iff_toInt_lt] at lt
        rw [Int64.le_iff_toInt_le]
        omega
      obtain ⟨low, high, unused'⟩ := ih le' (by omega)
      refine ⟨?_, high, unused'⟩
      rw [Int64.le_iff_toInt_le] at low ⊢
      omega
    · rw [if_neg (by simpa using used)]
      exact ⟨Int64.le_refl _, le, used⟩

/-- Among the unused ids from the first one on, `nextId` is the smallest. -/
theorem nextId_le {typeName : String} {free : Int64} (le : firstId ≤ free)
    (unused : s.Unused typeName container free) :
    firstId ≤ s.nextId typeName container ∧ s.nextId typeName container ≤ free ∧
      s.Unused typeName container (s.nextId typeName container) := by
  rw [unused_iff] at unused ⊢
  exact freeIdFrom_le unused _ le (List.length_filter_le ..)

/-! ### Storing -/

theorem store_of_free {r : Resource} (free : s.resource? r.reference = none) :
    s.store r = { s with resources := s.resources ++ [r] } := by
  have none : s.resources.findIdx? (·.occupies r.reference) = none := by
    rw [List.findIdx?_eq_none_iff]
    simpa [resource?] using free
  rw [store, none]

theorem store_of_taken {r old : Resource} (taken : s.resource? r.reference = some old) :
    ∃ i, s.resources[i]? = some old ∧ old.reference.key = r.reference.key ∧
      s.store r = { s with resources := s.resources.set i r } := by
  obtain ⟨occupies, i, inside, there, before⟩ := List.find?_eq_some_iff_getElem.1 taken
  have found : s.resources.findIdx? (·.occupies r.reference) = some i := by
    refine List.findIdx?_eq_some_iff_getElem.2 ⟨inside, there ▸ occupies, fun j lt => ?_⟩
    simpa using before j lt
  refine ⟨i, there ▸ List.getElem?_eq_getElem inside, Resource.occupies_iff.1 occupies, ?_⟩
  rw [store, found]

theorem resource?_eq_none_iff {slot : Reference} :
    s.resource? slot = none ↔ slot.key ∉ s.resources.map (·.reference.key) := by
  simp only [resource?, List.find?_eq_none, Resource.occupies_iff, List.mem_map, not_exists, not_and]

/-- No two resources are in one slot. -/
def Distinct (s : Session) : Prop := (s.resources.map (·.reference.key)).Nodup

end Session

/-! ### What a block asks for -/

namespace BlockKind

/-- The reference that the arguments of a block give for its resource. In a copy the first reference
is that of the resource to copy, and an integer is an id unless a constructor takes it. -/
def given? (kind : BlockKind) (d : TypeDef) (arguments : List Argument) : Option Reference :=
  let references := arguments.filterMap (·.reference?)
  let others := arguments.filter (·.reference?.isNone)
  let naming := if (d.constructor? others.length).isSome then some {} else Naming.ofArguments? others
  ((if kind = .duplicate then references.tail else references).head?.map (·.reference)) <|>
    (naming.bind (·.id)).map fun id => { id := id.1 }

end BlockKind

/-- The slot for a reference, if one is given, of a type that is declared in a container: an id that
is not given or automatic is the smallest unused one. -/
structure Session.SlotFor (s : Session) (d : TypeDef) (container : Option String)
    (given : Option Reference) (slot : Reference) : Prop where
  typeName : slot.typeName = some d.name
  container : slot.container = (given.bind (·.container) <|> container)
  explicit : ∀ r, given = some r → r.isAuto = false → slot.id = r.id
  automatic : (∀ r, given = some r → r.isAuto = true) → ∀ free, firstId ≤ free →
    s.Unused d.name slot.container free →
      firstId ≤ slot.id ∧ slot.id ≤ free ∧ s.Unused d.name slot.container slot.id

/-- What the head of a block amounts to. -/
structure BlockPlan.Settles (s : Session) (d : TypeDef) (container : Option String) (kind : BlockKind)
    (arguments : List Argument) (plan : BlockPlan) : Prop where
  slot : s.SlotFor d container (kind.given? d arguments) plan.reference
  free : kind ≠ .override → s.resource? plan.reference = none
  /-- The values to start with are those of a resource of the type. -/
  start : ∀ r, plan.start = some r → ∃ slot old, slot.typeName = some d.name ∧
    s.resource? slot = some old ∧ r = old.values

section Plan

variable {s₀ : Session} {d : TypeDef} {container : Option String} {given : Option Reference}

theorem Session.slotFor_of_slot {s : Session} {slot : Reference}
    (h : s.slot d container given = .ok slot) : s.SlotFor d container given slot := by
  cases given with
  | none =>
    cases h
    exact ⟨rfl, rfl, nofun, fun _ free le unused => nextId_le le unused⟩
  | some r =>
    have built : slot = ⟨if r.isAuto then s.nextId d.name (r.container <|> container) else r.id,
        some d.name, some d.code, r.container <|> container⟩ := by
      unfold Session.slot at h
      dsimp only at h
      split at h
      · cases h
      · split at h
        · split at h
          · cases h
          · exact (Except.ok.inj h).symm
        · exact (Except.ok.inj h).symm
    subst built
    refine ⟨rfl, rfl, ?_, ?_⟩
    · intro r' same explicit
      cases same
      simp [explicit]
    · intro automatic free le unused
      simp only [automatic r rfl, if_true]
      exact nextId_le le unused

theorem keeps_slotAt (origin : Lexeme) :
    Keeps s₀.Alike (slotAt d container given origin) (s₀.SlotFor d container given) := by
  refine Stays.get.bind fun s alike => ?_
  split
  · rename_i slot found
    refine .pure (Session.slotFor_of_slot ?_)
    rw [← alike]
    exact found
  · exact .throw _

namespace BlockKind

theorem keeps_source (kind : BlockKind) (keyword : Lexeme) (references : List GivenReference) :
    Keeps s₀.Alike (kind.source d container keyword references) fun found =>
      (found.2 = if kind = .duplicate then references.tail else references) ∧
        ∀ r ∈ found.1, r.reference.typeName = some d.name := by
  unfold source
  cases kind with
  | new => exact .pure ⟨rfl, by simp⟩
  | override => exact .pure ⟨rfl, by simp⟩
  | duplicate =>
    cases references with
    | nil => exact .throw _
    | cons r rest =>
      refine (keeps_slotAt _).bind fun slot found => .pure ⟨rfl, fun r same => ?_⟩
      cases same
      exact found.typeName

theorem keeps_target (references : List GivenReference) :
    Keeps s₀.Alike (target references) (· = references.head?) := by
  unfold target
  split
  · exact .pure rfl
  · exact .pure rfl
  · exact .throw _

theorem keeps_explicit (target : Option GivenReference) (naming : Naming) :
    Keeps s₀.Alike (explicit target naming) fun given => given.map (·.reference) =
      (target.map (·.reference) <|> naming.id.map fun id => { id := id.1 }) := by
  unfold explicit
  split
  · exact .throw _
  · exact .pure rfl
  · rename_i id
    refine .pure ?_
    rw [id]
    rfl
  · rename_i id
    refine .pure ?_
    rw [id]
    rfl

theorem keeps_start (kind : BlockKind) (keyword : Lexeme) (source : Option GivenReference)
    (slot : Reference) (name : Option String) :
    Keeps s₀.Alike (kind.start keyword source slot name) fun found =>
      (kind ≠ .override → s₀.resource? slot = none) ∧
        ∀ r ∈ found.2, ∃ old, r = old.values ∧ (s₀.resource? slot = some old ∨
          ∃ given ∈ source, s₀.resource? given.reference = some old) := by
  refine Stays.get.bind fun s alike => ?_
  have same : s₀.resource? slot = s.resource? slot := by rw [← alike]; rfl
  dsimp only
  rw [same]
  split
  · exact .throw _
  · rename_i none
    exact .pure ⟨fun _ => none, by simp⟩
  · exact .pure ⟨fun other => absurd rfl other, by simp⟩
  · rename_i old there
    refine .pure ⟨fun other => absurd rfl other, fun r copied => ?_⟩
    cases copied
    exact ⟨old, rfl, .inl there⟩
  · exact .throw _
  · rename_i given
    refine Stays.get.bind fun s' alike => ?_
    have same : s₀.resource? given.reference = s'.resource? given.reference := by rw [← alike]; rfl
    split
    · exact .throw _
    · exact .throw _
    · rename_i copied found none
      refine .pure ⟨fun _ => none, fun r copied => ?_⟩
      cases copied
      exact ⟨_, rfl, .inr ⟨given, rfl, same.trans found⟩⟩

theorem keeps_plan (kind : BlockKind) (keyword : Lexeme) (arguments : List Argument) :
    Keeps s₀.Alike (kind.plan d container keyword arguments)
      (BlockPlan.Settles s₀ d container kind arguments) := by
  refine (kind.keeps_source _ _).bind fun chosen left => ?_
  obtain ⟨source, references⟩ := chosen
  refine (keeps_target references).bind fun target one => ?_
  dsimp only at left one ⊢
  have ending : ∀ naming : Naming,
      naming.id = ((if (d.constructor? (arguments.filter (·.reference?.isNone)).length).isSome then
        some {} else Naming.ofArguments? (arguments.filter (·.reference?.isNone))).bind (·.id)) →
      Keeps s₀.Alike (do
        let explicit ← explicit target naming
        let slot ← slotAt d container (explicit.map (·.reference))
          ((explicit.map (·.origin)).getD keyword)
        let started ← kind.start keyword source slot naming.name
        return {
          reference := slot
          name := started.1
          start := started.2
          constructor :=
            if (d.constructor? (arguments.filter (·.reference?.isNone)).length).isSome then
              some ((arguments.filter (·.reference?.isNone)).map (·.value))
            else none : BlockPlan })
        (BlockPlan.Settles s₀ d container kind arguments) := by
    intro naming id
    refine (keeps_explicit target naming).bind fun explicit given => ?_
    refine (keeps_slotAt _).bind fun slot found => ?_
    refine (kind.keeps_start _ _ _ _).bind fun started known => .pure ⟨?_, known.1, ?_⟩
    · rw [given, one, left.1, id] at found
      exact found
    · intro r copied
      obtain ⟨old, values, here | ⟨reference, member, there⟩⟩ := known.2 r copied
      · exact ⟨slot, old, found.typeName, here, values⟩
      · exact ⟨reference.reference, old, left.2 reference member, there, values⟩
  split
  · rename_i naming found
    refine (Stays.pure (Q := fun naming' => naming' = naming) rfl).bind fun naming' same => ?_
    subst same
    refine ending naming' ?_
    rw [found]
    rfl
  · exact Stays.bind (Q := fun _ => False) (.throw _) fun _ impossible => impossible.elim

end BlockKind

end Plan

/-! ### What a block does -/

/-- The resources after a block: one more, or another one in place of that which is overridden. -/
inductive Session.Stores (s : Session) (kind : BlockKind) (r : Resource) : List Resource → Prop
  | added (free : r.reference.key ∉ s.resources.map (·.reference.key)) :
    Stores s kind r (s.resources ++ [r])
  | replaced {i : Nat} {old : Resource} (overrides : kind = .override)
    (there : s.resources[i]? = some old) (same : old.reference.key = r.reference.key) :
    Stores s kind r (s.resources.set i r)

theorem Session.Stores.nodup {kind : BlockKind} {rs : List Resource} (h : s.Stores kind r rs)
    (distinct : s.Distinct) : (rs.map (·.reference.key)).Nodup := by
  cases h with
  | added free =>
    rw [List.map_append, List.map_singleton, List.nodup_append]
    refine ⟨distinct, List.pairwise_singleton _ _, fun key taken key' here same => ?_⟩
    rw [List.mem_singleton.1 here] at same
    exact free (same ▸ taken)
  | @replaced i old _ there same =>
    have kept : (s.resources.set i r).map (·.reference.key) = s.resources.map (·.reference.key) := by
      refine List.ext_getElem? fun j => ?_
      rw [List.getElem?_map, List.getElem?_map, List.getElem?_set]
      split
      · rename_i here
        subst here
        rw [there, if_pos (List.getElem?_eq_some_iff.1 there).1]
        simp [same]
      · rfl
    rw [kept]
    exact distinct

/-- A planned resource is added if its slot is free, and takes the place of what is overridden. -/
theorem Session.stores_store {s₀ : Session} {d : TypeDef} {container : Option String}
    {kind : BlockKind} {arguments : List Argument} {plan : BlockPlan}
    (settled : plan.Settles s₀ d container kind arguments) (here : r.reference = plan.reference)
    (same : s₀.resources = s.resources) :
    s₀.SlotFor d container (kind.given? d arguments) r.reference ∧
      s₀.Stores kind r (s.store r).resources := by
  rw [here]
  refine ⟨settled.slot, ?_⟩
  have found : s.resource? r.reference = s₀.resource? plan.reference := by
    rw [Session.resource?, Session.resource?, same, here]
  cases taken : s₀.resource? plan.reference with
  | none =>
    rw [store_of_free (found.trans taken), ← same]
    exact .added (resource?_eq_none_iff.1 (here ▸ taken))
  | some old =>
    have overrides : kind = .override := by
      by_contra other
      rw [settled.free other] at taken
      cases taken
    obtain ⟨i, there, equal, stored⟩ := store_of_taken (found.trans taken)
    rw [stored]
    dsimp only
    rw [← same]
    exact .replaced overrides (same ▸ there) equal

namespace Parse

/-- Behind its head, a block stores one resource in the slot that the head asks for, or none. -/
theorem attempts_blockTail (s₀ : Session) (d : TypeDef) (container : Option String) (kind : BlockKind)
    (keyword : Lexeme) (arguments : List Argument) :
    Attempts s₀.Alike (fun s => ∃ r : Resource,
      s₀.SlotFor d container (kind.given? d arguments) r.reference ∧ s₀.Stores kind r s.resources)
      (blockTail d container kind keyword arguments) := by
  have stable : Session.Stable 0 s₀.Alike := ⟨fun tame => tame.alike s₀, fun alike _ => alike⟩
  refine (Upholds.update (kind.keeps_plan keyword arguments)).runs fun plan settled => ?_
  refine Runs.bind (Q := fun _ (st : ParseState) => s₀.Alike st.session) (fun _ alike => alike)
    fun scope => ?_
  have fills : Fills s₀.Alike (fun _ => s₀.Alike) (fun s => ∃ r : Resource,
      s₀.SlotFor d container (kind.given? d arguments) r.reference ∧ s₀.Stores kind r s.resources) d
      scope (BlockPlan.Settles s₀ d container kind arguments) fun _ => True := by
    refine .of_tame stable.tame (Nat.zero_le _) fun {_ s _} settled same alike => ?_
    have kept : s₀.resources = s.resources := by rw [← alike]
    exact ⟨_, Session.stores_store (s := { s with scopes := s.scopes.release scope }) settled same kept⟩
  exact stable.blockBody fills settled keyword

/-- What becomes of the resources when a block is read. -/
theorem resources_of_resourceBlock (st : ParseState) (d : TypeDef) (container : Option String) :
    match resourceBlock d container st with
    | .error _ t => t.session.resources = st.session.resources
    | .ok _ t => ∃ head u, blockHead st = .ok head u ∧
      match head with
      | none => t.session.resources = st.session.resources
      | some (kind, _, arguments) => ∃ r : Resource,
        st.session.SlotFor d container (kind.given? d arguments) r.reference ∧
          st.session.Stores kind r t.session.resources := by
  have stable : Session.Stable 0 st.session.Alike :=
    ⟨fun tame => tame.alike st.session, fun alike _ => alike⟩
  have same {s : Session} (alike : st.session.Alike s) : s.resources = st.session.resources := by
    rw [← alike]
  have start := stable.blockHead st rfl
  rw [resourceBlock_eq_head]
  cases head : blockHead st with
  | error failure u =>
    rw [head] at start
    rw [bind_of_error head]
    exact same start
  | ok found u =>
    rw [head] at start
    rw [bind_of_ok head]
    rcases found with _ | ⟨kind, keyword, arguments⟩
    · exact ⟨none, u, rfl, same start.1⟩
    · have ran := attempts_blockTail st.session d container kind keyword arguments u start.1
      dsimp only
      cases run : blockTail d container kind keyword arguments u with
      | error failure t =>
        rw [run] at ran
        exact same ran
      | ok _ t =>
        rw [run] at ran
        exact ⟨_, u, rfl, ran⟩

end Parse

/-! ### Sequences of blocks -/

/-- Resource blocks have been read into the session, one after another, from one without resources.
What happened between them has left the resources alone. -/
inductive Session.Declared : Session → Prop
  | start {s : Session} (none : s.resources = []) : Declared s
  | block {s : Session} (before : Declared s) (d : TypeDef) (container : Option String)
    (cursor : Cursor) :
    Declared (finalState (Parse.resourceBlock d container ⟨s, cursor⟩)).session
  | other {s t : Session} (before : Declared s) (same : t.resources = s.resources) : Declared t

theorem Session.Declared.distinct (h : s.Declared) : s.Distinct := by
  induction h with
  | start none =>
    rw [Distinct, none]
    exact List.nodup_nil
  | @block s _ d container cursor ih =>
    have effect := Parse.resources_of_resourceBlock ⟨s, cursor⟩ d container
    cases run : Parse.resourceBlock d container ⟨s, cursor⟩ with
    | error failure t =>
      rw [run] at effect
      rw [Distinct, finalState, effect]
      exact ih
    | ok u t =>
      rw [run] at effect
      obtain ⟨head, -, -, effect⟩ := effect
      rcases head with _ | ⟨kind, keyword, arguments⟩
      · rw [Distinct, finalState, effect]
        exact ih
      · obtain ⟨r, -, stores⟩ := effect
        exact stores.nodup ih
  | other _ same ih =>
    rw [Distinct, same]
    exact ih

theorem Session.Declared.stable : Session.Stable 0 Session.Declared :=
  .of_alike fun s t alike before => before.other (by rw [← alike])

/-- Reading files is reading blocks, with other things between them. -/
theorem Session.Declared.lasting :
    Parse.Lasting (fun _ _ => Session.Declared) fun _ _ _ => Session.Declared := by
  refine .of_same stable (fun before _ _ same => before.other same) (fun _ before => before.other rfl)
    (Parse.Upholds.typeBlock stable fun _ _ before => before.other rfl) fun d container st h => ?_
  have after : (finalState (Parse.resourceBlock d container st)).session.Declared :=
    Session.Declared.block h.1 d container st.cursor
  cases run : Parse.resourceBlock d container st with
  | ok u t =>
    rw [run] at after
    exact after
  | error failure t =>
    rw [run] at after
    exact after

/-- Slots stay unique: in whatever order resource blocks are read, also over whole files with their
imports, no two resources are in one slot. A block that fails or is excluded changes no resource; any
other one stores one resource where its head asks for it. It leaves all other resources where they are,
and unless it overrides one, all of them as they are. -/
theorem Parse.slots_of_declared {s : Session} (declared : s.Declared) :
    (∀ (tree : FileTree) (source : SourceFile), (finalState (tree.parse source s)).Declared) ∧
    s.Distinct ∧
    ∀ (d : TypeDef) (container : Option String) (cursor : Cursor),
      match resourceBlock d container ⟨s, cursor⟩ with
      | .error _ t => t.session.resources = s.resources
      | .ok _ t => ∃ head u, blockHead ⟨s, cursor⟩ = .ok head u ∧
        match head with
        | none => t.session.resources = s.resources
        | some (kind, _, arguments) => ∃ r : Resource,
          s.SlotFor d container (kind.given? d arguments) r.reference ∧
            s.Stores kind r t.session.resources := by
  exact ⟨fun tree source => Session.Declared.lasting.final_parse tree source declared,
    declared.distinct, fun d container cursor => resources_of_resourceBlock ⟨s, cursor⟩ d container⟩

/-- A type without values. -/
def Sample.token : TypeDef := { name := "Token", code := "TOKN" }

/-- In front of `new {};` -/
def Sample.newToken : ParseState :=
  ({} : Session).between default []
    [.bare .identifier "new", .bare .leftBrace, .bare .rightBrace, .bare .semicolon]

theorem Sample.newToken_succeeds :
    (match Parse.resourceBlock Sample.token none Sample.newToken with
      | .ok _ _ => true
      | .error _ _ => false) = true := by decide +kernel

theorem Parse.slots_of_new_token : ∃ (t : ParseState) (r : Resource),
    resourceBlock Sample.token none Sample.newToken = .ok () t ∧
      ({} : Session).Stores .new r t.session.resources ∧ r.reference.typeName = some "Token" ∧
      r.id = Session.firstId := by
  have succeeds := Sample.newToken_succeeds
  have head : blockHead Sample.newToken =
      .ok (some (.new, .bare .identifier "new", []))
        { Sample.newToken with cursor := Sample.newToken.cursor.advance } := rfl
  obtain ⟨-, -, effect⟩ := slots_of_declared (s := {}) (.start rfl)
  have effect := effect Sample.token none Sample.newToken.cursor
  cases run : resourceBlock Sample.token none Sample.newToken with
  | error failure t =>
    rw [run] at succeeds
    cases succeeds
  | ok u t =>
    rw [show (⟨{}, Sample.newToken.cursor⟩ : ParseState) = Sample.newToken from rfl, run] at effect
    obtain ⟨found, u, first, effect⟩ := effect
    cases head.symm.trans first
    obtain ⟨r, slot, stores⟩ := effect
    obtain ⟨low, high, -⟩ := slot.automatic (fun _ none => by cases none) Session.firstId
      (Int64.le_refl _) fun _ member => by cases member
    exact ⟨t, r, rfl, stores, slot.typeName, Int64.le_antisymm high low⟩

end Rsrc
