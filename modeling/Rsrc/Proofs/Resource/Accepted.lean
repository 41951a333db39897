import Rsrc.Proofs.Progress.Loops
import Rsrc.Proofs.Resource.Construction
import Rsrc.Proofs.Resource.Declared

/-!
# Accepted resource blocks

What has happened when a resource block was read and a resource was stored (`BlockRun`): its head was
planned, its scope was opened, values were made, the assignments of its body were carried out one
after another (`Body`), lists were filled up, and what came out was put into the slot of the plan.
-/

namespace Rsrc

/-- An assignment as it is written: the segments of a path, operands and the first lexeme. -/
structure Assignment where
  path : List String
  operands : List Operand
  origin : Lexeme

/-- Carries out an assignment in a body. -/
def TypeDef.carryOut (d : TypeDef) (scope : ScopeId) (r : Record) (a : Assignment) : Update Record :=
  d.assign scope a.origin a.operands r "" a.path

/-- Gives a reference to a known type the code of the type. -/
def Session.coded (s : Session) (value : Value) : Value :=
  match value with
  | .reference reference =>
    match reference.typeCode, reference.typeName.bind s.typeNamed? with
    | none, some d => .reference { reference with typeCode := some d.code }
    | _, _ => value
  | _ => value

theorem Session.withCodes_eq (s : Session) (r : Record) : s.withCodes r = r.mapValues s.coded := rfl

theorem Session.Alike.withCodes {s t : Session} (h : s.Alike t) : t.withCodes = s.withCodes := by
  rw [← h]
  rfl

/-- The scopes inside a block: a new one has the id and the name. -/
def BlockPlan.scopesOf (plan : BlockPlan) (s : Scopes) : Scopes :=
  ((s.push .shadow Scopes.rootId).define s.next "id" (.integer plan.reference.id)).define s.next
    "name" (.string plan.name)

/-- The frame that a block starts with. -/
def BlockPlan.frame (plan : BlockPlan) : Frame where
  parent := some Scopes.rootId
  kind := .shadow
  bindings :=
    (Dict.empty.insert "id" (.integer plan.reference.id)).insert "name" (.string plan.name)

theorem BlockPlan.frames_scopesOf (plan : BlockPlan) (s : Scopes) :
    (plan.scopesOf s).frames = s.frames ++ [plan.frame] := by
  -- the scope of the block is the frame behind all others, and both names go there
  have last (f : Frame → Frame) (frame : Frame) :
      (s.frames ++ [frame]).modify s.depth f = s.frames ++ [f frame] := by
    rw [List.modify_eq_take_cons_drop (by simp [Scopes.depth])]
    simp [Scopes.depth]
  unfold scopesOf Scopes.define Scopes.modify Scopes.push Scopes.next
  simp only [last]
  rfl

theorem BlockPlan.frame?_scopesOf (plan : BlockPlan) (s : Scopes) :
    (plan.scopesOf s).frame? s.next = some plan.frame := by
  rw [Scopes.frame?, plan.frames_scopesOf s]
  exact List.getElem?_concat_length ..

theorem BlockPlan.get?_frame (plan : BlockPlan) (key : String) :
    plan.frame.bindings.get? key =
      if key = "name" then some (.string plan.name)
      else if key = "id" then some (.integer plan.reference.id) else none := by
  unfold frame
  by_cases name : key = "name"
  · simp [name]
  · by_cases id : key = "id"
    · simp [id, Dict.get?_insert_of_ne]
    · rw [Dict.get?_insert_of_ne _ name, Dict.get?_insert_of_ne _ id, if_neg name, if_neg id]
      rfl

namespace Parse

variable {d : TypeDef} {st t : ParseState} {container : Option String}

/-! ### Bodies -/

/-- Reads a decorator or an assignment, which is not carried out. An assignment that is excluded is
passed over. -/
def bodyItem : Parse (Option Assignment) := do
  if ← isAt LexemeKind.decorator then
    decorator
    return none
  else
    match ← claim with
    | none => return none
    | some _ =>
      let some target := (← cursor).peek | fail "an assignment"
      let path ← Reading.path
      Reading.skip LexemeKind.equals
      let operands ← items operand
      Reading.skip LexemeKind.semicolon
      return some
        { path := (path.toList.splitOn '.').map String.ofList
          operands := operands.map fun (expr, origin) => ⟨expr, origin⟩
          origin := target }

/-- Carries out an assignment, if there is one. -/
def perform (d : TypeDef) (scope : ScopeId) (r : Record) : Option Assignment → Parse Record
  | none => pure r
  | some a => ofUpdate (d.carryOut scope r a)

theorem blockItem_eq (scope : ScopeId) (r : Record) :
    blockItem d scope r = bodyItem >>= perform d scope r := by
  unfold blockItem bodyItem
  rw [bind_assoc]
  refine bind_congr fun decorated => ?_
  cases decorated with
  | true => simp [perform]
  | false =>
    simp only [Bool.false_eq_true, if_false, assignment, splitOn_point, bind_assoc]
    refine bind_congr fun claimed => ?_
    cases claimed with
    | none => simp [perform]
    | some decorators =>
      simp only [bind_assoc]
      refine bind_congr fun c => ?_
      cases c.peek with
      | none => rfl
      | some target =>
        simp only [bind_assoc, pure_bind]
        rfl

/-- A body was read up to its closing brace, and its assignments were carried out. They are listed
with the values before each of them. -/
inductive Body (d : TypeDef) (scope : ScopeId) :
    ParseState → Record → List (Record × Assignment) → ParseState → Record → Prop
  | closed {st : ParseState} {r : Record} (brace : st.cursor.isAt LexemeKind.rightBrace = true) :
    Body d scope st r [] st r
  | passed {st u t : ParseState} {r r' : Record} {steps : List (Record × Assignment)}
    (more : ¬ st.cursor.isAt LexemeKind.rightBrace = true) (read : bodyItem st = .ok none u)
    (rest : Body d scope u r steps t r') : Body d scope st r steps t r'
  | assigned {st u t : ParseState} {r r' r'' : Record} {a : Assignment} {s : Session}
    {steps : List (Record × Assignment)} (more : ¬ st.cursor.isAt LexemeKind.rightBrace = true)
    (read : bodyItem st = .ok (some a) u) (made : d.carryOut scope r a u.session = .ok r' s)
    (rest : Body d scope ⟨s, u.cursor⟩ r' steps t r'') :
    Body d scope st r ((r, a) :: steps) t r''

theorem Upholds.bodyItem {n : Nat} {I : Session → Prop} (stable : Session.Stable n I) :
    Upholds I Parse.bodyItem := by
  have flat : Flat n (fun _ st => I st.session) fun st => I st.session := stable.flat id
  refine (stays_isAt _).andThen fun decorated => .ite (fun _ => ?_) fun _ => ?_
  · exact Stays.andThen stable.decorator fun _ => done _
  refine (stable.along id).claimed (k := 0) rfl (fun _ kept => ⟨kept, trivial⟩) fun decorators => ?_
  refine stays_cursor.runs fun c _ => ?_
  split
  · refine (flat.reading .path).andThen fun path => (flat.skip (by decide)).andThen fun _ => ?_
    refine (flat.items flat.operand).andThen fun operands => ?_
    exact Stays.andThen (reading _) fun _ => done _
  · exact flat.fail _

/-- What tame updates keep holds at the end of a body. -/
theorem Body.keeps {n : Nat} {I : Session → Prop} (stable : Session.Stable n I) {scope : ScopeId}
    {r r' : Record} {steps : List (Record × Assignment)} (body : Body d scope st r steps t r')
    (start : I st.session) : I t.session := by
  induction body with
  | closed => exact start
  | passed _ read _ ih => exact ih ((Upholds.bodyItem stable).of_ok start read).1
  | assigned _ read made _ ih =>
    have before := ((Upholds.bodyItem stable).of_ok start read).1
    exact ih ((stable.tame (d.scoped_assign ..).toTame).of_ok before made).1

theorem ofUpdate_eq_ok {α : Type} {u : Update α} {a : α} (h : ofUpdate u st = .ok a t) :
    ∃ s, u st.session = .ok a s ∧ t = ⟨s, st.cursor⟩ := by
  unfold ofUpdate at h
  cases ran : u st.session with
  | ok b s =>
    rw [ran] at h
    cases h
    exact ⟨s, rfl, rfl⟩
  | error e s =>
    rw [ran] at h
    cases h

theorem body_of_toBrace {scope : ScopeId} {r r' : Record}
    (h : toBrace (blockItem d scope) r st = .ok r' t) : ∃ steps, Body d scope st r steps t r' := by
  -- the loop is bounded by the lexemes that are left, so the induction is on that bound
  have within : ∀ limit {st t : ParseState} {r r' : Record},
      stepsToBrace (blockItem d scope) limit r st = .ok r' t →
        ∃ steps, Body d scope st r steps t r' := by
    intro limit
    induction limit with
    | zero =>
      intro st t r r' h
      cases h
    | succ limit ih =>
      intro st t r r' h
      rw [stepsToBrace_succ] at h
      change (if st.cursor.isAt _ then _ else _ : Parse Record) st = _ at h
      split at h
      · rename_i brace
        cases h
        exact ⟨[], .closed brace⟩
      · rename_i more
        split at h
        · cases h
        · obtain ⟨r₁, u, step, rest⟩ := bind_eq_ok h
          rw [blockItem_eq] at step
          obtain ⟨item, v, read, made⟩ := bind_eq_ok step
          obtain ⟨steps, after⟩ := ih rest
          cases item with
          | none =>
            cases made
            exact ⟨steps, .passed more read after⟩
          | some a =>
            obtain ⟨s, carried, rfl⟩ := ofUpdate_eq_ok made
            exact ⟨(r, a) :: steps, .assigned more read carried after⟩
  exact within _ h

/-! ### Blocks -/

/-- A block that stores a resource: what each of its parts comes to, in the order of reading. -/
structure BlockRun (d : TypeDef) (container : Option String) (st : ParseState) where
  kind : BlockKind
  keyword : Lexeme
  arguments : List Argument
  headed : ParseState
  head : blockHead st = .ok (some (kind, keyword, arguments)) headed
  plan : BlockPlan
  planned : Session
  plans : kind.plan d container keyword arguments headed.session = .ok plan planned
  scope : ScopeId
  opened : Session
  opens : plan.openScope planned = .ok scope opened
  /-- The values before the body. -/
  first : Record
  begun : Session
  begins : plan.initial d scope keyword opened = .ok first begun
  entered : ParseState
  brace : Reading.skip LexemeKind.leftBrace headed.cursor = .ok () entered.cursor
  enters : entered.session = begun
  /-- The assignments of the body, with the values before each of them. -/
  steps : List (Record × Assignment)
  /-- The values after the body. -/
  last : Record
  left : ParseState
  body : Body d scope entered first steps left last
  closed : ParseState
  closes : closeBlock left = .ok () closed
  /-- The values with filled lists. -/
  padded : Record
  finished : Session
  pads : d.pad scope last closed.session = .ok padded finished

namespace BlockRun

variable {d : TypeDef} {container : Option String} {st : ParseState}

/-- The resource that the block stores. -/
def resource (run : BlockRun d container st) : Resource where
  reference := run.plan.reference
  name := run.plan.name
  definition := d
  values := run.finished.withCodes run.padded
  origin := some run.keyword

/-- The state behind the block. -/
def result (run : BlockRun d container st) : ParseState where
  session := Session.store { run.finished with scopes := run.finished.scopes.release run.scope }
    run.resource
  cursor := run.closed.cursor

end BlockRun

/-- A block that is read without a failure is excluded, or it stores a resource. -/
theorem exists_blockRun (h : resourceBlock d container st = .ok () t) :
    blockHead st = .ok none t ∨ ∃ run : BlockRun d container st, t = run.result := by
  rw [resourceBlock_eq_head] at h
  obtain ⟨found, headed, head, h⟩ := bind_eq_ok h
  rcases found with _ | ⟨kind, keyword, arguments⟩
  · cases h
    exact .inl head
  · right
    obtain ⟨plan, _, settled, h⟩ := bind_eq_ok h
    obtain ⟨planned, plans, rfl⟩ := ofUpdate_eq_ok settled
    obtain ⟨scope, _, made, h⟩ := bind_eq_ok h
    obtain ⟨opened, opens, rfl⟩ := ofUpdate_eq_ok made
    obtain ⟨first, _, started, h⟩ := bind_eq_ok h
    obtain ⟨begun, begins, rfl⟩ := ofUpdate_eq_ok started
    obtain ⟨_, entered, skipped, h⟩ := bind_eq_ok h
    obtain ⟨brace, enters⟩ := ofReading_eq_ok skipped
    obtain ⟨last, left, read, h⟩ := bind_eq_ok h
    obtain ⟨steps, body⟩ := body_of_toBrace read
    obtain ⟨_, closed, closes, h⟩ := bind_eq_ok h
    obtain ⟨_, finish, rfl⟩ := ofUpdate_eq_ok h
    obtain ⟨padded, finished, pads, store⟩ := bind_eq_ok finish
    cases store
    exact ⟨⟨kind, keyword, arguments, headed, head, plan, planned, plans, scope, opened, opens, first,
      begun, begins, entered, brace, enters, steps, last, left, body, closed, closes, padded, finished, pads⟩,
      rfl⟩

/-- A block whose head is not excluded stores a resource for it, if it is read without a failure. -/
theorem exists_blockRun_of_head {u : ParseState} {kind : BlockKind} {keyword : Lexeme}
    {arguments : List Argument} (head : blockHead st = .ok (some (kind, keyword, arguments)) u)
    (accepted : resourceBlock d container st = .ok () t) :
    ∃ run : BlockRun d container st, t = run.result ∧ run.kind = kind ∧ run.keyword = keyword ∧
      run.arguments = arguments ∧ run.headed = u := by
  rcases exists_blockRun accepted with excluded | ⟨run, stored⟩
  · rw [head] at excluded
    cases excluded
  · obtain ⟨found, headed⟩ := EStateM.Result.ok.inj (run.head.symm.trans head)
    cases found
    exact ⟨run, stored, rfl, rfl, rfl, headed⟩

/-- All that follows the head of a block. The items of the body are read before they are carried
out. -/
def blockRest (d : TypeDef) (container : Option String) (kind : BlockKind) (keyword : Lexeme)
    (arguments : List Argument) : Parse Unit := do
  let plan ← kind.plan d container keyword arguments
  let scope ← plan.openScope
  let r ← plan.initial d scope keyword
  Reading.skip LexemeKind.leftBrace
  let r ← toBrace (fun r => bodyItem >>= perform d scope r) r
  closeBlock
  plan.finish d scope keyword r

theorem resourceBlock_eq_rest :
    resourceBlock d container = blockHead >>= fun head =>
      match head with
      | none => pure ()
      | some (kind, keyword, arguments) => blockRest d container kind keyword arguments := by
  have tail : blockTail d container = blockRest d container := by
    funext kind keyword arguments
    unfold blockTail blockBody blockRest
    simp only [funext (blockItem_eq _)]
  rw [resourceBlock_eq_head]
  refine bind_congr fun head => ?_
  cases head with
  | none => rfl
  | some head => exact congrFun (congrFun (congrFun tail _) _) _

/-- What does not depend on messages, waiting decorators and scopes stays as it is. -/
theorem stable_alike (s : Session) : Session.Stable 0 s.Alike :=
  ⟨fun tame => tame.alike s, fun alike _ => alike⟩

namespace BlockRun

variable {d : TypeDef} {container : Option String} {st : ParseState} (run : BlockRun d container st)

theorem alike_headed : st.session.Alike run.headed.session := by
  have start : st.session.Alike st.session := rfl
  exact ((stable_alike _).blockHead.of_ok start run.head).1

theorem alike_planned : st.session.Alike run.planned :=
  ((run.kind.keeps_plan run.keyword run.arguments).of_ok run.alike_headed run.plans).1

theorem settles : run.plan.Settles st.session d container run.kind run.arguments :=
  ((run.kind.keeps_plan run.keyword run.arguments).of_ok run.alike_headed run.plans).2

theorem scope_eq : run.scope = run.planned.scopes.next :=
  (EStateM.Result.ok.inj run.opens).1.symm

theorem opened_eq : run.opened = { run.planned with scopes := run.plan.scopesOf run.planned.scopes } :=
  (EStateM.Result.ok.inj run.opens).2.symm

theorem alike_opened : st.session.Alike run.opened := by
  rw [run.opened_eq]
  exact run.alike_planned

theorem alike_finished : st.session.Alike run.finished := by
  have initial := run.plan.tame_initial d (Nat.zero_le run.scope.index) run.keyword
  have begun := ((initial.alike st.session).of_ok run.alike_opened run.begins).1
  have left := run.body.keeps (stable_alike st.session) (run.enters ▸ begun)
  have closed := ((stable_alike _).closeBlock.of_ok left run.closes).1
  exact (((d.scoped_pad (n := 0) run.scope run.last).toTame.alike _).of_ok closed run.pads).1

theorem values_eq : run.resource.values = st.session.withCodes run.padded := by
  rw [resource, run.alike_finished.withCodes]

/-- The resource is put into the slot of the plan. -/
theorem stores_resource : st.session.Stores run.kind run.resource run.result.session.resources := by
  have same : st.session.resources = run.finished.resources := by rw [← run.alike_finished]
  exact (Session.stores_store (s := { run.finished with scopes := run.finished.scopes.release run.scope })
    run.settles rfl same).2

end BlockRun

end Parse

/-- A number in a source. -/
def Sample.number (n : Int64) : Lexeme :=
  { Lexeme.bare .integer with literal := some (.integer n) }

end Rsrc
