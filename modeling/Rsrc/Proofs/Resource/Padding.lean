import Mathlib.Logic.Relation
import Rsrc.Proofs.Resource.Changes
import Rsrc.Proofs.Resource.Places

/-!
# Lists that are long enough

Before a resource is stored, the lists of its type's fields are filled up to their lower bounds, so
they are long enough for encoding (`Session.Declared.filled`). Encoding also comes to the lists of
nested types (`Encoding.Visit`). These are not filled up: a list that is too short is always one of
them.
-/

namespace Rsrc

variable {d : TypeDef} {s : Session} {r : Resource}

/-! ### Filling up -/

/-- The lists of the fields of a type have as many elements as the fields ask for. -/
def Record.Filled (r : Record) (d : TypeDef) : Prop :=
  ∀ f ∈ d.fields, ∀ rep, f.repetition = some rep → rep.lower.toInt ≤ (r.list f.name).length

namespace TypeDef

variable {scope : ScopeId} {r : Record}

theorem ensures_defaultEntries (d : TypeDef) (f : Field) (count : Nat) :
    (d.defaultEntries scope f count).Ensures (·.length = count) := by
  induction count with
  | zero => exact .pure rfl
  | succ count ih =>
    refine (Update.ensures_any _).andThen fun entry => ih.bind fun entries length => .pure ?_
    rw [List.length_cons, length]

theorem ensures_padField (d : TypeDef) (f : Field) :
    (d.padField scope r f).Ensures fun r' =>
      (∀ key, (r.list key).length ≤ (r'.list key).length) ∧
        ∀ rep, f.repetition = some rep → rep.lower.toInt ≤ (r'.list f.name).length := by
  unfold padField
  split
  · rename_i single
    exact .pure ⟨fun _ => Nat.le_refl _, fun rep repeats => by rw [single] at repeats; cases repeats⟩
  · rename_i rep repeats
    refine .ite (fun enough => .pure ⟨fun _ => Nat.le_refl _, ?_⟩) fun short => ?_
    · intro rep' same
      obtain rfl : rep = rep' := by simpa [repeats] using same
      omega
    · refine (d.ensures_defaultEntries f _).bind fun entries length => .pure ?_
      have appended : Record.Changes (fun _ => True) (fun _ => True) r
          (r.appendEntries f.name entries) :=
        .appendEntries trivial (fun _ _ _ => trivial) entries
      refine ⟨appended.longer, fun rep' same => ?_⟩
      obtain rfl : rep = rep' := by simpa [repeats] using same
      rw [Record.appendEntries, Record.list_setList, List.length_append, length]
      omega

theorem ensures_pad (d : TypeDef) : (d.pad scope r).Ensures (·.Filled d) := by
  have each : ∀ fields : List Field, (fields.foldlM (d.padField scope) r : Update Record).Ensures fun r' =>
      (∀ key, (r.list key).length ≤ (r'.list key).length) ∧
        ∀ f ∈ fields, ∀ rep, f.repetition = some rep → rep.lower.toInt ≤ (r'.list f.name).length := by
    intro fields
    induction fields generalizing r with
    | nil => exact .pure ⟨fun _ => Nat.le_refl _, fun _ member => by cases member⟩
    | cons f fields ih =>
      rw [List.foldlM_cons]
      refine (d.ensures_padField f).bind fun r' first => ih.mono fun r'' rest => ⟨?_, ?_⟩
      · exact fun key => Nat.le_trans (first.1 key) (rest.1 key)
      · intro f' member rep repeats
        rcases List.mem_cons.1 member with rfl | later
        · have grown := rest.1 f'.name
          have enough := first.2 rep repeats
          omega
        · exact rest.2 f' later rep repeats
  exact (each d.fields).mono fun r' filled => filled.2

end TypeDef

theorem Record.Filled.mapValues {r : Record} (h : r.Filled d) (f : Value → Value) :
    (r.mapValues f).Filled d := by
  intro field known rep repeats
  rw [list_mapValues, List.length_map]
  exact h field known rep repeats

theorem Parse.BlockRun.filled {container : Option String} {st : ParseState}
    (run : BlockRun d container st) : run.resource.values.Filled d :=
  (d.ensures_pad.of_ok trivial run.pads).2.mapValues _

theorem Session.Stores.mem {kind : BlockKind} {r' : Resource} {rs : List Resource}
    (h : s.Stores kind r rs) (member : r' ∈ rs) : r' ∈ s.resources ∨ r' = r := by
  cases h with
  | added free => simpa using member
  | replaced overrides there same => exact List.mem_or_eq_of_mem_set member

theorem Session.Stores.self_mem {kind : BlockKind} {rs : List Resource} (h : s.Stores kind r rs) :
    r ∈ rs := by
  cases h with
  | added => simp
  | replaced overrides there same => exact List.mem_set (List.getElem?_eq_some_iff.1 there).1 r

/-- A block leaves the resources as they are, or it stores one. -/
theorem Parse.mem_of_resourceBlock {container : Option String} {st : ParseState}
    (stored : r ∈ (finalState (resourceBlock d container st)).session.resources) :
    r ∈ st.session.resources ∨ ∃ run : BlockRun d container st,
      resourceBlock d container st = .ok () run.result ∧ r = run.resource := by
  have effect := resources_of_resourceBlock st d container
  cases ran : resourceBlock d container st with
  | error failure t =>
    rw [ran] at effect stored
    exact .inl (effect ▸ stored)
  | ok u t =>
    rw [ran] at stored
    rcases exists_blockRun ran with excluded | ⟨run, rfl⟩
    · have start : st.session.Alike st.session := rfl
      have alike := ((stable_alike st.session).blockHead.of_ok start excluded).1
      have same : t.session.resources = st.session.resources := by rw [← alike]
      exact .inl (same ▸ stored)
    · exact (run.stores_resource.mem stored).imp id fun same => ⟨run, rfl, same⟩

/-- Every stored resource has lists that are long enough for its type. -/
theorem Session.Declared.filled (declared : s.Declared) :
    ∀ r ∈ s.resources, r.values.Filled r.definition := by
  induction declared with
  | start none => simp [none]
  | @block s _ d container cursor ih =>
    intro r stored
    rcases Parse.mem_of_resourceBlock stored with before | ⟨run, -, rfl⟩
    · exact ih r before
    · exact run.filled
  | other _ same ih => rwa [same]

/-! ### Errors that are not about lists -/

/-- A list has fewer elements than its field asks for. -/
def EncodingError.isShortage : EncodingError → Bool
  | .rejected (.repeatCount n lower _) .. => n < lower.toInt
  | _ => false

namespace Encoding

variable {α β τ : Type} {s : Subject} {format : Format} {order : ByteOrder} {nested : Nested τ}
  {r : Record} {front : String} {e : EncodingError}

/-- If there is an error, it is not about a list that is too short. -/
structure Quiet (x : Except EncodingError α) : Prop where
  of_error : ∀ e, x = .error e → e.isShortage = false

namespace Quiet

theorem ok (a : α) : Quiet (.ok a) := ⟨fun e h => by cases h⟩

theorem error {e : EncodingError} (h : e.isShortage = false) : Quiet (.error e : Except _ α) :=
  ⟨fun e' same => by cases same; exact h⟩

theorem bind {x : Except EncodingError α} {f : α → Except EncodingError β} (first : Quiet x)
    (second : ∀ a, Quiet (f a)) : Quiet (x >>= f) := by
  cases x with
  | ok a => exact second a
  | error e => exact error (first.of_error e rfl)

theorem ite {c : Prop} [Decidable c] {x y : Except EncodingError α} (yes : Quiet x) (no : Quiet y) :
    Quiet (if c then x else y) := by
  split
  · exact yes
  · exact no

theorem concat {f : α → Except EncodingError (List UInt8)} {items : List α}
    (each : ∀ a ∈ items, Quiet (f a)) : Quiet (Encoding.concat f items) := by
  induction items with
  | nil => exact ok _
  | cons a items ih =>
    refine (each a List.mem_cons_self).bind fun bytes => ?_
    exact (ih fun b member => each b (List.mem_cons_of_mem _ member)).bind fun _ => ok _

theorem mapM {f : α → Except EncodingError β} (each : ∀ a, Quiet (f a)) (items : List α) :
    Quiet (items.mapM f) := by
  induction items with
  | nil => exact ok _
  | cons a items ih =>
    rw [List.mapM_cons]
    exact (each a).bind fun b => ih.bind fun rest => ok _

theorem integer (width : Nat) (signed : Bool) (tag : Tag) (key : String) (n : Int64) :
    Quiet (Encoding.integer s order width signed tag key n) := .ite (ok _) (error rfl)

variable (key : String)

theorem integerOf (v : Option Value) : Quiet (Encoding.integerOf s key v) := by
  unfold Encoding.integerOf
  split
  · exact ok _
  · exact ok _
  · split
    · exact ok _
    · exact error rfl

theorem characterOf (v : Option Value) : Quiet (Encoding.characterOf s key v) := by
  unfold Encoding.characterOf
  split
  · exact ok _
  · split
    · split
      · exact ok _
      · exact error rfl
    · exact ok _
    · exact error rfl

theorem booleanOf (v : Option Value) : Quiet (Encoding.booleanOf s key v) := by
  unfold Encoding.booleanOf
  split
  iterate 3 exact ok _
  exact error rfl

theorem textOf (key expected : String) (v : Option Value) :
    Quiet (Encoding.textOf s key expected v) := by
  unfold Encoding.textOf
  split
  iterate 2 exact ok _
  exact error rfl

theorem referenceOf (v : Option Value) : Quiet (Encoding.referenceOf s key v) := by
  unfold Encoding.referenceOf
  split
  iterate 3 exact ok _
  exact error rfl

theorem text (tag : Tag) (key : String) (bytes : List UInt8) :
    Quiet (Encoding.text s order tag key bytes) := by
  unfold Encoding.text
  split
  · exact .ite (ok _) (error rfl)
  · exact ok _
  · exact .ite (ok _) (error rfl)
  · exact .ite (ok _) (error rfl)
  · exact ok _

theorem reference (ref : Reference) : Quiet (Encoding.reference s format order key ref) := by
  unfold Encoding.reference
  split
  · refine bind ?_ fun container => ok _
    unfold Reference.containerBytes
    split
    · exact ok _
    · exact .ite (ok _) (error rfl)
  · exact integer ..
  · exact integer ..

theorem value (tag : Tag) (key : String) (v : Option Value) :
    Quiet (Encoding.value s format order tag key v) := by
  unfold Encoding.value
  split
  · exact (integerOf ..).bind fun n => integer ..
  · exact (characterOf ..).bind fun n => .ite (ok _) (error rfl)
  · exact (booleanOf ..).bind fun b => ok _
  iterate 4 exact (textOf ..).bind fun content => text ..
  · refine (textOf ..).bind fun content => ?_
    split
    · exact ok _
    · exact error rfl
  · exact (referenceOf ..).bind fun r => reference ..
  · exact ok _

theorem side (v : Option Value) : Quiet (Encoding.side s order key v) := by
  have stored : ∀ n, Quiet (Encoding.integer s order 2 true (.integer .two true) key n) :=
    fun n => integer ..
  unfold Encoding.side
  dsimp only
  split
  · exact (ok _).bind stored
  · split
    · exact (ok _).bind stored
    · exact bind (error rfl) stored

end Quiet

/-! ### Where encoding stops at a list -/

theorem bind_eq_error {x : Except EncodingError α} {f : α → Except EncodingError β}
    (h : x >>= f = .error e) : x = .error e ∨ ∃ a, x = .ok a ∧ f a = .error e := by
  cases x with
  | ok a => exact .inr ⟨a, rfl, h⟩
  | error e' =>
    cases h
    exact .inl rfl

theorem concat_eq_error {f : α → Except EncodingError (List UInt8)} {items : List α}
    (h : concat f items = .error e) : ∃ a ∈ items, f a = .error e := by
  induction items with
  | nil => cases h
  | cons a items ih =>
    rcases bind_eq_error h with first | ⟨bytes, -, h⟩
    · exact ⟨a, List.mem_cons_self, first⟩
    · rcases bind_eq_error h with more | ⟨_, -, done⟩
      · obtain ⟨b, member, failed⟩ := ih more
        exact ⟨b, List.mem_cons_of_mem _ member, failed⟩
      · cases done

/-- The entry holds a type that is nested in place. -/
def Nests (x : Entry τ) (t : τ) : Prop := Slot.IsNested x.tag ∧ x.nested = some t

/-- The bytes of an entry with a nested type are those of the nested type. -/
theorem cell_of_nests {x : Entry τ} {t : τ} (nests : Nests x t) :
    cell s format order nested r front (.one x) = nested t r (front ++ x.label ++ ".") := by
  obtain ⟨label, tag, inner, size⟩ := x
  obtain ⟨rfl | ⟨name, rfl⟩, rfl⟩ := nests
  · rfl
  · rfl

theorem cell_eq_error {c : Cell τ} (h : cell s format order nested r front c = .error e)
    (short : e.isShortage = true) :
    ∃ x ∈ c.entries, ∃ t, Nests x t ∧ nested t r (front ++ x.label ++ ".") = .error e := by
  have loud : ¬ Quiet (cell s format order nested r front c) := by
    intro quiet
    rw [quiet.of_error e h] at short
    cases short
  cases c with
  | bits run =>
    refine absurd ?_ loud
    exact (Quiet.mapM (fun x => .booleanOf ..) run).bind fun bits => .ok _
  | one x =>
    by_cases nests : ∃ t, Nests x t
    · obtain ⟨t, nests⟩ := nests
      rw [cell_of_nests nests] at h
      exact ⟨x, List.mem_singleton_self x, t, nests, h⟩
    · refine absurd ?_ loud
      obtain ⟨label, tag, inner, size⟩ := x
      unfold cell
      dsimp only
      split
      · exact absurd ⟨_, .inl rfl, rfl⟩ nests
      · exact absurd ⟨_, .inr ⟨_, rfl⟩, rfl⟩ nests
      · exact .concat fun name _ => .side ..
      · exact .concat fun name _ => .side ..
      · exact .value ..

theorem entries_eq_error {es : List (Entry τ)} (h : entries s format order nested r front es = .error e)
    (short : e.isShortage = true) :
    ∃ x ∈ es, ∃ t, Nests x t ∧ nested t r (front ++ x.label ++ ".") = .error e := by
  obtain ⟨c, member, failed⟩ := concat_eq_error h
  obtain ⟨x, inside, found⟩ := cell_eq_error failed short
  exact ⟨x, Cell.mem_of_mem_ofEntries member inside, found⟩

theorem list_eq_error {fields : List Field} {count : Entry τ} {members : List (Entry τ)}
    (h : sectionBytes s format order fields nested r front (.list count members) = .error e)
    (short : e.isShortage = true) :
    (∃ f rep, listOwner? fields count.label = some f ∧ f.repetition = some rep ∧
      e = .rejected (.repeatCount (r.list (front ++ f.name)).length rep.lower rep.upper) f.name
        s.resource s.site) ∨
    ∃ element ∈ elements fields r front count, ∃ x ∈ members, ∃ t, Nests x t ∧
      nested t element (x.label ++ ".") = .error e := by
  simp only [sectionBytes] at h
  split at h
  · -- a list that no field owns is empty, and may be
    cases h
    cases owner : listOwner? fields count.label with
    | none => simp [owner, EncodingError.isShortage, listBounds] at short
    | some f =>
      cases repeats : f.repetition with
      | none =>
        simp only [owner, repeats, EncodingError.isShortage, listBounds, Option.bind_some,
          decide_eq_true_eq] at short
        exact absurd short (by simp)
      | some rep => exact .inl ⟨f, rep, rfl, repeats, by simp [listBounds, repeats]⟩
  · rcases bind_eq_error h with failed | ⟨_, -, done⟩
    · obtain ⟨element, stored, failed⟩ := concat_eq_error failed
      obtain ⟨x, member, t, nests, failed⟩ := entries_eq_error failed short
      rw [String.empty_append] at failed
      exact .inr ⟨element, stored, x, member, t, nests, failed⟩
    · cases done

/-! ### Stages of encoding -/

/-- Sections hold entries of the template, also where list markers do not pair up. -/
theorem mem_of_section {part : Section τ} {x : Entry τ} (member : x ∈ part.entries)
    (es : List (Entry τ)) :
    (∀ run, part ∈ Section.outside run es → x ∈ run ∨ x ∈ es) ∧
      ∀ count members, part ∈ Section.inside count members es → x ∈ members ∨ x ∈ es := by
  have plain {run : List (Entry τ)} (h : part ∈ Section.ofPlain run) : x ∈ run := by
    rw [Section.mem_ofPlain h] at member
    simpa [Section.entries] using member
  have list {count : Entry τ} {members : List (Entry τ)} (h : part = .list count members.reverse) :
      x ∈ members := by
    rw [h] at member
    simpa [Section.entries] using member
  induction es with
  | nil =>
    refine ⟨fun run h => .inl (plain h), fun count members h => .inl (list (List.mem_singleton.1 h))⟩
  | cons y es ih =>
    obtain ⟨outer, inner⟩ := ih
    refine ⟨fun run h => ?_, fun count members h => ?_⟩
    · rw [Section.outside] at h
      split at h
      · rcases List.mem_append.1 h with old | new
        · exact .inl (plain old)
        · grind [inner _ _ new]
      · rcases List.mem_append.1 h with old | new
        · exact .inl (plain old)
        · grind [outer _ new]
      · rcases List.mem_append.1 h with old | new
        · exact .inl (plain old)
        · grind [outer _ new]
      · grind [outer _ h]
    · rw [Section.inside] at h
      split at h
      · rcases List.mem_cons.1 h with here | new
        · exact .inl (list here)
        · grind [outer _ new]
      · grind [inner _ _ h]
      · grind [inner _ _ h]

/-- A stage of encoding: a type, the record with its values, and what their keys start with. -/
structure Visit where
  type : TypeDef
  values : Record
  front : String

namespace Visit

variable {v w : Visit} {s : Subject} {format : Format}

def encode (s : Subject) (format : Format) (v : Visit) : Except EncodingError (List UInt8) :=
  v.type.encode s format v.values v.front

/-- Encoding goes from one stage into the next one: to a type that is nested in an entry outside lists,
or in an entry of some element of a list. -/
inductive Enters : Visit → Visit → Prop
  | plain {v : Visit} {es : List (Entry TypeDef)} {x : Entry TypeDef} {t : TypeDef}
    (part : .plain es ∈ v.type.template.sections) (member : x ∈ es) (nests : Nests x t) :
    Enters v ⟨t, v.values, v.front ++ x.label ++ "."⟩
  | element {v : Visit} {count x : Entry TypeDef} {members : List (Entry TypeDef)} {t : TypeDef}
    {element : Record} (part : .list count members ∈ v.type.template.sections)
    (stored : element ∈ elements v.type.fields v.values v.front count) (member : x ∈ members)
    (nests : Nests x t) : Enters v ⟨t, element, x.label ++ "."⟩

/-- At the stage, the list of a field is too short. -/
structure Lacks (v : Visit) (f : Field) (rep : Repetition) : Prop where
  owns : ∃ count members, .list count members ∈ v.type.template.sections ∧
    listOwner? v.type.fields count.label = some f
  repeats : f.repetition = some rep
  short : (v.values.list (v.front ++ f.name)).length < rep.lower.toInt

/-- What is said of a list that is too short. -/
def shortage (s : Subject) (v : Visit) (f : Field) (rep : Repetition) : EncodingError :=
  .rejected (.repeatCount (v.values.list (v.front ++ f.name)).length rep.lower rep.upper) f.name
    s.resource s.site

/-- The next stage is in a type that some entry of the template holds. -/
theorem Enters.mem (h : Enters v w) : ∃ x ∈ v.type.template.entries, x.nested = some w.type := by
  cases h with
  | @plain es x t part member nests =>
    have inside : x ∈ (Section.plain es).entries := member
    have known := (mem_of_section inside v.type.template.entries).1 [] part
    exact ⟨x, known.resolve_left List.not_mem_nil, nests.2⟩
  | @element count x members t element part stored member nests =>
    have inside : x ∈ (Section.list count members).entries := member
    have known := (mem_of_section inside v.type.template.entries).1 [] part
    exact ⟨x, known.resolve_left List.not_mem_nil, nests.2⟩

/-- If a list is too short for encoding, it is that of a field at some stage. -/
theorem exists_lacks {e : EncodingError} (v : Visit) (h : v.encode s format = .error e)
    (short : e.isShortage = true) :
    ∃ w f rep, Relation.ReflTransGen Enters v w ∧ w.Lacks f rep ∧ e = w.shortage s f rep := by
  have failed := h
  rw [encode, TypeDef.encode_eq] at failed
  obtain ⟨part, member, failed⟩ := concat_eq_error failed
  cases part with
  | plain es =>
    obtain ⟨x, inside, t, nests, failed⟩ := entries_eq_error failed short
    have enters : Enters v ⟨t, v.values, v.front ++ x.label ++ "."⟩ := .plain member inside nests
    have smaller := TypeDef.sizeOf_nested enters.mem
    obtain ⟨w, f, rep, reached, lacks⟩ := exists_lacks ⟨t, v.values, _⟩ failed short
    exact ⟨w, f, rep, .head enters reached, lacks⟩
  | list count members =>
    rcases list_eq_error failed short with ⟨f, rep, owner, repeats, rfl⟩ | inner
    · exact ⟨v, f, rep, .refl, ⟨⟨count, members, member, owner⟩, repeats,
        by simpa [EncodingError.isShortage] using short⟩, rfl⟩
    · obtain ⟨element, stored, x, inside, t, nests, failed⟩ := inner
      have enters : Enters v ⟨t, element, x.label ++ "."⟩ := .element member stored inside nests
      have smaller := TypeDef.sizeOf_nested enters.mem
      obtain ⟨w, f, rep, reached, lacks⟩ := exists_lacks ⟨t, element, _⟩ failed short
      exact ⟨w, f, rep, .head enters reached, lacks⟩
termination_by sizeOf v.type

theorem Enters.exists_ok {bytes : List UInt8} (enters : Enters v w)
    (h : v.encode s format = .ok bytes) : ∃ bytes, w.encode s format = .ok bytes := by
  have entry {r : Record} {front : String} {es : List (Entry TypeDef)} {x : Entry TypeDef} {t : TypeDef}
      {stored : List UInt8}
      (h : entries s format v.type.template.order (fun t r front => t.encode s format r front) r front
        es = .ok stored) (member : x ∈ es) (nests : Nests x t) :
      ∃ bytes, t.encode s format r (front ++ x.label ++ ".") = .ok bytes := by
    obtain ⟨c, inside, here⟩ : ∃ c ∈ Cell.ofEntries es, x ∈ c.entries := by
      rwa [← Cell.entries_ofEntries es, List.mem_flatMap] at member
    have formed := Cell.wellFormed_ofEntries c inside
    have ok := (concat_eq_ok h).1 c inside
    cases c with
    | bits run =>
      have bit := formed.2.2 x here
      rcases nests.1 with other | ⟨_, other⟩ <;> simp [bit] at other
    | one y =>
      obtain rfl : x = y := List.mem_singleton.1 here
      rw [cell_of_nests nests] at ok
      exact ⟨_, ok⟩
  rw [encode, TypeDef.encode_eq] at h
  have parts := (concat_eq_ok h).1
  cases enters with
  | plain part member nests => exact entry (parts _ part) member nests
  | element part stored member nests =>
    obtain ⟨_, -, elements, -⟩ := sectionBytes_list (parts _ part)
    have found := entry ((concat_eq_ok elements).1 _ stored) member nests
    rwa [String.empty_append] at found

/-- Encoding succeeds only where no list is too short. -/
theorem not_lacks_of_ok {bytes : List UInt8} (h : v.encode s format = .ok bytes)
    (reached : Relation.ReflTransGen Enters v w) (f : Field) (rep : Repetition) :
    ¬ w.Lacks f rep := by
  induction reached using Relation.ReflTransGen.head_induction_on generalizing bytes with
  | refl =>
    rintro ⟨⟨count, members, part, owner⟩, repeats, short⟩
    rw [encode, TypeDef.encode_eq] at h
    have stored := (concat_eq_ok h).1 _ part
    simp only [sectionBytes, owner, listBounds, Option.map_some, Option.getD_some, Option.bind_some,
      repeats, short, decide_true, Bool.true_or, if_true] at stored
    cases stored
  | head enters _ ih =>
    obtain ⟨bytes', ok⟩ := enters.exists_ok h
    exact ih ok

/-- A property of a type and of all that is nested in it holds at every stage. -/
theorem everywhere {P : TypeDef → Prop} (reached : Relation.ReflTransGen Enters v w)
    (h : v.type.Everywhere P) : w.type.Everywhere P := by
  induction reached with
  | refl => exact h
  | tail _ enters ih =>
    obtain ⟨-, nested⟩ := ih
    obtain ⟨x, known, found⟩ := enters.mem
    exact nested x known _ found

theorem Lacks.mem {f : Field} {rep : Repetition} (h : v.Lacks f rep) : f ∈ v.type.fields := by
  obtain ⟨count, members, -, owner⟩ := h.owns
  exact List.mem_of_find?_eq_some owner

end Visit

end Encoding

/-! ### Declared resources -/

open Encoding (Visit)

/-- The first stage of encoding a resource. -/
def Resource.visit (r : Resource) : Visit := ⟨r.definition, r.values, ""⟩

/-- No repeatable field of the type asks for elements. -/
def TypeDef.Modest (d : TypeDef) : Prop :=
  ∀ f ∈ d.fields, ∀ rep, f.repetition = some rep → rep.lower.toInt ≤ 0

/-- The lists of a declared resource are long enough for the fields of its type. If encoding stops at
a list that is too short, the list belongs to a type that is nested in the resource's type, directly or
not, and each such list keeps the resource from being encoded. Types that nest no type with a positive
lower bound do not have this failure. -/
theorem Session.shortage_of_declared {s : Session} (declared : s.Declared) {r : Resource}
    (stored : r ∈ s.resources) :
    r.values.Filled r.definition ∧
    (∀ format e, r.encode format = .error e → e.isShortage = true →
      ∃ v f rep, Relation.TransGen Visit.Enters r.visit v ∧ v.Lacks f rep ∧
        e = v.shortage r.subject f rep) ∧
    (∀ v f rep, Relation.TransGen Visit.Enters r.visit v → v.Lacks f rep →
      ∀ format bytes, r.encode format ≠ .ok bytes) ∧
    ((∀ x ∈ r.definition.template.entries, ∀ t, x.nested = some t → t.Everywhere TypeDef.Modest) →
      ∀ format e, r.encode format = .error e → e.isShortage = false) := by
  have filled := declared.filled r stored
  have nested : ∀ format e, r.encode format = .error e → e.isShortage = true →
      ∃ v f rep, Relation.TransGen Visit.Enters r.visit v ∧ v.Lacks f rep ∧
        e = v.shortage r.subject f rep := by
    intro format e failed short
    obtain ⟨v, f, rep, reached, lacks, same⟩ := Encoding.Visit.exists_lacks r.visit failed short
    rcases Relation.reflTransGen_iff_eq_or_transGen.1 reached with rfl | further
    · -- the lists of the type itself have been filled up
      have enough := filled f lacks.mem rep lacks.repeats
      have few : (r.values.list ("" ++ f.name)).length < rep.lower.toInt := lacks.short
      rw [String.empty_append] at few
      omega
    · exact ⟨v, f, rep, further, lacks, same⟩
  refine ⟨filled, nested, fun v f rep reached lacks format bytes encoded => ?_,
    fun modest format e failed => ?_⟩
  · exact Visit.not_lacks_of_ok (v := r.visit) encoded reached.to_reflTransGen f rep lacks
  · by_contra short
    obtain ⟨v, f, rep, reached, lacks, -⟩ := nested format e failed (by simpa using short)
    obtain ⟨w, enters, further⟩ := Relation.TransGen.head'_iff.1 reached
    obtain ⟨x, known, found⟩ := enters.mem
    have bounded := (Visit.everywhere further (modest x known _ found)).here f lacks.mem rep lacks.repeats
    have few := lacks.short
    omega

/-- A type with a list of one to three numbers. -/
def Sample.row : TypeDef where
  name := "Row"
  code := "ROWS"
  template :=
    { entries := [{ label := "count", tag := .count }, { label := "begin", tag := .listStart },
        { label := "cell", tag := .integer .two true }, { label := "end", tag := .listEnd }]
      groups := [⟨0, 1, 3⟩] }
  fields :=
    [{ name := "cells", values := [{ name := "cell", origin := here "cell" }],
       repetition := some ⟨1, 3, "count"⟩, origin := here "cells" }]

/-- A type with a row in it. -/
def Sample.board : TypeDef where
  name := "Board"
  code := "BORD"
  template := { entries := [{ label := "row", tag := .nested "Row", nested := some row }] }
  fields := [Field.synthesize "row" (here "row")]

theorem Sample.board_short :
    (match Parse.resourceBlock Sample.board none Sample.newToken with
      | .ok _ t => t.session.resources.any fun r =>
        match r.encode .extended with
        | .ok _ => false
        | .error e => e.isShortage
      | .error _ _ => false) = true := by
  decide +kernel

/-- The row of a new board is empty, and a board can not be encoded. -/
theorem Sample.exists_short_board : ∃ (s : Session) (r : Resource) (e : EncodingError),
    s.Declared ∧ r ∈ s.resources ∧ r.encode .extended = .error e ∧ e.isShortage = true := by
  have short := Sample.board_short
  have declared := Session.Declared.block (s := {}) (.start rfl) Sample.board none Sample.newToken.cursor
  rw [show (⟨{}, Sample.newToken.cursor⟩ : ParseState) = Sample.newToken from rfl] at declared
  cases run : Parse.resourceBlock Sample.board none Sample.newToken with
  | error failure t =>
    rw [run] at short
    cases short
  | ok u t =>
    rw [run] at short declared
    obtain ⟨r, stored, short⟩ := List.any_eq_true.1 short
    cases encoded : r.encode .extended with
    | ok bytes => simp [encoded] at short
    | error e => exact ⟨t.session, r, e, declared, stored, encoded, by simpa [encoded] using short⟩

theorem Session.shortage_of_board : ∃ (s : Session) (r : Resource) (v : Visit) (f : Field)
    (rep : Repetition), s.Declared ∧ r ∈ s.resources ∧ r.values.Filled r.definition ∧
      Relation.TransGen Visit.Enters r.visit v ∧ v.Lacks f rep ∧
      r.encode .extended = .error (v.shortage r.subject f rep) := by
  obtain ⟨s, r, e, declared, stored, failed, short⟩ := Sample.exists_short_board
  obtain ⟨filled, nested, -⟩ := shortage_of_declared declared stored
  obtain ⟨v, f, rep, reached, lacks, rfl⟩ := nested .extended e failed short
  exact ⟨s, r, v, f, rep, declared, stored, filled, reached, lacks, failed⟩

end Rsrc
