import Mathlib.Data.List.Nodup
import Mathlib.Data.List.Pairwise
import Rsrc.Proofs.Resource.Changes
import Rsrc.Proofs.Scopes.Agreement

/-!
# Masks for joined parts

The symbols of a value stand for bits, and an expression unites some of them. Where the symbols belong
to several joined parts, the bits are split: each part that has one of the symbols is given the union
of its own, and the parts together hold what the expression is worth with all symbols bound
(`TypeDef.assignValue_unites`). A part is told from the others by its label, so this takes labels that
are distinct.
-/

namespace Rsrc

variable {e : Expr} {parts : List FieldValue}

/-! ### Unions -/

/-- The union of the bits of integers. -/
def Integer.unite (bits : List Int64) : Int64 := bits.foldr (· ||| ·) 0

namespace Integer

variable {α : Type} {items : List α}

theorem unite_cons (n : Int64) (bits : List Int64) : unite (n :: bits) = n ||| unite bits := rfl

theorem unite_append (bits bits' : List Int64) :
    unite (bits ++ bits') = unite bits ||| unite bits' := by
  induction bits with
  | nil => simp [unite]
  | cons n bits ih => rw [List.cons_append, unite_cons, unite_cons, ih, Int64.or_assoc]

theorem unite_map_or (f g : α → Int64) :
    unite (items.map fun a => f a ||| g a) = unite (items.map f) ||| unite (items.map g) := by
  induction items with
  | nil => simp [unite]
  | cons a items ih =>
    rw [List.map_cons, List.map_cons, List.map_cons, unite_cons, unite_cons, unite_cons, ih,
      Int64.or_assoc, Int64.or_assoc, ← Int64.or_assoc (g a), Int64.or_comm (g a), Int64.or_assoc]

theorem unite_eq_zero {bits : List Int64} (h : ∀ n ∈ bits, n = 0) : unite bits = 0 := by
  induction bits with
  | nil => rfl
  | cons n bits ih =>
    rw [unite_cons, h n List.mem_cons_self, Int64.zero_or]
    exact ih fun m member => h m (List.mem_cons_of_mem _ member)

/-- A table can be united by rows or by columns. -/
theorem unite_comm {β : Type} (f : α → β → Int64) (as : List α) (bs : List β) :
    unite (as.map fun a => unite (bs.map (f a))) = unite (bs.map fun b => unite (as.map (f · b))) := by
  induction as with
  | nil =>
    refine (unite_eq_zero fun n member => ?_).symm
    obtain ⟨_, -, rfl⟩ := List.mem_map.1 member
    rfl
  | cons a as ih =>
    simp only [List.map_cons, unite_cons]
    rw [unite_map_or, ih]

/-- What adds no bits can be left out. -/
theorem unite_filter {f : α → Int64} {p : α → Bool} (none : ∀ a ∈ items, p a = false → f a = 0) :
    unite ((items.filter p).map f) = unite (items.map f) := by
  induction items with
  | nil => rfl
  | cons a items ih =>
    have later := ih fun b member => none b (List.mem_cons_of_mem _ member)
    cases chosen : p a with
    | true =>
      rw [List.filter_cons_of_pos chosen, List.map_cons, List.map_cons, unite_cons, unite_cons, later]
    | false =>
      rw [List.filter_cons_of_neg (by simp [chosen]), List.map_cons, unite_cons, later,
        none a List.mem_cons_self chosen, Int64.zero_or]

theorem unite_filterMap (f : α → Option Int64) :
    unite (items.filterMap f) = unite (items.map fun a => (f a).getD 0) := by
  induction items with
  | nil => rfl
  | cons a items ih =>
    cases found : f a with
    | none => simp [found, ih, unite_cons]
    | some n => simp [found, ih, unite_cons]

end Integer

open Integer

/-- The expression unites symbols of the given names. -/
inductive Expr.Unites (names : List String) : Expr → Prop where
  | symbol {name : String} (known : name ∈ names) : Unites names (.var name)
  | or {left right : Expr} (first : Unites names left) (second : Unites names right) :
    Unites names (.binary .or left right)

theorem Expr.Unites.known {names : List String} (h : e.Unites names) :
    ∀ name ∈ e.names, name ∈ names := by
  induction h with
  | symbol known =>
    intro name read
    rwa [List.mem_singleton.1 read]
  | or _ _ left right =>
    intro name read
    rcases List.mem_append.1 read with read | read
    · exact left name read
    · exact right name read

theorem Expr.Unites.names_ne_nil {names : List String} (h : e.Unites names) : e.names ≠ [] := by
  induction h with
  | symbol => simp [Expr.names]
  | or _ _ left => simp [Expr.names, left]

/-- A union is worth the union of what its symbols are bound to. -/
theorem Expr.Unites.eval {names : List String} (h : e.Unites names) {t : Scopes} {scope : ScopeId}
    {bit : String → Int64}
    (bound : ∀ name ∈ names, t.lookup scope name = some (.integer (bit name))) :
    e.eval scope t = .ok (.integer (unite (e.names.map bit))) t := by
  induction h with
  | @symbol name known =>
    have look : (get : Eval Scopes) t = .ok t t := rfl
    refine (bind_of_ok look).trans ?_
    simp [Scopes.resolve, bound name known, Eval.ofExcept, Expr.names, unite]
  | or _ _ left right =>
    refine (bind_of_ok left).trans ((bind_of_ok right).trans ?_)
    rw [Expr.names, List.map_append, unite_append]
    rfl

/-! ### Symbols -/

namespace FieldValue

def symbolNames (v : FieldValue) : List String := v.symbols.map (·.name)

/-- The names that are read to bind the symbols. -/
def readNames (v : FieldValue) : List String := v.symbols.flatMap (·.value.expr.names)

/-- Neither value has a symbol that the other one has or reads. -/
structure Apart (v w : FieldValue) : Prop where
  names : ∀ name ∈ v.symbolNames, name ∉ w.symbolNames
  left : ∀ name ∈ v.readNames, name ∉ w.symbolNames
  right : ∀ name ∈ w.readNames, name ∉ v.symbolNames

instance : Std.Symm Apart where
  symm _ _ h := ⟨fun name known other => h.names name other known, h.right, h.left⟩

theorem isUsedBy_iff {v : FieldValue} {e : Expr} :
    v.isUsedBy e = true ↔ ∃ name ∈ e.names, name ∈ v.symbolNames := by
  simp only [isUsedBy, symbolNames, List.any_eq_true, List.contains_iff_mem, List.mem_map]
  constructor
  · rintro ⟨symbol, known, read⟩
    exact ⟨symbol.name, read, symbol, known, rfl⟩
  · rintro ⟨_, read, symbol, known, rfl⟩
    exact ⟨symbol, known, read⟩

end FieldValue

/-- Bindings of names to integers, of which the last one counts. -/
abbrev Bits := List (String × Int64)

namespace Bits

variable {bits : Bits} {name : String}

def names (bits : Bits) : List String := bits.map (·.1)

def values (bits : Bits) : List (String × Value) := bits.map fun b => (b.1, .integer b.2)

/-- What a name is bound to, nothing at all standing for zero. -/
def bit (bits : Bits) (name : String) : Int64 := (Dict.find? name bits.reverse).getD 0

/-- The union of the bits of an expression's names. -/
def share (bits : Bits) (e : Expr) : Int64 :=
  unite (e.names.filterMap fun name => Dict.find? name bits.reverse)

theorem find?_eq_none (h : name ∉ bits.names) : Dict.find? name bits.reverse = none := by
  rw [Dict.find?_eq_none_iff, List.map_reverse, List.mem_reverse]
  exact h

theorem bit_of_not_mem (h : name ∉ bits.names) : bits.bit name = 0 := by
  rw [bit, find?_eq_none h]
  rfl

theorem find?_of_mem (h : name ∈ bits.names) :
    Dict.find? name bits.reverse = some (bits.bit name) := by
  rw [bit]
  cases found : Dict.find? name bits.reverse with
  | some n => rfl
  | none =>
    rw [Dict.find?_eq_none_iff, List.map_reverse, List.mem_reverse] at found
    exact absurd h found

theorem bit_append_of_mem {bits' : Bits} (h : name ∈ bits'.names) :
    bit (bits ++ bits') name = bits'.bit name := by
  rw [bit, List.reverse_append, Dict.find?_append, find?_of_mem h]
  rfl

theorem bit_append_of_not_mem {bits' : Bits} (h : name ∉ bits'.names) :
    bit (bits ++ bits') name = bits.bit name := by
  rw [bit, bit, List.reverse_append, Dict.find?_append, find?_eq_none h]
  rfl

theorem share_eq : bits.share e = unite (e.names.map bits.bit) :=
  unite_filterMap ..

/-- The bindings are seen in a fresh frame in which they are made. -/
theorem lookup_defineAll (known : name ∈ bits.names) (s : Scopes) (kind : ScopeKind)
    (parent : ScopeId) :
    ((s.push kind parent).defineAll s.next bits.values).lookup s.next name =
      some (.integer (bits.bit name)) := by
  apply Scopes.lookup_of_local
  have live : s.next.index < (s.push kind parent).depth := by
    rw [Scopes.depth_push]
    exact Nat.lt_succ_self _
  rw [Scopes.get?_locals_defineAll live, values, ← List.map_reverse, Dict.find?_map,
    find?_of_mem known]
  rfl

end Bits

/-- Bound one after another in a scope, the symbols stand for the integers. -/
inductive StandFor (scope : ScopeId) : Scopes → List FieldSymbol → Bits → Prop where
  | nil {t : Scopes} : StandFor scope t [] []
  | cons {t u : Scopes} {symbol : FieldSymbol} {symbols : List FieldSymbol} {n : Int64} {bits : Bits}
      (value : symbol.value.expr.eval scope t = .ok (.integer n) u)
      (later : StandFor scope (u.define scope symbol.name (.integer n)) symbols bits) :
      StandFor scope t (symbol :: symbols) ((symbol.name, n) :: bits)

namespace StandFor

variable {scope : ScopeId} {t t' : Scopes} {symbols : List FieldSymbol} {bits : Bits}

theorem names_eq (h : StandFor scope t symbols bits) : bits.names = symbols.map (·.name) := by
  induction h with
  | nil => rfl
  | cons _ _ ih => exact congrArg _ ih

/-- The symbols stand for the same where other names are bound in addition. -/
theorem bindSymbols {names : List String} (h : StandFor scope t symbols bits) (plain : t.Plain)
    (alike : t.AlikeBut names t')
    (free : ∀ name ∈ symbols.flatMap (·.value.expr.names), name ∉ names) (s : Session) :
    Update.bindSymbols scope symbols { s with scopes := t' } =
      .ok () { s with scopes := t'.defineAll scope bits.values } := by
  induction h generalizing t' with
  | nil => rfl
  | @cons t u symbol symbols n bits value later ih =>
    obtain rfl := plain.eq_of_eval value
    have value' := alike.eval plain symbol.value.expr
      (fun name read => free name (List.mem_append_left _ read)) value
    have evaluated : Update.evaluate symbol.value.origin (symbol.value.expr.eval scope)
        { s with scopes := t' } = .ok (.integer n) { s with scopes := t' } := by
      rw [Update.evaluate, value']
    have step : (do
        let value ← Update.evaluate symbol.value.origin (symbol.value.expr.eval scope)
        Update.modifyScopes (·.define scope symbol.name value)) { s with scopes := t' } =
          .ok () { s with scopes := t'.define scope symbol.name (.integer n) } :=
      bind_of_ok evaluated
    have defined := ih (Scopes.tolerates_plain.define (Nat.zero_le _) _ _ plain)
      (alike.define scope symbol.name (.integer n))
      fun name read => free name (List.mem_append_right _ read)
    exact (bind_of_ok step).trans defined

end StandFor

/-! ### Values of the parts -/

theorem Update.bindSymbols_append (scope : ScopeId) (symbols symbols' : List FieldSymbol) :
    Update.bindSymbols scope (symbols ++ symbols') = (do
      Update.bindSymbols scope symbols
      Update.bindSymbols scope symbols') :=
  List.forM_append

/-- The session with a fresh frame under a scope, in which names are bound to integers. -/
def Session.inFrame (s : Session) (scope : ScopeId) (bits : Bits) : Session :=
  { s with scopes := (s.scopes.push .shadow scope).defineAll s.scopes.next bits.values }

section Frames

variable {s : Session} {scope : ScopeId} {bits : Bits}

theorem Session.inFrame_append (bits bits' : Bits) :
    s.inFrame scope (bits ++ bits') = { s with
      scopes := (s.inFrame scope bits).scopes.defineAll s.scopes.next bits'.values } := by
  rw [inFrame, Bits.values, List.map_append, Scopes.defineAll_append]
  rfl

/-- The frame is gone afterwards. -/
theorem Update.inScope_of_ok {α : Type} {g : ScopeId → Update α} {a : α} (plain : s.scopes.Plain)
    (ran : g s.scopes.next (s.inFrame scope []) = .ok a (s.inFrame scope bits)) :
    Update.inScope scope g s = .ok a s := by
  have released : (s.inFrame scope bits).scopes.release s.scopes.next = s.scopes :=
    Scopes.Extends.release plain.rooted ⟨bits.values, rfl⟩
  have ran' : g s.scopes.next { s with scopes := s.scopes.push .shadow scope } =
      .ok a (s.inFrame scope bits) := ran
  unfold Update.inScope
  dsimp only
  rw [ran']
  dsimp only
  rw [released]
  rfl

/-- The symbols stand for the same where names that they do not read are bound in addition. -/
theorem StandFor.bindSymbols_inFrame {symbols : List FieldSymbol} {before : Bits}
    (h : StandFor s.scopes.next (s.scopes.push .shadow scope) symbols bits) (plain : s.scopes.Plain)
    (free : ∀ name ∈ symbols.flatMap (·.value.expr.names), name ∉ before.names) :
    Update.bindSymbols s.scopes.next symbols (s.inFrame scope before) =
      .ok () (s.inFrame scope (before ++ bits)) := by
  have pushed := Scopes.tolerates_plain.push .shadow scope plain
  have alike : (s.scopes.push .shadow scope).AlikeBut before.names (s.inFrame scope before).scopes := by
    refine (Scopes.AlikeBut.refl _ _).defineAll_right (fun binding member => ?_) _
    obtain ⟨b, bound, rfl⟩ := List.mem_map.1 member
    exact List.mem_map_of_mem bound
  rw [Session.inFrame_append]
  exact h.bindSymbols pushed alike free s

/-- In the frame, a union is worth the union of what is bound there. -/
theorem Expr.Unites.evaluate_inFrame {names : List String} {e : Expr} (h : e.Unites names)
    (known : ∀ name ∈ names, name ∈ bits.names) (s : Session) (scope : ScopeId) (origin : Lexeme) :
    Update.evaluate origin (e.eval s.scopes.next) (s.inFrame scope bits) =
      .ok (.integer (unite (e.names.map bits.bit))) (s.inFrame scope bits) := by
  have value : e.eval s.scopes.next (s.inFrame scope bits).scopes = _ := h.eval fun name member =>
    Bits.lookup_defineAll (known name member) s.scopes .shadow scope
  rw [Update.evaluate, value]

end Frames

namespace FieldValue

/-- Zeros for the symbols of the parts with other labels. -/
def zeros (parts : List FieldValue) (part : FieldValue) : Bits :=
  (parts.filter (·.name != part.name)).flatMap fun other => other.symbolNames.map (·, 0)

variable {parts : List FieldValue} {part : FieldValue}

theorem zeros_values : (zeros parts part).values =
    (parts.filter (·.name != part.name)).flatMap fun other =>
      other.symbols.map fun symbol => (symbol.name, .integer 0) := by
  simp [zeros, Bits.values, symbolNames, List.map_flatMap, Function.comp_def]

theorem mem_names_zeros {name : String} : name ∈ (zeros parts part).names ↔
    ∃ other ∈ parts, other.name ≠ part.name ∧ name ∈ other.symbolNames := by
  simp [zeros, Bits.names, List.map_flatMap, Function.comp_def, and_assoc]

theorem bit_zeros (name : String) : (zeros parts part).bit name = 0 := by
  have same : ∀ b ∈ (zeros parts part).reverse, b.2 = 0 := by
    intro b member
    obtain ⟨other, -, member⟩ := List.mem_flatMap.1 (List.mem_reverse.1 member)
    obtain ⟨_, -, rfl⟩ := List.mem_map.1 member
    rfl
  rw [Bits.bit, Dict.find?_of_forall_eq same]
  split <;> rfl

/-- Zeros behind which names are bound do not count. -/
theorem bit_zeros_append (bits : Bits) (name : String) :
    Bits.bit (zeros parts part ++ bits) name = bits.bit name := by
  by_cases known : name ∈ bits.names
  · exact Bits.bit_append_of_mem known
  · rw [Bits.bit_append_of_not_mem known, bit_zeros, Bits.bit_of_not_mem known]

/-- What an operand is worth with the symbols of all parts bound. -/
def wholeValue (v : FieldValue) (scope : ScopeId) (operand : Operand) : Update Value :=
  .inScope scope fun inner => do
    Update.bindSymbols inner (v.parts.flatMap (·.symbols))
    Update.evaluate operand.origin (operand.expr.eval inner)

end FieldValue

/-- The value has joined parts, all of them for integers. The symbols of each part stand for integers in
a fresh frame, and no part has or reads a symbol of another one. -/
structure FieldValue.Masks (v : FieldValue) (scopes : Scopes) (scope : ScopeId)
    (bits : FieldValue → Bits) : Prop where
  joined : v.joined ≠ []
  integral : ∀ part ∈ v.parts, part.descriptor = some .integer ∨ part.descriptor = some .bitmask
  apart : v.parts.Pairwise Apart
  stand : ∀ part ∈ v.parts,
    StandFor scopes.next (scopes.push .shadow scope) part.symbols (bits part)

namespace FieldValue.Masks

variable {v : FieldValue} {s : Session} {scope : ScopeId} {bits : FieldValue → Bits}
  {part : FieldValue} {parts : List FieldValue}

theorem names_eq (h : v.Masks s.scopes scope bits) (known : part ∈ v.parts) :
    (bits part).names = part.symbolNames := (h.stand part known).names_eq

/-- A part is worth the union of its own symbols. -/
theorem partValue_eq (h : v.Masks s.scopes scope bits) (plain : s.scopes.Plain)
    (distinct : (v.parts.map (·.name)).Nodup) {operand : Operand}
    (unites : operand.expr.Unites (v.parts.flatMap symbolNames)) (known : part ∈ v.parts) :
    part.partValue v.parts scope operand s = .ok (.integer ((bits part).share operand.expr)) s := by
  have zeroed : Update.modifyScopes
      (·.defineAll s.scopes.next ((v.parts.filter (·.name != part.name)).flatMap fun other =>
        other.symbols.map fun symbol => (symbol.name, .integer 0))) (s.inFrame scope []) =
      .ok () (s.inFrame scope (zeros v.parts part)) := by
    rw [← zeros_values]
    rfl
  have free : ∀ name ∈ part.readNames, name ∉ (zeros v.parts part).names := by
    intro name read zero
    obtain ⟨other, known', differ, symbol⟩ := mem_names_zeros.1 zero
    have apart := h.apart.forall known known' fun same => differ (by rw [same])
    exact apart.left name read symbol
  have own := (h.stand part known).bindSymbols_inFrame plain free
  -- a symbol that is not the part's own belongs to a part with another label
  have bound : ∀ name ∈ v.parts.flatMap symbolNames,
      name ∈ Bits.names (zeros v.parts part ++ bits part) := by
    intro name member
    obtain ⟨other, known', symbol⟩ := List.mem_flatMap.1 member
    rw [Bits.names, List.map_append, List.mem_append]
    by_cases differ : other.name = part.name
    · obtain rfl := List.inj_on_of_nodup_map distinct known' known differ
      have own : name ∈ (bits other).names := by rwa [h.names_eq known']
      exact .inr own
    · exact .inl (mem_names_zeros.2 ⟨other, known', differ, symbol⟩)
  have value := unites.evaluate_inFrame bound s scope operand.origin
  rw [Bits.share_eq, ← funext (bit_zeros_append (bits part))]
  exact Update.inScope_of_ok plain ((bind_of_ok zeroed).trans ((bind_of_ok own).trans value))

/-- The symbols of parts can be bound in one frame. -/
theorem bindSymbols_parts (plain : s.scopes.Plain) (apart : parts.Pairwise Apart)
    (stand : ∀ part ∈ parts,
      StandFor s.scopes.next (s.scopes.push .shadow scope) part.symbols (bits part)) {before : Bits}
    (free : ∀ part ∈ parts, ∀ name ∈ part.readNames, name ∉ before.names) :
    Update.bindSymbols s.scopes.next (parts.flatMap (·.symbols)) (s.inFrame scope before) =
      .ok () (s.inFrame scope (before ++ parts.flatMap bits)) := by
  induction parts generalizing before with
  | nil =>
    rw [List.flatMap_nil, List.flatMap_nil, List.append_nil]
    rfl
  | cons part parts ih =>
    obtain ⟨apart, later⟩ := List.pairwise_cons.1 apart
    have here := stand part List.mem_cons_self
    have first := here.bindSymbols_inFrame plain (free part List.mem_cons_self)
    have free' : ∀ other ∈ parts, ∀ name ∈ other.readNames,
        name ∉ Bits.names (before ++ bits part) := by
      intro other known name read bound
      rw [Bits.names, List.map_append, List.mem_append] at bound
      rcases bound with earlier | own
      · exact free other (List.mem_cons_of_mem _ known) name read earlier
      · rw [← Bits.names, here.names_eq] at own
        exact (apart other known).right name read own
    have rest := ih later (fun other known => stand other (List.mem_cons_of_mem _ known)) free'
    rw [List.flatMap_cons, List.flatMap_cons, ← List.append_assoc, Update.bindSymbols_append]
    exact (bind_of_ok first).trans rest

/-- Bound together, parts give a name the union of what each of them gives it. -/
theorem bit_flatMap (apart : parts.Pairwise fun v w => ∀ name ∈ (bits v).names, name ∉ (bits w).names)
    (name : String) :
    Bits.bit (parts.flatMap bits) name = unite (parts.map fun part => (bits part).bit name) := by
  induction parts with
  | nil => rfl
  | cons part parts ih =>
    obtain ⟨apart, later⟩ := List.pairwise_cons.1 apart
    rw [List.flatMap_cons, List.map_cons, unite_cons, ← ih later]
    by_cases known : name ∈ Bits.names (parts.flatMap bits)
    · have absent : name ∉ (bits part).names := by
        intro own
        obtain ⟨binding, bound, rfl⟩ := List.mem_map.1 known
        obtain ⟨other, listed, bound⟩ := List.mem_flatMap.1 bound
        exact apart other listed _ own (List.mem_map_of_mem bound)
      rw [Bits.bit_append_of_mem known, Bits.bit_of_not_mem absent, Int64.zero_or]
    · rw [Bits.bit_append_of_not_mem known, Bits.bit_of_not_mem known, Int64.or_zero]

/-- Parts without a symbol of the expression have no share in it. -/
theorem share_of_unused (h : v.Masks s.scopes scope bits) (known : part ∈ v.parts) {e : Expr}
    (unused : part.isUsedBy e = false) : (bits part).share e = 0 := by
  rw [Bits.share_eq]
  refine unite_eq_zero fun n member => ?_
  obtain ⟨name, read, rfl⟩ := List.mem_map.1 member
  refine Bits.bit_of_not_mem fun own => ?_
  rw [h.names_eq known] at own
  rw [isUsedBy_iff.2 ⟨name, read, own⟩] at unused
  cases unused

/-- The shares of the parts are all that the names are bound to. -/
theorem unite_shares (h : v.Masks s.scopes scope bits) (e : Expr) :
    unite (e.names.map (Bits.bit (v.parts.flatMap bits))) =
      unite ((v.parts.filter (·.isUsedBy e)).map fun part => (bits part).share e) := by
  have disjoint : v.parts.Pairwise fun v w => ∀ name ∈ (bits v).names, name ∉ (bits w).names := by
    refine h.apart.imp_of_mem fun known known' apart => ?_
    rw [h.names_eq known, h.names_eq known']
    exact apart.names
  rw [unite_filter fun part known unused => h.share_of_unused known unused]
  simp only [Bits.share_eq, funext (bit_flatMap disjoint)]
  exact unite_comm ..

/-- With the symbols of all parts bound, an expression is worth the shares of the parts. -/
theorem wholeValue_eq (h : v.Masks s.scopes scope bits) (plain : s.scopes.Plain) {operand : Operand}
    (unites : operand.expr.Unites (v.parts.flatMap symbolNames)) :
    v.wholeValue scope operand s = .ok (.integer (unite
      ((v.parts.filter (·.isUsedBy operand.expr)).map fun part =>
        (bits part).share operand.expr))) s := by
  have together : Update.bindSymbols s.scopes.next (v.parts.flatMap (·.symbols))
      (s.inFrame scope []) = .ok () (s.inFrame scope (v.parts.flatMap bits)) :=
    bindSymbols_parts plain h.apart h.stand fun _ _ _ _ bound => List.not_mem_nil bound
  have bound : ∀ name ∈ v.parts.flatMap symbolNames, name ∈ Bits.names (v.parts.flatMap bits) := by
    intro name member
    obtain ⟨part, known, symbol⟩ := List.mem_flatMap.1 member
    rw [← h.names_eq known] at symbol
    obtain ⟨b, bound, rfl⟩ := List.mem_map.1 symbol
    exact List.mem_map_of_mem (List.mem_flatMap.2 ⟨part, known, bound⟩)
  have value := unites.evaluate_inFrame bound s scope operand.origin
  rw [← h.unite_shares]
  exact Update.inScope_of_ok plain ((bind_of_ok together).trans value)

end FieldValue.Masks

/-! ### Assignment -/

theorem FieldValue.coerce_integer {v : FieldValue}
    (h : v.descriptor = some .integer ∨ v.descriptor = some .bitmask) (n : Int64) :
    v.coerce (.integer n) = .integer n := by
  rcases h with h | h <;> rw [coerce, h] <;> rfl

/-- Parts whose values are known are set one after another. -/
theorem foldlM_set {s : Session} {value : FieldValue → Update Value} {known : FieldValue → Value}
    (each : ∀ part ∈ parts, value part s = .ok (known part) s) (front : String) (r : Record) :
    (parts.foldlM (fun r part => do
        let value ← value part
        return r.set (front ++ part.name) (part.coerce value)) r : Update Record) s =
      .ok (parts.foldl (fun r part => r.set (front ++ part.name) (part.coerce (known part))) r) s := by
  induction parts generalizing r with
  | nil => rfl
  | cons part parts ih =>
    have first := each part List.mem_cons_self
    have step : (do
        let value ← value part
        return r.set (front ++ part.name) (part.coerce value) : Update Record) s =
          .ok (r.set (front ++ part.name) (part.coerce (known part))) s := bind_of_ok first
    rw [List.foldlM_cons, bind_of_ok step, List.foldl_cons]
    exact ih (fun other member => each other (List.mem_cons_of_mem _ member)) _

theorem Record.get?_foldl_set {value : FieldValue → Value} (distinct : (parts.map (·.name)).Nodup)
    {part : FieldValue} (member : part ∈ parts) (front : String) (r : Record) :
    (parts.foldl (fun r part => r.set (front ++ part.name) (value part)) r).get? (front ++ part.name) =
      some (value part) := by
  induction parts generalizing r with
  | nil => cases member
  | cons other parts ih =>
    obtain ⟨fresh, distinct⟩ := List.nodup_cons.1 distinct
    rcases List.mem_cons.1 member with rfl | later
    · -- the parts that follow have other labels
      have kept : Changes (fun place => ∃ p ∈ parts, place = .value (front ++ p.name)) (fun _ => False)
          (r.set (front ++ part.name) (value part))
          (parts.foldl (fun r part => r.set (front ++ part.name) (value part))
            (r.set (front ++ part.name) (value part))) :=
        .foldl_set (fun p listed => ⟨p, listed, rfl⟩)
      refine (kept.places (.value (front ++ part.name)) ?_).trans (Dict.get?_insert_self ..)
      rintro ⟨p, listed, same⟩
      have same : part.name = p.name := (String.append_right_inj front).1 (Place.value.inj same)
      exact fresh (List.mem_map.2 ⟨p, listed, same.symm⟩)
    · exact ih distinct later _

namespace TypeDef

/-- A union of symbols is split among joined parts with distinct labels: each part that has one of the
symbols is given the union of its own, and nothing else is changed. What these parts are given adds up
to what the expression is worth with the symbols of all parts bound. -/
theorem assignValue_unites (d : TypeDef) {s : Session} (plain : s.scopes.Plain) {scope : ScopeId}
    {v : FieldValue} {bits : FieldValue → Bits} (masks : v.Masks s.scopes scope bits)
    (distinct : (v.parts.map (·.name)).Nodup) {operand : Operand}
    (unites : operand.expr.Unites (v.parts.flatMap (·.symbolNames))) (front : String) (r : Record) :
    ∃ r', d.assignValue scope v front r operand s = .ok r' s ∧
      (∀ part ∈ v.parts, part.isUsedBy operand.expr = true →
        r'.get? (front ++ part.name) = some (.integer ((bits part).share operand.expr))) ∧
      (∀ part ∈ v.parts, part.isUsedBy operand.expr = false →
        r'.get? (front ++ part.name) = r.get? (front ++ part.name)) ∧
      r.Changes (fun place => ∃ part ∈ v.parts, part.isUsedBy operand.expr = true ∧
        place = .value (front ++ part.name)) (fun _ => False) r' ∧
      v.wholeValue scope operand s = .ok (.integer (unite
        ((v.parts.filter (·.isUsedBy operand.expr)).map fun part =>
          (bits part).share operand.expr))) s := by
  let used := v.parts.filter (·.isUsedBy operand.expr)
  have values : ∀ part ∈ used, part.partValue v.parts scope operand s =
      .ok (.integer ((bits part).share operand.expr)) s := fun part member =>
    masks.partValue_eq plain distinct unites (List.mem_filter.1 member).1
  -- the expression has a symbol, and the part that it belongs to is used
  have some : used.isEmpty = false := by
    obtain ⟨name, read⟩ := List.exists_mem_of_ne_nil _ unites.names_ne_nil
    obtain ⟨part, known, symbol⟩ := List.mem_flatMap.1 (unites.known name read)
    have use := FieldValue.isUsedBy_iff.2 ⟨name, read, symbol⟩
    have member : part ∈ used := List.mem_filter.2 ⟨known, use⟩
    exact List.isEmpty_eq_false_iff.2 (List.ne_nil_of_mem member)
  have joined : v.joined.isEmpty = false := List.isEmpty_eq_false_iff.2 masks.joined
  have labels : (used.map (·.name)).Nodup := distinct.sublist (List.filter_sublist.map _)
  have changes : r.Changes (fun place => ∃ part ∈ v.parts, part.isUsedBy operand.expr = true ∧
      place = .value (front ++ part.name)) (fun _ => False)
      (used.foldl (fun r part => r.set (front ++ part.name)
        (part.coerce (.integer ((bits part).share operand.expr)))) r) :=
    .foldl_set (fun part member =>
      ⟨part, (List.mem_filter.1 member).1, (List.mem_filter.1 member).2, rfl⟩)
  refine ⟨_, ?_, fun part known use => ?_, fun part known unused => ?_, changes,
    masks.wholeValue_eq plain unites⟩
  · rw [assignValue, joined, some]
    exact foldlM_set values front r
  · rw [Record.get?_foldl_set labels (List.mem_filter.2 ⟨known, use⟩),
      FieldValue.coerce_integer (masks.integral part known)]
  · refine changes.places (.value (front ++ part.name)) ?_
    rintro ⟨other, known', use, same⟩
    have same : part.name = other.name := (String.append_right_inj front).1 (Place.value.inj same)
    obtain rfl := List.inj_on_of_nodup_map distinct known known' same
    rw [use] at unused
    cases unused

end TypeDef

namespace Sample

def symbol (name : String) (expr : Expr) : FieldSymbol := ⟨name, { expr, origin := here name }⟩

/-- A mask for two labels. A symbol of the first one is made of another symbol and a variable. -/
def flags : FieldValue where
  name := "low"
  descriptor := some .integer
  symbols := [symbol "x" (.literal (.integer 1)), symbol "y" (.binary .or (.var "x") (.var "base"))]
  joined :=
    [{ name := "high"
       descriptor := some .bitmask
       symbols := [symbol "z" (.literal (.integer 8))]
       origin := here "high" }]
  origin := here "low"

def flagBits (part : FieldValue) : Bits :=
  if part.name = "low" then [("x", 1), ("y", 5)] else [("z", 8)]

/-- Variables of which one has the name of a symbol. -/
def furnished : Session where
  scopes := (Scopes.initial.define Scopes.rootId "base" (.integer 4)).define Scopes.rootId "z"
    (.integer 64)

theorem plain_furnished : furnished.scopes.Plain := by
  have tolerates := Scopes.tolerates_plain
  exact tolerates.define (Nat.zero_le _) _ _ (tolerates.define (Nat.zero_le _) _ _ .initial)

theorem flags_masks : flags.Masks furnished.scopes Scopes.rootId flagBits where
  joined := by decide
  integral := List.forall_mem_cons.2 ⟨.inl rfl, List.forall_mem_singleton.2 (.inr rfl)⟩
  apart := List.pairwise_pair.2 ⟨by decide, by decide, by decide⟩
  stand := List.forall_mem_cons.2
    ⟨.cons rfl (.cons rfl .nil), List.forall_mem_singleton.2 (.cons rfl .nil)⟩

/-- The symbols `z`, `y` and `z` again. -/
def union : Operand := ⟨.binary .or (.var "z") (.binary .or (.var "y") (.var "z")), here "z"⟩

end Sample

/-- The variable `z` is hidden by the symbol. -/
theorem TypeDef.assignValue_unites_flags :
    ∃ r', Sample.corner.assignValue Scopes.rootId Sample.flags "" {} Sample.union Sample.furnished =
        .ok r' Sample.furnished ∧
      r'.get? "low" = some (.integer 5) ∧ r'.get? "high" = some (.integer 8) ∧
      Sample.flags.wholeValue Scopes.rootId Sample.union Sample.furnished =
        .ok (.integer 13) Sample.furnished := by
  have unites : Sample.union.expr.Unites (Sample.flags.parts.flatMap (·.symbolNames)) :=
    .or (.symbol (by decide)) (.or (.symbol (by decide)) (.symbol (by decide)))
  obtain ⟨r', assigned, stored, -, -, whole⟩ := Sample.corner.assignValue_unites
    Sample.plain_furnished Sample.flags_masks (by decide) unites "" {}
  exact ⟨r', assigned, stored _ List.mem_cons_self (by decide),
    stored _ (List.mem_cons_of_mem _ List.mem_cons_self) (by decide), whole⟩

namespace Sample

/-- A mask for two parts with the same label. -/
def twins : FieldValue where
  name := "low"
  descriptor := some .integer
  symbols := [symbol "x" (.literal (.integer 3))]
  joined :=
    [{ name := "low"
       descriptor := some .integer
       symbols := [symbol "y" (.literal (.integer 3))]
       origin := here "low" }]
  origin := here "low"

theorem twins_masks :
    twins.Masks Scopes.initial Scopes.rootId fun part => part.symbolNames.map (·, 3) where
  joined := by decide
  integral := List.forall_mem_cons.2 ⟨.inl rfl, List.forall_mem_singleton.2 (.inl rfl)⟩
  apart := List.pairwise_pair.2 ⟨by decide, by decide, by decide⟩
  stand := List.forall_mem_cons.2 ⟨.cons rfl .nil, List.forall_mem_singleton.2 (.cons rfl .nil)⟩

end Sample

/-- Where parts have the same label, each one lacks the symbols of the other. -/
theorem TypeDef.assignValue_twins :
    (Sample.twins.Masks Scopes.initial Scopes.rootId fun part => part.symbolNames.map (·, 3)) ∧
    Expr.Unites (Sample.twins.parts.flatMap (·.symbolNames)) (.binary .or (.var "x") (.var "y")) ∧
    Sample.corner.assignValue Scopes.rootId Sample.twins "" {}
        ⟨.binary .or (.var "x") (.var "y"), Sample.here "x"⟩ {} =
      .error (.semantic ⟨.evaluation (.unknownVariable "y"), (Sample.here "x").site⟩) {} :=
  ⟨Sample.twins_masks, .or (.symbol (by decide)) (.symbol (by decide)), rfl⟩

end Rsrc
