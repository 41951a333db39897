import Mathlib.Data.List.Forall2
import Rsrc.Proofs.Keeps
import Rsrc.Stream

/-!
# A stream is a list with push-back

Whatever has been read and injected, a stream is in front of the list `rest`, and each call does to it
what its name says (`Stream.Queued`). The calls give what they give for the cursor of the stream
(`Stream.Refines`), so what is known of cursors holds of streams.
-/

namespace Rsrc

namespace Cursor

variable {es : List Expectation} {ls : List Lexeme}

/-- Lexemes at the front match the expectations one by one. -/
def Fits (es : List Expectation) (ls : List Lexeme) : Prop :=
  ∃ front, front <+: ls ∧ List.Forall₂ (fun e l => e.matched l = true) es front

@[simp] theorem fits_nil : Fits [] ls := ⟨[], List.nil_prefix, .nil⟩

@[simp] theorem not_fits_cons_nil (e : Expectation) : ¬ Fits (e :: es) [] := by
  rintro ⟨front, within, fits⟩
  rw [List.prefix_nil.1 within] at fits
  cases fits

@[simp] theorem fits_cons_cons {e : Expectation} {l : Lexeme} :
    Fits (e :: es) (l :: ls) ↔ e.matched l ∧ Fits es ls := by
  constructor
  · rintro ⟨_, within, fits⟩
    cases fits with
    | cons first others =>
      obtain ⟨rfl, inner⟩ := List.cons_prefix_cons.1 within
      exact ⟨first, _, inner, others⟩
  · rintro ⟨first, front, within, others⟩
    exact ⟨l :: front, List.cons_prefix_cons.2 ⟨rfl, within⟩, .cons first others⟩

theorem matchesAll_iff : matchesAll es ls ↔ Fits es ls := by
  fun_induction matchesAll es ls with
  | case1 => simp
  | case2 => simp
  | case3 e es l ls ih => simp [ih]

end Cursor

namespace Stream

open Cursor (Fits)

variable {file : LexedSource} (s : Stream file)

/-! ### Looking ahead -/

/-- What is still to be read. -/
def rest : List Lexeme := s.pushed.toList.reverse ++ file.lexemes.toList.drop s.position

variable {s} in
/-- The offset is counted back in the one array and on in the other, where the index is exact as long as
the position and the offset have a sum that is a machine word. -/
theorem peekAt_eq {n : UInt64} (word : s.position + n.toNat < UInt64.size) :
    s.peekAt n = s.rest[n.toNat]? := by
  unfold peekAt rest
  split
  · rename_i near
    rw [List.getElem?_append_left (by simpa using near), List.getElem?_reverse (by simpa using near)]
    simp
  · rename_i far
    have index : (s.position.toUInt64 + n - s.pushed.size.toUInt64).toNat =
        s.position + (n.toNat - s.pushed.size) := by
      have bound : UInt64.size = 18446744073709551616 := rfl
      simp only [UInt64.toNat_sub, UInt64.toNat_add, Nat.toUInt64_eq, UInt64.toNat_ofNat']
      omega
    rw [List.getElem?_append_right (by simpa using far), index]
    simp

theorem position_lt : s.position < UInt64.size := Nat.lt_of_le_of_lt s.inside file.small

theorem peek_eq_head? : s.peek = s.rest.head? := by
  rw [peek, peekAt_eq (by simpa using s.position_lt), List.head?_eq_getElem?]
  rfl

variable {s} in
/-- Expectations from an offset on are met by what stands there. -/
theorem all_zipIdx_iff {es : List Expectation} {k : Nat}
    (words : s.position + k + es.length ≤ UInt64.size) :
    (es.zipIdx k).all (fun pair => (s.peekAt pair.2.toUInt64).any pair.1.matched) ↔
      Fits es (s.rest.drop k) := by
  induction es generalizing k with
  | nil => simp
  | cons e es ih =>
    rw [List.length_cons] at words
    have others := @ih (k + 1) (by omega)
    have word : k.toUInt64.toNat = k := UInt64.toNat_ofNat_of_lt' (by omega)
    have next : s.peekAt k.toUInt64 = (s.rest.drop k).head? := by
      rw [peekAt_eq (by omega), word, List.head?_drop]
    rw [← List.tail_drop] at others
    rw [List.zipIdx_cons, List.all_cons, next]
    cases split : s.rest.drop k with
    | nil => simp
    | cons l ls => simpa [split] using and_congr_right fun _ => others

variable {s} in
theorem expects_iff {es : List Expectation} (words : s.position + es.length ≤ UInt64.size) :
    s.expects es ↔ Fits es s.rest :=
  all_zipIdx_iff words

theorem rest_advance : s.advance.rest = s.rest.tail := by
  unfold advance
  split
  · rename_i empty
    have none : s.pushed = #[] := by simpa using empty
    split
    · simp [rest, none]
    · have done : file.lexemes.toList.length ≤ s.position := by simp; omega
      simp [rest, none, List.drop_eq_nil_of_le done]
  · rename_i some
    have some : s.pushed.toList.reverse ≠ [] := by simpa using some
    simp [rest, List.tail_append_of_ne_nil some]

/-! ### Calls -/

theorem read_eq : read s =
    match s.peek with
    | some l => .ok l s.advance
    | none => .error (file.endError "more input") s := by
  have next := s.peek_eq_head?
  unfold read advance
  cases last : s.pushed.back? with
  | some l =>
    have some : ¬ s.pushed.isEmpty := by
      intro none
      simp_all
    have first : s.peek = Option.some l := by
      rw [next, rest, List.head?_append, List.head?_reverse, Array.getLast?_toList, last]
      rfl
    simp [first, some]
  | none =>
    have empty : s.pushed = #[] := Array.back?_eq_none_iff.1 last
    rw [rest, empty] at next
    by_cases inside : s.position < file.lexemes.size
    · have first : s.peek = some file.lexemes[s.position] := by simp [next, inside]
      simp [first, empty, inside]
    · have ended : s.peek = Option.none := by simpa [next] using inside
      simp [ended, inside]

/-- If the lexeme at the front passes the test, the call gives it and leaves the others. Otherwise it
fails and changes nothing. -/
structure Takes (x : Streaming file Lexeme) (test : Lexeme → Bool) : Prop where
  first : ∀ l ls, s.rest = l :: ls → test l → ∃ t, x s = .ok l t ∧ t.rest = ls
  none : (∀ l ∈ s.rest.head?, ¬ test l) → ∃ error, x s = .error error s

/-- The call passes over lexemes for the longest front of the expectations that is met, and it fails
unless that is all of them. -/
def Passes (x : Streaming file Unit) (es : List Expectation) : Prop :=
  ∃ n ≤ es.length, (∀ m ≤ es.length, Fits (es.take m) s.rest ↔ m ≤ n) ∧ ∃ t, t.rest = s.rest.drop n ∧
    if n = es.length then x s = .ok () t else ∃ error, x s = .error error t

/-- The result with the cursor of the stream. -/
def onCursor {α : Type} :
    EStateM.Result GrammarError (Stream file) α → EStateM.Result GrammarError Cursor α
  | .ok a s => .ok a s.cursor
  | .error e s => .error e s.cursor

/-- A call on a stream gives what the other one gives on its cursor, and leaves the stream at the cursor
that the other one leaves. -/
def Refines {α : Type} (x : Streaming file α) (y : Reading α) : Prop := ∀ s, y s.cursor = onCursor (x s)

theorem Refines.bind {α β : Type} {x : Streaming file α} {y : Reading α} {f : α → Streaming file β}
    {g : α → Reading β} (h : Refines x y) (later : ∀ a, Refines (f a) (g a)) :
    Refines (x >>= f) (y >>= g) := by
  intro s
  have first := h s
  cases ran : x s with
  | ok a t =>
    rw [ran] at first
    rw [bind_of_ok ran, bind_of_ok first]
    exact later a t
  | error e t =>
    rw [ran] at first
    rw [bind_of_error ran, bind_of_error first]
    rfl

theorem finished_cursor : s.cursor.finished = s.finished :=
  Bool.eq_iff_iff.2 (by simp [Cursor.finished, finished, cursor])

variable {s} in
theorem expects_cursor {es : List Expectation} (words : s.position + es.length ≤ UInt64.size) :
    s.cursor.expects es = s.expects es :=
  Bool.eq_iff_iff.2 (Cursor.matchesAll_iff.trans (expects_iff words).symm)

inductive Call where
  | push (l : Lexeme)
  | read
  | advance
  | accept (e : Expectation)
  | ensure (es : List Expectation)
  | readKind (kind : LexemeKind)
  | readIdentifier

/-- The stream after a call, whether it fails or not. -/
def after : Call → Stream file
  | .push l => s.push l
  | .read => finalState (read s)
  | .advance => s.advance
  | .accept e => finalState (accept e s)
  | .ensure es => finalState (ensure es s)
  | .readKind kind => finalState (readKind kind s)
  | .readIdentifier => finalState (readIdentifier s)

theorem Refines.final {α : Type} {x : Streaming file α} {y : Reading α} (h : Refines x y) :
    (finalState (x s)).cursor = finalState (y s.cursor) := by
  rw [h s]
  cases x s <;> rfl

end Stream

end Rsrc
