import Mathlib.Data.List.TakeWhile
import Rsrc.Encoding.Decode
import Rsrc.Proofs.Utf8

/-!
# What a reader takes

`Decoding.Reads x bytes a` says that the reader `x` takes exactly `bytes` off the front of any
sequence that starts with them, with the result `a`, and that it runs out of bytes on every strict
prefix of them. Readers that are run one after another take what they take one after another, so
the statement for a whole template is put together from those for its tags.
-/

namespace Rsrc

/-- What a computation in steps that has a result has done: its first step has one, and so has the
rest. -/
theorem exists_of_bind_eq_ok {ε α β : Type} {x : Except ε α} {f : α → Except ε β} {b : β}
    (h : x >>= f = .ok b) : ∃ a, x = .ok a ∧ f a = .ok b := by
  cases x with
  | error e => cases h
  | ok a => exact ⟨a, rfl, h⟩

namespace Decoding

variable {α β γ : Type} {x : Decoding α} {f : α → Decoding β} {bytes : List UInt8}

structure Reads (x : Decoding α) (bytes : List UInt8) (a : α) : Prop where
  all : ∀ rest, x.run (bytes ++ rest) = .ok (a, rest)
  cut : ∀ front back, front ++ back = bytes → back ≠ [] →
    ∃ key, x.run front = .error (.truncated key)

theorem run_bind_ok {rest : List UInt8} {a : α} (h : x.run bytes = .ok (a, rest)) :
    (x >>= f).run bytes = (f a).run rest := by
  rw [StateT.run_bind, h]
  rfl

theorem run_bind_error {e : EncodingError} (h : x.run bytes = .error e) :
    (x >>= f).run bytes = .error e := by
  rw [StateT.run_bind, h]
  rfl

namespace Reads

variable {x : Decoding α} {bytes : List UInt8}

theorem pure (a : α) : Reads (Pure.pure a) [] a where
  all _ := rfl
  cut _ _ h nonempty := absurd (List.append_eq_nil_iff.1 h).2 nonempty

theorem bind {f : α → Decoding β} {more : List UInt8} {a : α} {b : β} (first : Reads x bytes a)
    (second : Reads (f a) more b) :
    Reads (x >>= f) (bytes ++ more) b where
  all rest := by
    rw [List.append_assoc, run_bind_ok (first.all _), second.all]
  cut front back h nonempty := by
    -- The cut is in the bytes of the first reader, or behind them in those of the second.
    rcases List.append_eq_append_iff.1 h with ⟨middle, rfl, rfl⟩ | ⟨middle, rfl, rfl⟩
    · cases middle with
      | nil =>
        obtain ⟨key, short⟩ := second.cut [] more rfl (by simpa using nonempty)
        refine ⟨key, ?_⟩
        have whole := first.all []
        simp only [List.append_nil] at whole
        rw [run_bind_ok whole, short]
      | cons b middle =>
        obtain ⟨key, short⟩ := first.cut front (b :: middle) rfl (by simp)
        exact ⟨key, run_bind_error short⟩
    · obtain ⟨key, short⟩ := second.cut middle back rfl nonempty
      exact ⟨key, by rw [run_bind_ok (first.all _), short]⟩

theorem map {a : α} (h : Reads x bytes a) (f : α → β) : Reads (do return f (← x)) bytes (f a) := by
  have whole : Reads (x >>= fun a => Pure.pure (f a)) (bytes ++ []) (f a) := h.bind (Reads.pure _)
  rwa [List.append_nil] at whole

/-- Only strict prefixes are left to a reader that takes a known number of bytes. -/
theorem take {n : Nat} (length : bytes.length = n) (key : String) :
    Reads (Decoding.take key n) bytes bytes where
  all rest := by
    subst length
    simp only [StateT.run, Decoding.take, splitBytes?_append]
  cut front back h nonempty := by
    have positive : 0 < back.length := List.length_pos_iff.2 nonempty
    have short : front.length < n := by
      rw [← length, ← h, List.length_append]
      omega
    exact ⟨key, by simp only [StateT.run, Decoding.take, splitBytes?_of_lt short]⟩

theorem takeByte (key : String) (b : UInt8) : Reads (Decoding.take key 1) [b] [b] :=
  take (by rfl) key

theorem takeTerminated (free : ∀ b ∈ bytes, b ≠ 0) (key : String) :
    Reads (Decoding.takeTerminated key) (bytes ++ [0]) bytes where
  all rest := by
    have nonzero : ∀ b ∈ bytes, (b != 0) = true := by simpa using free
    simp only [StateT.run, Decoding.takeTerminated, List.append_assoc]
    rw [List.dropWhile_append_of_pos nonzero, List.takeWhile_append_of_pos nonzero]
    simp
  cut front back h nonempty := by
    -- What is cut off the end holds the NUL.
    have inside : ∀ b ∈ front, (b != 0) = true := by
      intro b member
      have split : front ++ back.dropLast = bytes := by
        rw [← List.dropLast_append_of_ne_nil nonempty, h, List.dropLast_concat]
      have : b ∈ bytes := split ▸ List.mem_append_left _ member
      simpa using free b this
    refine ⟨key, ?_⟩
    simp only [StateT.run, Decoding.takeTerminated, List.dropWhile_eq_nil_iff.2 inside]

theorem integer (order : ByteOrder) (key : String) (width : Nat) (signed : Bool) (n : Int64) :
    Reads (Decoding.integer order key width signed) (order.write width n)
      (order.read signed (order.write width n)) :=
  (take (ByteOrder.length_write order width n) key).map (order.read signed)

theorem takeCounted {width : Nat} (small : width ≤ 8) (fits : bytes.length < 256 ^ width)
    (order : ByteOrder) (key : String) :
    Reads (Decoding.takeCounted order key width)
      (order.write width (Int64.ofNat bytes.length) ++ bytes) bytes := by
  refine (take (ByteOrder.length_write order width _) key).bind ?_
  rw [ByteOrder.readNat_write_ofNat small fits]
  exact take rfl key

/-! ### Repetition -/

theorem times {items : List γ} {bytes : γ → List UInt8} {value : γ → α}
    (h : ∀ c ∈ items, Reads x (bytes c) (value c)) :
    Reads (Decoding.times x items.length) (items.flatMap bytes) (items.map value) := by
  induction items with
  | nil => exact pure []
  | cons c items ih =>
    have rest := ih fun c' member => h c' (List.mem_cons_of_mem _ member)
    exact (h c List.mem_cons_self).bind (rest.map (value c :: ·))

theorem foldlM {f : β → γ → Decoding β} {items : List γ} {bytes : γ → List UInt8}
    {next : β → γ → β} (h : ∀ c ∈ items, ∀ b, Reads (f b c) (bytes c) (next b c)) (start : β) :
    Reads (items.foldlM f start) (items.flatMap bytes) (items.foldl next start) := by
  induction items generalizing start with
  | nil => exact pure start
  | cons c items ih =>
    rw [List.foldlM_cons, List.flatMap_cons, List.foldl_cons]
    exact (h c List.mem_cons_self start).bind
      (ih (fun c' member => h c' (List.mem_cons_of_mem _ member)) _)

end Reads

/-- A reader that takes some bytes, behind it one that takes all the others. -/
theorem run_bind_of_reads {more rest : List UInt8} {a : α} {b : β} (first : Reads x bytes a)
    (second : (f a).run more = .ok (b, rest)) : (x >>= f).run (bytes ++ more) = .ok (b, rest) := by
  rw [run_bind_ok (first.all more), second]

end Decoding

namespace Encoding

variable {γ : Type} {f : γ → Except EncodingError (List UInt8)} {items : List γ}
  {bytes : List UInt8}

/-- The bytes of a result that is not an error. -/
def stored : Except EncodingError (List UInt8) → List UInt8
  | .ok bytes => bytes
  | .error _ => []

/-- A concatenation that has no error is one of results that have none. -/
theorem concat_eq_ok (h : concat f items = .ok bytes) :
    (∀ c ∈ items, f c = .ok (stored (f c))) ∧ bytes = items.flatMap fun c => stored (f c) := by
  induction items generalizing bytes with
  | nil => exact ⟨by simp, by simpa [concat] using h.symm⟩
  | cons c items ih =>
    obtain ⟨front, first, h⟩ := exists_of_bind_eq_ok h
    obtain ⟨back, others, h⟩ := exists_of_bind_eq_ok h
    cases h
    obtain ⟨each, whole⟩ := ih others
    refine ⟨?_, ?_⟩
    · intro c' member
      rcases List.mem_cons.1 member with rfl | member
      · rw [first]
        rfl
      · exact each c' member
    · rw [whole, List.flatMap_cons, first]
      rfl

theorem concat_cons {c : γ} {x y : List UInt8} (first : f c = .ok x)
    (rest : concat f items = .ok y) : concat f (c :: items) = .ok (x ++ y) := by
  rw [concat, first, rest]
  rfl

theorem concat_append_eq_ok {more : List γ} (h : concat f (items ++ more) = .ok bytes) :
    ∃ front back, concat f items = .ok front ∧ concat f more = .ok back ∧
      bytes = front ++ back := by
  induction items generalizing bytes with
  | nil => exact ⟨[], bytes, rfl, h, rfl⟩
  | cons c items ih =>
    obtain ⟨here, first, h⟩ := exists_of_bind_eq_ok h
    obtain ⟨rest, others, h⟩ := exists_of_bind_eq_ok h
    cases h
    obtain ⟨front, back, found, found', rfl⟩ := ih others
    exact ⟨here ++ front, back, concat_cons first found, found', (List.append_assoc ..).symm⟩

theorem concat_singleton_eq_ok {c : γ} (h : concat f [c] = .ok bytes) : f c = .ok bytes := by
  obtain ⟨each, rfl⟩ := concat_eq_ok h
  simpa using each c (List.mem_singleton_self c)

end Encoding

end Rsrc
