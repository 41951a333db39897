/-!
# Dictionaries in key order

A dictionary is a list of bindings whose keys increase in code point order, so two dictionaries
with the same bindings are the same list. Insertion keeps the order; lookup takes the first match.
-/

namespace Rsrc

/-- Bindings from names to values, listed by increasing name. -/
structure Dict (α : Type) where
  entries : List (String × α) := []
  deriving Inhabited, Repr

namespace Dict

variable {α : Type}
variable (d : Dict α)

def empty : Dict α := {}

def isEmpty : Bool := d.entries.isEmpty

def keys : List String := d.entries.map (·.1)

def values : List α := d.entries.map (·.2)

/-- The value bound to `key` in a list of bindings. -/
def find? (key : String) : List (String × α) → Option α
  | [] => none
  | (k, v) :: rest => if k = key then some v else find? key rest

def get? (key : String) : Option α := find? key d.entries

def contains (key : String) : Bool := (d.get? key).isSome

/-- Puts a binding at its place in a list of bindings, replacing one of the same key. -/
def put (key : String) (value : α) : List (String × α) → List (String × α)
  | [] => [(key, value)]
  | (k, v) :: rest =>
    if key = k then (key, value) :: rest
    else if key < k then (key, value) :: (k, v) :: rest
    else (k, v) :: put key value rest

def insert (key : String) (value : α) : Dict α := ⟨put key value d.entries⟩

def ofList (entries : List (String × α)) : Dict α :=
  entries.foldl (fun d (key, value) => d.insert key value) empty

@[simp] theorem find?_put_self (key : String) (value : α) (entries : List (String × α)) :
    find? key (put key value entries) = some value := by
  induction entries with
  | nil => simp [put, find?]
  | cons head rest ih =>
    obtain ⟨k, v⟩ := head
    simp only [put]
    split
    · simp [find?]
    · split
      · simp [find?]
      · rename_i h _
        simp [find?, Ne.symm h, ih]

theorem find?_put_of_ne {key other : String} (h : other ≠ key) (value : α)
    (entries : List (String × α)) :
    find? other (put key value entries) = find? other entries := by
  induction entries with
  | nil => simp [put, find?, Ne.symm h]
  | cons head rest ih =>
    obtain ⟨k, v⟩ := head
    simp only [put]
    split
    · rename_i hk
      subst hk
      simp [find?, Ne.symm h]
    · split
      · simp [find?, Ne.symm h]
      · simp [find?, ih]

@[simp] theorem get?_insert_self (key : String) (value : α) :
    (d.insert key value).get? key = some value := find?_put_self key value d.entries

theorem get?_insert_of_ne {key other : String} (h : other ≠ key) (value : α) :
    (d.insert key value).get? other = d.get? other := find?_put_of_ne h value d.entries

end Dict

end Rsrc
