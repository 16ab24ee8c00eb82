/-!
# Ordered members

An object is a list of keys with values in which a key keeps the place where it first came. `Members` is that list;
putting a value under a key that is there replaces it in place, a new key goes last. Keys are compared by `==`, so a key
that was written in another way finds the same member, and the way that came first stays.

Results:
* `get?_set`: what a look-up finds after a value was put.
* `contains_set`: which keys are there after a value was put.
* `keys_set`: the keys and their order after a value was put.
-/
namespace EntitySchema

/-- Keys with their values, in the order in which the keys first came. -/
abbrev Members (κ α : Type) := List (κ × α)

namespace Members

variable {κ α : Type}

def keys (m : Members κ α) : List κ :=
  m.map Prod.fst

def values (m : Members κ α) : List α :=
  m.map Prod.snd

section
variable [BEq κ]

/-- The value under a key. -/
def get? : Members κ α → κ → Option α
  | [], _ => none
  | (k, v) :: rest, key => if k == key then some v else get? rest key

def contains (m : Members κ α) (key : κ) : Bool :=
  (get? m key).isSome

/-- Puts a value under a key: in the key's place if it is there, else last. -/
def set : Members κ α → κ → α → Members κ α
  | [], key, v => [(key, v)]
  | (k, w) :: rest, key, v => if k == key then (k, v) :: rest else (k, w) :: set rest key v

/-- Puts a value under a key that is still free; a key that is there keeps its value. -/
def setNew (m : Members κ α) (key : κ) (v : α) : Members κ α :=
  if contains m key then m else set m key v

/-- Takes a key away; the others keep their order. -/
def erase (m : Members κ α) (key : κ) : Members κ α :=
  m.filter fun entry => !(entry.1 == key)

/-- Puts every entry of `more`, in its order, into `m`. -/
def update (m more : Members κ α) : Members κ α :=
  more.foldl (fun acc entry => set acc entry.1 entry.2) m

/-- The members that a list of entries spells out, a later entry winning over an earlier one. -/
def ofEntries (entries : List (κ × α)) : Members κ α :=
  update [] entries

@[simp] theorem get?_nil (key : κ) : get? ([] : Members κ α) key = none := rfl

theorem get?_cons (k : κ) (v : α) (rest : Members κ α) (key : κ) :
    get? ((k, v) :: rest) key = if k == key then some v else get? rest key := rfl

variable [EquivBEq κ]

/-- A look-up finds the new value under its key and what was there under any other. -/
theorem get?_set (m : Members κ α) (key : κ) (v : α) (other : κ) :
    get? (set m key v) other = if key == other then some v else get? m other := by
  induction m with
  | nil => simp [set, get?]
  | cons entry rest ih =>
    obtain ⟨k, w⟩ := entry
    by_cases h : (k == key) = true
    · by_cases h' : (key == other) = true
      · simp [set, get?, h, h', BEq.trans h h']
      · have : (k == other) = false := by rw [BEq.congr_left h]; simpa using h'
        simp [set, get?, h, h', this]
    · by_cases h' : (key == other) = true
      · have : (k == other) = false := by rw [← BEq.congr_right h']; simpa using h
        simp [set, get?, h, h', this, ih]
      · simp [set, get?, h, h', ih]

theorem get?_set_self (m : Members κ α) (key : κ) (v : α) : get? (set m key v) key = some v := by
  simp [get?_set]

theorem contains_set (m : Members κ α) (key : κ) (v : α) (other : κ) :
    contains (set m key v) other = (key == other || contains m other) := by
  by_cases h : (key == other) = true <;> simp [contains, get?_set, h]

omit [EquivBEq κ] in
/-- Putting a value keeps the order of the keys; a new key goes last. -/
theorem keys_set (m : Members κ α) (key : κ) (v : α) :
    keys (set m key v) = if contains m key then keys m else keys m ++ [key] := by
  induction m with
  | nil => simp [set, keys, contains]
  | cons entry rest ih =>
    obtain ⟨k, w⟩ := entry
    by_cases h : (k == key) = true
    · simp [set, keys, contains, get?, h]
    · simp only [keys, contains] at ih
      cases hr : get? rest key <;> simp [set, keys, contains, get?, h, ih, hr]

end

theorem contains_iff_mem_keys [BEq κ] [LawfulBEq κ] (m : Members κ α) (key : κ) :
    contains m key = true ↔ key ∈ keys m := by
  induction m with
  | nil => simp [contains, get?, keys]
  | cons entry rest ih =>
    obtain ⟨k, w⟩ := entry
    simp only [contains, keys] at ih
    by_cases h : k = key
    · simp [contains, get?, keys, h]
    · simp [contains, get?, keys, h, Ne.symm h, ih]

end Members

end EntitySchema
