/-!
# Ordered dictionaries

A dictionary with text keys that keeps the order of its entries. `insert` gives a key that is
present its new value in the old place and appends one that is not. There are two ways to remove a
key: `erase` closes the gap, `swapErase` fills it with the last entry.
-/

namespace ToolGateway

/-- Entries in order. Dictionaries built by `ofList`, `insert`, `erase` and `swapErase` have each
key once. -/
structure Dict (α : Type) where
  entries : List (String × α)
deriving Repr, Inhabited

namespace Dict

variable {α β : Type}

def empty : Dict α := ⟨[]⟩

/-- The value that the first entry with a key holds. -/
def lookup (key : String) : List (String × α) → Option α
  | [] => none
  | (k, v) :: rest => if k = key then some v else lookup key rest

/-- Sets a key among entries: in its place when present, at the end when not. -/
def put (key : String) (value : α) : List (String × α) → List (String × α)
  | [] => [(key, value)]
  | (k, v) :: rest => if k = key then (k, value) :: rest else (k, v) :: put key value rest

/-- Puts an entry into the place of the first one with a key; nothing happens without one. -/
def putAt (key : String) (entry : String × α) : List (String × α) → List (String × α)
  | [] => []
  | (k, v) :: rest => if k = key then entry :: rest else (k, v) :: putAt key entry rest

/-- Removes the first entry with a key. -/
def drop (key : String) : List (String × α) → List (String × α)
  | [] => []
  | (k, v) :: rest => if k = key then rest else (k, v) :: drop key rest

def get? (d : Dict α) (key : String) : Option α := lookup key d.entries

def contains (d : Dict α) (key : String) : Bool := (d.get? key).isSome

def keys (d : Dict α) : List String := d.entries.map (·.1)

def values (d : Dict α) : List α := d.entries.map (·.2)

def size (d : Dict α) : Nat := d.entries.length

def isEmpty (d : Dict α) : Bool := d.entries.isEmpty

/-- Sets a key: in its place when present, at the end when not. -/
def insert (d : Dict α) (key : String) (value : α) : Dict α := ⟨put key value d.entries⟩

/-- Sets a key only when it is present. -/
def replace (d : Dict α) (key : String) (value : α) : Dict α := ⟨putAt key (key, value) d.entries⟩

/-- Removes a key and keeps the order of the others. -/
def erase (d : Dict α) (key : String) : Dict α := ⟨drop key d.entries⟩

/-- Removes a key; the last entry takes its place. -/
def swapErase (d : Dict α) (key : String) : Dict α :=
  match d.entries.getLast? with
  | none => d
  | some last =>
    if last.1 = key then ⟨d.entries.dropLast⟩
    else if d.contains key then ⟨putAt key last d.entries.dropLast⟩
    else d

/-- Builds a dictionary from entries: a repeated key keeps its first place and its last value. -/
def ofList (entries : List (String × α)) : Dict α :=
  entries.foldl (fun d (k, v) => d.insert k v) empty

theorem sizeOf_lookup_lt [SizeOf α] {key : String} {v : α} :
    ∀ {es : List (String × α)}, lookup key es = some v → sizeOf v < sizeOf es
  | [], h => by simp [lookup] at h
  | (k, w) :: rest, h => by
    simp only [lookup] at h
    split at h
    · cases h
      simp only [List.cons.sizeOf_spec, Prod.mk.sizeOf_spec]
      omega
    · have := sizeOf_lookup_lt h
      simp only [List.cons.sizeOf_spec, Prod.mk.sizeOf_spec]
      omega

/-- A value of a dictionary is smaller than the dictionary, so recursion may follow it. -/
theorem sizeOf_get?_lt [SizeOf α] {d : Dict α} {key : String} {v : α} (h : d.get? key = some v) :
    sizeOf v < sizeOf d := by
  obtain ⟨es⟩ := d
  have := sizeOf_lookup_lt (show lookup key es = some v from h)
  simp only [mk.sizeOf_spec]
  omega

end Dict

end ToolGateway
