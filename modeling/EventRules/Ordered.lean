/-!
Insertion-ordered tables with text keys, as lists of pairs. A new key goes to the end; a key that
is present keeps its place and takes the new value.
-/
namespace EventRules.Ordered

variable {α : Type}

def keys (table : List (String × α)) : List String := table.map (·.1)

def contains (key : String) (table : List (String × α)) : Bool := (table.lookup key).isSome

/-- Give the key a value, at its old place or at the end. -/
def insert (key : String) (value : α) : List (String × α) → List (String × α)
  | [] => [(key, value)]
  | (k, v) :: rest => if k = key then (k, value) :: rest else (k, v) :: insert key value rest

/-- Remove the key; the others keep their order. -/
def erase (key : String) (table : List (String × α)) : List (String × α) :=
  table.filter fun entry => entry.1 ≠ key

def insertAll (table pairs : List (String × α)) : List (String × α) :=
  pairs.foldl (fun done pair => insert pair.1 pair.2 done) table

/-- The table of a list of pairs: each key at its first place with its last value. -/
def ofPairs (pairs : List (String × α)) : List (String × α) := insertAll [] pairs

end EventRules.Ordered
