import EventRules.Ordered

/-!
Catalogs of event schemas: for each version the event types, and for each event type its fields.
The tables are sorted by key, and the fields are sorted and distinct.
-/
namespace EventRules

/-- Put a key with its value into a sorted table, in place of an earlier value. -/
def insertSorted {α : Type} (key : String) (value : α) : List (String × α) → List (String × α)
  | [] => [(key, value)]
  | (k, v) :: rest =>
    if key < k then (key, value) :: (k, v) :: rest
    else if key = k then (key, value) :: rest
    else (k, v) :: insertSorted key value rest

/-- The sorted table of a list of pairs; the last value of a key counts. -/
def sortedTable {α : Type} (pairs : List (String × α)) : List (String × α) :=
  pairs.foldl (fun table pair => insertSorted pair.1 pair.2 table) []

abbrev EventTypes := List (String × List String)

structure Catalog where
  versions : List (String × EventTypes) := []

namespace Catalog

def lookup (c : Catalog) (version : String) : Option EventTypes := c.versions.lookup version

def contains (c : Catalog) (version eventType : String) : Bool :=
  match c.lookup version with
  | some types => Ordered.contains eventType types
  | none => false

def withVersion (c : Catalog) (version : String) (types : EventTypes) : Catalog :=
  { versions := insertSorted version types c.versions }

end Catalog

end EventRules
