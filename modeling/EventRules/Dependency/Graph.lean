/-!
Dependency graphs over numbered items. An item depends directly on the others that it reads; that
it may read itself plays no part. From the items that depend on something, those whose
dependencies are all outside what remains are dropped round by round; what is left can never be
put in order. The order of a graph moves each dependency that stands too late to the place just
before the first item that needs it, and moves nothing else.
-/
namespace EventRules

/-- A graph, as the list of the items that each item reads. -/
structure DependencyGraph where
  reads : List (List Nat)

namespace DependencyGraph

/-- The graph of a list under a relation "reads what the other one writes". -/
def ofItems {α : Type} (relation : α → α → Bool) (items : List α) : DependencyGraph :=
  let numbered := items.zipIdx
  ⟨items.map fun a => (numbered.filter fun other => relation a other.1).map (·.2)⟩

def size (g : DependencyGraph) : Nat := g.reads.length

def items (g : DependencyGraph) : List Nat := List.range g.size

def readsOf (g : DependencyGraph) (item : Nat) : List Nat := g.reads.getD item []

def dependsOn (g : DependencyGraph) (item other : Nat) : Bool :=
  other ≠ item && (g.readsOf item).contains other

def hasDependency (g : DependencyGraph) (item : Nat) (candidates : List Nat) : Bool :=
  let read := g.readsOf item
  candidates.any fun other => other ≠ item && read.contains other

theorem hasDependency_eq (g : DependencyGraph) (item : Nat) (candidates : List Nat) :
    g.hasDependency item candidates = candidates.any (g.dependsOn item) := rfl

def dependencies (g : DependencyGraph) (item : Nat) : List Nat :=
  let read := g.readsOf item
  g.items.filter fun other => other ≠ item && read.contains other

theorem dependencies_eq (g : DependencyGraph) (item : Nat) :
    g.dependencies item = g.items.filter (g.dependsOn item) := rfl

def dependent (g : DependencyGraph) : List Nat :=
  g.items.filter fun item => g.hasDependency item g.items

/-- The items of a list that depend on others of it. -/
def bound (g : DependencyGraph) (items : List Nat) : List Nat :=
  items.filter fun item => g.hasDependency item items

/-- What is left of a list when the items that depend on no other of it are dropped, all at a
time, until there are none. -/
def circular (g : DependencyGraph) (items : List Nat) : List Nat :=
  let rest := g.bound items
  if _h : rest.length < items.length then circular g rest else items
termination_by items.length

/-- The items that can never be put in order. -/
def unresolvable (g : DependencyGraph) : List Nat := g.circular g.dependent

/-- Take an item out of a list and put it back at a place. -/
def moveTo (place item : Nat) (order : List Nat) : List Nat :=
  (order.erase item).insertIdx place item

/-- Move a dependency to the place of an item if it stands after that item. -/
def promote (item : Nat) (order : List Nat) (dependency : Nat) : List Nat :=
  let place := order.idxOf item
  if place < order.idxOf dependency then moveTo place dependency order else order

/-- Move the dependencies of an item before it, in ascending order of their numbers. -/
def settle (g : DependencyGraph) (order : List Nat) (item : Nat) : List Nat :=
  (g.dependencies item).foldl (promote item) order

/-- The items in an order in which dependencies come first, as far as one pass achieves it. -/
def order (g : DependencyGraph) : List Nat := g.items.foldl g.settle g.items

end DependencyGraph

/-- The items of a list at some places, in the order of the places. -/
def pick {α : Type} (items : List α) (places : List Nat) : List α :=
  places.filterMap fun i => items[i]?

end EventRules
