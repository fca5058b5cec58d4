import Hsm.Order
/-! Sets that remember insertion order: the items are a list without repetitions, inserting an
item already present changes nothing, and removing one keeps the others in place. -/
namespace Hsm

/-- A set that iterates in insertion order. -/
structure OrderedSet (α : Type) where
  items : List α := []

namespace OrderedSet

def sortedBy {α : Type} (s : OrderedSet α) (cmp : α → α → Ordering) : List α := sortBy cmp s.items

variable {α : Type} [BEq α]

def empty : OrderedSet α := ⟨[]⟩

def contains (s : OrderedSet α) (a : α) : Bool := s.items.contains a

def insert (s : OrderedSet α) (a : α) : OrderedSet α × Bool :=
  if s.contains a then (s, false) else (⟨s.items ++ [a]⟩, true)

def add (s : OrderedSet α) (a : α) : OrderedSet α := (s.insert a).1

def remove (s : OrderedSet α) (a : α) : OrderedSet α × Bool :=
  if s.contains a then (⟨s.items.erase a⟩, true) else (s, false)

def erase (s : OrderedSet α) (a : α) : OrderedSet α := (s.remove a).1

def union (s : OrderedSet α) (xs : List α) : OrderedSet α := xs.foldl add s

def ofList (xs : List α) : OrderedSet α := (empty : OrderedSet α).union xs

def intersects (s t : OrderedSet α) : Bool := s.items.any t.contains

def size (s : OrderedSet α) : Nat := s.items.length

def isEmpty (s : OrderedSet α) : Bool := s.items.isEmpty

end OrderedSet
end Hsm
