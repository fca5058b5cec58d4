/-! Orders on the nodes of a document. Each node has a nesting depth (the root is `-1`) and a
document order, its index in a pre-order walk. Document order compares the second alone; entry
order puts shallower nodes first and breaks ties by document order; exit order is exactly the
reverse of entry order. Sorting is stable, so nodes that tie keep their relative order. -/
namespace Hsm

/-- Where a node sits in a document. -/
structure Place where
  depth : Int
  order : Nat

namespace Place

def documentCmp (a b : Place) : Ordering := compare a.order b.order

def entryCmp (a b : Place) : Ordering := (compare a.depth b.depth).then (compare a.order b.order)

def exitCmp (a b : Place) : Ordering := (entryCmp a b).swap

end Place

def sortBy {α : Type} (cmp : α → α → Ordering) (xs : List α) : List α :=
  xs.mergeSort fun a b => cmp a b != .gt

end Hsm
