/-! History records: when a state with history pseudo-states is exited, each of them remembers
part of the active configuration (the active children of its home for shallow history, the
active atomic descendants for deep history). The table keeps one record per history state, in
key order; recording again replaces the older record, and the remembered states are kept sorted
and without repetitions. -/
namespace Hsm

/-- How much a history pseudo-state remembers. -/
inductive HistoryKind where
  /-- The active children of the home state. -/
  | shallow
  /-- The active atomic descendants of the home state. -/
  | deep
  deriving DecidableEq

def dedupSorted : List Nat → List Nat
  | a :: b :: rest => if a = b then dedupSorted (b :: rest) else a :: dedupSorted (b :: rest)
  | xs => xs

/-- What one history state remembers. -/
structure HistoryRecord where
  kind : HistoryKind
  states : List Nat

/-- History records by history state, in key order. -/
structure HistoryTable where
  records : List (Nat × HistoryRecord) := []

namespace HistoryTable

/-- Put a record into a key-ordered list, replacing one with the same key. -/
def insertRecord (h : Nat) (r : HistoryRecord) : List (Nat × HistoryRecord) → List (Nat × HistoryRecord)
  | [] => [(h, r)]
  | (k, s) :: rest =>
    if h < k then (h, r) :: (k, s) :: rest
    else if h = k then (h, r) :: rest
    else (k, s) :: insertRecord h r rest

def record (t : HistoryTable) (h : Nat) (kind : HistoryKind) (states : List Nat) : HistoryTable :=
  ⟨insertRecord h ⟨kind, dedupSorted (states.mergeSort fun a b => a ≤ b)⟩ t.records⟩

def get (t : HistoryTable) (h : Nat) : Option (List Nat) :=
  (t.records.find? (·.1 == h)).map (·.2.states)

def size (t : HistoryTable) : Nat := t.records.length

def isEmpty (t : HistoryTable) : Bool := t.records.isEmpty

end HistoryTable
end Hsm
