import Proximity.Memory
import Proximity.Scalar
import Proximity.StableSort

/-!
# A bounded heap

The entries with the smallest distances seen so far, at most `capacity` of them, in an array in heap
order: no entry is farther than the one at `(i - 1) / 2`. The farthest entry is on top and is the
one that a nearer newcomer replaces.
-/

namespace Proximity

/-- At most `capacity` entries, the farthest first. -/
structure BoundedHeap (ι α : Type) where
  capacity : Nat
  entries : Array (ι × α)

namespace BoundedHeap

variable {ι α : Type} [LT α] [DecidableLT α]

/-- The heap with no entries. -/
def empty (capacity : Nat) : BoundedHeap ι α := ⟨capacity, #[]⟩

/-- The heap with no entries, with room for the indices of as many as its capacity. -/
def ofCapacity [Machine] (capacity : Nat) : Outcome (BoundedHeap ι α) :=
  (Memory.demand Memory.indexBytes capacity).map fun _ => empty capacity

/-- No entry can be added without dropping one. -/
def isFull (h : BoundedHeap ι α) : Bool := h.capacity ≤ h.entries.size

/-- The distance that a newcomer has to beat; any finite one while there is room. A full heap of no
capacity has none. -/
def worst [Scalar α] (h : BoundedHeap ι α) : Option α :=
  if h.isFull then h.entries[0]?.map (·.2) else some Scalar.largest

/-- Entry `j` is farther than entry `i`. -/
def farther (a : Array (ι × α)) (i j : Nat) : Bool :=
  match a[i]?, a[j]? with
  | some x, some y => x.2 < y.2
  | _, _ => false

/-- Entry `i` moved up past all nearer ones. -/
def siftUp (a : Array (ι × α)) (i : Nat) : Array (ι × α) :=
  if 0 < i ∧ farther a ((i - 1) / 2) i then siftUp (a.swapIfInBounds i ((i - 1) / 2)) ((i - 1) / 2)
  else a
termination_by i
decreasing_by omega

/-- The farthest of entry `i` and the two below it. -/
def farthestBelow (a : Array (ι × α)) (i : Nat) : Nat :=
  let m := if farther a i (2 * i + 1) then 2 * i + 1 else i
  if farther a m (2 * i + 2) then 2 * i + 2 else m

/-- Entry `i` moved down past all farther ones. -/
def siftDown (a : Array (ι × α)) (i : Nat) : Array (ι × α) :=
  if i < farthestBelow a i ∧ farthestBelow a i < a.size then
    siftDown (a.swapIfInBounds i (farthestBelow a i)) (farthestBelow a i)
  else a
termination_by a.size - i
decreasing_by simp only [Array.size_swapIfInBounds]; omega

/-- The heap after one more entry was offered. -/
def insert (h : BoundedHeap ι α) (index : ι) (dist : α) : BoundedHeap ι α :=
  if h.isFull then
    match h.entries[0]? with
    | some top =>
      if dist < top.2 then
        { h with entries := siftDown (h.entries.setIfInBounds 0 (index, dist)) 0 }
      else h
    | none => h
  else { h with entries := siftUp (h.entries.push (index, dist)) h.entries.size }

/-- The entries by ascending distance, equal ones in the order of the array. -/
def sorted (h : BoundedHeap ι α) : List (ι × α) :=
  StableSort.sort (fun a b => a.2 < b.2) h.entries.toList

end BoundedHeap

end Proximity
