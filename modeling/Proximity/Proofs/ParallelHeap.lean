import Proximity.Proofs.HeapInserts

/-!
# A heap in two arrays

A search keeps the indices and the distances of a bounded heap in an array each. Every step that writes
into one of them writes into the same place of the other, and only distances are compared. So the two
arrays are at all times the two halves of an array of pairs, which is the form in which the other modules
speak of the heap.

1. `ParallelHeap`: the heap with two arrays, and all that is done with it.
2. `BoundedHeap.inArrays`: a heap of pairs as one with two arrays; one lemma for each step says that the
   two forms take it alike.
3. `ParallelHeap.insertAll_empty`: any sequence of inserts.
-/

namespace Proximity

/-! ## Two arrays -/

/-- At most `capacity` entries, the farthest first: their indices and their distances. -/
structure ParallelHeap (ι α : Type) where
  capacity : ℕ
  indices : Array ι
  distances : Array α

namespace ParallelHeap

variable {ι α : Type}

/-- The heap with no entries. -/
def empty (capacity : ℕ) : ParallelHeap ι α := ⟨capacity, #[], #[]⟩

/-- No entry can be added without dropping one. -/
def isFull (h : ParallelHeap ι α) : Bool := h.capacity ≤ h.distances.size

/-- Entries `i` and `j` exchanged. -/
def swap (h : ParallelHeap ι α) (i j : ℕ) : ParallelHeap ι α :=
  { h with
    indices := h.indices.swapIfInBounds i j
    distances := h.distances.swapIfInBounds i j }

variable [LT α] [DecidableLT α]

/-- The distance that a newcomer has to beat. -/
def worst [Scalar α] (h : ParallelHeap ι α) : Option α :=
  if h.isFull then h.distances[0]? else some Scalar.largest

/-- Distance `j` is greater than distance `i`. -/
def farther (distances : Array α) (i j : ℕ) : Bool :=
  match distances[i]?, distances[j]? with
  | some x, some y => x < y
  | _, _ => false

/-- Entry `i` moved up past all nearer ones. -/
def siftUp (h : ParallelHeap ι α) (i : ℕ) : ParallelHeap ι α :=
  if 0 < i ∧ farther h.distances ((i - 1) / 2) i then siftUp (h.swap i ((i - 1) / 2)) ((i - 1) / 2)
  else h
termination_by i
decreasing_by omega

/-- The farthest of entry `i` and the two below it. -/
def farthestBelow (distances : Array α) (i : ℕ) : ℕ :=
  let m := if farther distances i (2 * i + 1) then 2 * i + 1 else i
  if farther distances m (2 * i + 2) then 2 * i + 2 else m

/-- Entry `i` moved down past all farther ones. -/
def siftDown (h : ParallelHeap ι α) (i : ℕ) : ParallelHeap ι α :=
  let m := farthestBelow h.distances i
  if i < m ∧ m < h.distances.size then siftDown (h.swap i m) m else h
termination_by h.distances.size - i
decreasing_by simp only [swap, Array.size_swapIfInBounds]; omega

/-- The heap after one more entry was offered. -/
def insert (h : ParallelHeap ι α) (index : ι) (dist : α) : ParallelHeap ι α :=
  if h.isFull then
    match h.distances[0]? with
    | some top =>
      if dist < top then
        siftDown { h with
          indices := h.indices.setIfInBounds 0 index
          distances := h.distances.setIfInBounds 0 dist } 0
      else h
    | none => h
  else
    siftUp { h with indices := h.indices.push index, distances := h.distances.push dist }
      h.distances.size

/-- The heap after some entries were offered to it, one after another. -/
def insertAll (h : ParallelHeap ι α) (xs : List (ι × α)) : ParallelHeap ι α :=
  xs.foldl (fun h x => h.insert x.1 x.2) h

/-- The entries by ascending distance, equal ones in the order of the arrays. -/
def sorted (h : ParallelHeap ι α) : List (ι × α) :=
  StableSort.sort (fun a b => a.2 < b.2) (h.indices.zip h.distances).toList

end ParallelHeap

/-! ## Pairs -/

namespace BoundedHeap

variable {ι α : Type}

/-- The heap with its indices and its distances in an array each. -/
def inArrays (h : BoundedHeap ι α) : ParallelHeap ι α :=
  ⟨h.capacity, h.entries.map (·.1), h.entries.map (·.2)⟩

theorem inArrays_isFull (h : BoundedHeap ι α) : h.inArrays.isFull = h.isFull := by
  simp [inArrays, ParallelHeap.isFull, isFull]

theorem inArrays_swap (c : ℕ) (a : Array (ι × α)) (i j : ℕ) :
    (inArrays ⟨c, a⟩).swap i j = inArrays ⟨c, a.swapIfInBounds i j⟩ := by
  rw [inArrays, inArrays, map_swapIfInBounds, map_swapIfInBounds]
  rfl

variable [LT α] [DecidableLT α]

omit [DecidableLT α] [LT α] in
theorem inArrays_worst [Scalar α] (h : BoundedHeap ι α) : h.inArrays.worst = h.worst := by
  rw [ParallelHeap.worst, inArrays_isFull, worst, inArrays, Array.getElem?_map]

theorem inArrays_farther (a : Array (ι × α)) (i j : ℕ) :
    ParallelHeap.farther (a.map (·.2)) i j = farther a i j := by
  rw [ParallelHeap.farther, farther, Array.getElem?_map, Array.getElem?_map]
  cases a[i]? with
  | none => rfl
  | some x => cases a[j]? <;> rfl

theorem inArrays_farthestBelow (a : Array (ι × α)) (i : ℕ) :
    ParallelHeap.farthestBelow (a.map (·.2)) i = farthestBelow a i := by
  simp only [ParallelHeap.farthestBelow, farthestBelow, inArrays_farther]

theorem inArrays_siftUp (c : ℕ) (a : Array (ι × α)) (i : ℕ) :
    (inArrays ⟨c, a⟩).siftUp i = inArrays ⟨c, siftUp a i⟩ := by
  induction a, i using siftUp.induct with
  | case1 a i h ih =>
    rw [ParallelHeap.siftUp, siftUp, if_pos h, ← ih, ← inArrays_swap]
    exact if_pos ⟨h.1, (inArrays_farther a _ i).trans h.2⟩
  | case2 a i h =>
    rw [ParallelHeap.siftUp, siftUp, if_neg h]
    exact if_neg fun hmoves => h ⟨hmoves.1, (inArrays_farther a _ i).symm.trans hmoves.2⟩

theorem inArrays_siftDown (c : ℕ) (a : Array (ι × α)) (i : ℕ) :
    (inArrays ⟨c, a⟩).siftDown i = inArrays ⟨c, siftDown a i⟩ := by
  have hbelow (a : Array (ι × α)) (i : ℕ) :
      ParallelHeap.farthestBelow (inArrays ⟨c, a⟩).distances i = farthestBelow a i :=
    inArrays_farthestBelow a i
  have hsize (a : Array (ι × α)) : (inArrays ⟨c, a⟩).distances.size = a.size := Array.size_map
  induction a, i using siftDown.induct with
  | case1 a i h ih =>
    rw [ParallelHeap.siftDown, siftDown, if_pos h, ← ih, ← inArrays_swap]
    simp only [hbelow, hsize]
    exact if_pos h
  | case2 a i h =>
    rw [ParallelHeap.siftDown, siftDown, if_neg h]
    simp only [hbelow, hsize]
    exact if_neg h

/-- An entry offered to a heap in two arrays is offered to the heap of pairs. -/
theorem inArrays_insert (h : BoundedHeap ι α) (index : ι) (dist : α) :
    h.inArrays.insert index dist = (h.insert index dist).inArrays := by
  have htop : h.inArrays.distances[0]? = h.entries[0]?.map (·.2) := Array.getElem?_map
  unfold ParallelHeap.insert BoundedHeap.insert
  rw [inArrays_isFull, htop]
  split
  · cases h.entries[0]? with
    | none => rfl
    | some top =>
      dsimp only [Option.map_some]
      split
      · rw [← inArrays_siftDown, inArrays, inArrays, Array.map_setIfInBounds, Array.map_setIfInBounds]
      · rfl
  · rw [← inArrays_siftUp, inArrays, inArrays, Array.map_push, Array.map_push, Array.size_map]

theorem inArrays_insertAll (h : BoundedHeap ι α) (xs : List (ι × α)) :
    h.inArrays.insertAll xs = (h.insertAll xs).inArrays := by
  induction xs generalizing h with
  | nil => rfl
  | cons x xs ih => exact (congrArg (·.insertAll xs) (h.inArrays_insert x.1 x.2)).trans (ih _)

theorem inArrays_sorted (h : BoundedHeap ι α) : h.inArrays.sorted = h.sorted := by
  have hzip : h.inArrays.indices.zip h.inArrays.distances = h.entries := by
    have hunzip := Array.zip_unzip h.entries
    rwa [Array.unzip_eq_map] at hunzip
  rw [ParallelHeap.sorted, hzip, sorted]

end BoundedHeap

/-- After any inserts the two arrays are the halves of the array of pairs: they are equally long, and the
bound and the answer of the heap are those of the pairs. -/
theorem ParallelHeap.insertAll_empty {ι α : Type} [LT α] [DecidableLT α] [Scalar α] (c : ℕ)
    (seen : List (ι × α)) :
    let h := (ParallelHeap.empty c : ParallelHeap ι α).insertAll seen
    let pairs := (BoundedHeap.empty c : BoundedHeap ι α).insertAll seen
    h = pairs.inArrays ∧ h.indices.size = h.distances.size ∧ h.isFull = pairs.isFull ∧
      h.worst = pairs.worst ∧ h.sorted = pairs.sorted := by
  intro h pairs
  have hempty : (ParallelHeap.empty c : ParallelHeap ι α) = (BoundedHeap.empty c).inArrays := by
    rw [BoundedHeap.inArrays, BoundedHeap.empty, Array.map_empty, Array.map_empty]
    rfl
  have hpairs : h = pairs.inArrays :=
    (congrArg (·.insertAll seen) hempty).trans (BoundedHeap.inArrays_insertAll _ seen)
  rw [hpairs]
  exact ⟨rfl, by simp [BoundedHeap.inArrays], pairs.inArrays_isFull, pairs.inArrays_worst,
    pairs.inArrays_sorted⟩

end Proximity
