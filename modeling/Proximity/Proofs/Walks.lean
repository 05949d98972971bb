import Proximity.Neighbours.Tree.Search
import Proximity.Proofs.Exact

/-!
# Steps of a walk

What a walk for the nearest rows does at a node, and what a search makes of the walks of its queries. No
law of arithmetic is used: the numbers may be rounded, infinite or no numbers at all.

1. `Search.Reaches`: a split is not beyond a bound.
2. `nearestInto_leftOut` and `nearestInto_inner`: a box that is left out, and a split.
3. `nearestNeighbours_eq`: the answer of a search, from the heaps that its walks end with.
-/

namespace Proximity

variable {α : Type} [Add α] [Sub α] [Mul α] [Div α] [Neg α] [LT α] [LE α] [DecidableLT α]
  [DecidableLE α] [BEq α] [Scalar α] {n d k : ℕ}

namespace Search

omit [Add α] [Sub α] [Div α] [Neg α] [LT α] [LE α] [DecidableLT α] [DecidableLE α] [BEq α] in
/-- The signed distance of a split from a query, in the units of the search. -/
def plane (s : Search α n) (diff : α) : α :=
  if s.metric = .sqEuclidean then diff * Scalar.abs diff else diff

/-- The split at a coordinate difference is not beyond a bound. -/
def Reaches (s : Search α n) (bound diff : α) : Prop :=
  if diff < Scalar.zero then -bound ≤ s.plane diff else s.plane diff ≤ bound

instance (s : Search α n) (bound diff : α) : Decidable (s.Reaches bound diff) :=
  inferInstanceAs (Decidable (ite _ _ _))

end Search

namespace KdTree

variable {T : KdTree α n d} {s : Search α n} {q : Probe α n d} {heap : BoundedHeap (Fin n) α}
  {id : ℕ} {v : Node α n d}

theorem nearestInto_leftOut (lookup : T.nodes[id]? = some v)
    (hout : (heap.isFull &&
      s.overlap q.point (heap.worst.getD Scalar.largest) v.box = .outside) = true) (fuel : ℕ) :
    T.nearestInto s q (fuel + 1) id heap = .ok heap := by
  rw [nearestInto, lookup]
  exact if_pos hout

/-- At a split whose box is not left out the point is offered, the half with the query is searched and
then the other one, unless the split is beyond the bound by then. -/
theorem nearestInto_inner {point : Fin n} {left right : ℕ} (lookup : T.nodes[id]? = some v)
    (split : v.split = .inner point left right)
    (hbox : ¬ (heap.isFull &&
      s.overlap q.point (heap.worst.getD Scalar.largest) v.box = .outside) = true) (fuel : ℕ) :
    T.nearestInto s q (fuel + 1) id heap =
      let diff := q.point.get v.dim - T.data.entry point v.dim
      (T.nearestInto s q fuel (if diff < Scalar.zero then left else right)
        (T.offer s q heap point)).bind fun heap =>
          if s.Reaches (heap.worst.getD Scalar.largest) diff then
            T.nearestInto s q fuel (if diff < Scalar.zero then right else left) heap
          else .ok heap := by
  rw [nearestInto, lookup]
  dsimp only
  rw [if_neg hbox, split]
  dsimp only
  by_cases hdiff : q.point.get v.dim - T.data.entry point v.dim < Scalar.zero
  · simp only [if_pos hdiff, Search.Reaches]
    rfl
  · simp only [if_neg hdiff, Search.Reaches]
    rfl

/-- The answer of a search has the heaps of its queries in order. -/
theorem nearestNeighbours_eq {m : Metric} {p : α} (hm : Search.checkMetric m p = .ok ())
    {query : Option (Grid α)} (hquery : Search.checkQuery d query = .ok ())
    (hcount : checkCount (if query.isNone then n - 1 else n) k = .ok ())
    {probe : Fin (queryCount n query) → Probe α n d}
    (hprobes : T.probes (.settings T.data m p) query = .ok (Vector.ofFn probe))
    {heap : Fin (queryCount n query) → BoundedHeap (Fin n) α}
    (hrun : ∀ q, T.nearestInto (.settings T.data m p) (probe q) T.nodes.size 0 (.empty k) =
      .ok (heap q)) :
    T.nearestNeighbours query k m p = .ok (.ofLists k (Vector.ofFn fun q =>
      (heap q).sorted.map fun e => (e.1.val, m.externalDistance p e.2))) := by
  let s := Search.settings T.data m p
  let answer (h : BoundedHeap (Fin n) α) : List (ℕ × α) :=
    h.sorted.map fun e => (e.1.val, m.externalDistance p e.2)
  obtain ⟨lists, hlists, hread⟩ := mapM_ok
    (fun q => (T.nearestInto s q T.nodes.size 0 (.empty k)).bind fun heap => .ok (answer heap))
    (Vector.ofFn probe)
    fun q => ⟨answer (heap q), by rw [Vector.get_ofFn, hrun]; rfl⟩
  have hanswers : lists = Vector.ofFn fun q => answer (heap q) := by
    refine Vector.ext_get fun q => ?_
    have hq := hread q
    rw [Vector.get_ofFn, hrun] at hq
    rw [Vector.get_ofFn]
    exact (Except.ok.inj hq).symm
  rw [nearestNeighbours, Search.plan, hm, hquery, hcount]
  show (T.probes s query).bind (fun probes => (probes.mapM fun q =>
    (T.nearestInto s q T.nodes.size 0 (.empty k)).bind fun heap => .ok (answer heap)).bind
      fun lists => .ok (NeighbourTable.ofLists k lists)) = _
  rw [hprobes, Except.bind, hlists, hanswers]
  rfl

end KdTree

end Proximity
