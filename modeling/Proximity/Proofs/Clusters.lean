import Proximity.Clustering.Transfers
import Proximity.Proofs.Distance

/-!
# Clusters

The centroid of a set of samples, and the sum of their squared distances to it: their scatter. With one
sample more or less in a set the centroid moves, and the scatter changes by the squared distance of
the sample to the centroid times a factor of the number of members.

1. `centroid` and `scatter`: `centroid_insert`, `scatter_insert`, `centroid_erase`, `scatter_erase`.
2. `members` and `within`: the clusters of a labelling and their scatter in total. `within_put` says
   what a sample adds to it that changes its cluster.
3. `NoGain`: labellings that no single transfer improves (`NoGain.within_le`, `NoGain.nearest`).
4. `means_fst`, `means_snd` and `sumOfSquares_means`: what is computed for a labelling.
-/

namespace Proximity

noncomputable section

variable {n K d : ℕ} {point : Fin n → Point ℝ d}

/-! ## One cluster -/

/-- The mean of a set of samples; the origin for no samples. -/
def centroid (point : Fin n → Point ℝ d) (S : Finset (Fin n)) : Point ℝ d :=
  Vector.ofFn fun k => (∑ i ∈ S, (point i).get k) / S.card

/-- The sum of the squared distances of some samples to their centroid. -/
def scatter (point : Fin n → Point ℝ d) (S : Finset (Fin n)) : ℝ :=
  ∑ i ∈ S, (point i).sqDist (centroid point S)

@[simp] theorem centroid_get (S : Finset (Fin n)) (k : Fin d) :
    (centroid point S).get k = (∑ i ∈ S, (point i).get k) / S.card := by
  rw [centroid, Vector.get_ofFn]

theorem centroid_empty [RealFormat] : centroid point ∅ = Point.origin := by
  refine Vector.ext_get fun k => ?_
  rw [centroid_get, Finset.sum_empty, zero_div, Point.origin, Vector.get_replicate, scalar_zero]

theorem centroid_singleton (i : Fin n) : centroid point {i} = point i := by
  refine Vector.ext_get fun k => ?_
  rw [centroid_get, Finset.sum_singleton, Finset.card_singleton, Nat.cast_one, div_one]

/-- The scatter is the sum of all squares less that of the sums, each divided by the number. -/
theorem scatter_eq (S : Finset (Fin n)) :
    scatter point S =
      ∑ k, (∑ i ∈ S, (point i).get k ^ 2 - (∑ i ∈ S, (point i).get k) ^ 2 / S.card) := by
  unfold scatter Point.sqDist
  rw [Finset.sum_comm]
  refine Finset.sum_congr rfl fun k _ => ?_
  rw [centroid_get]
  rcases S.eq_empty_or_nonempty with rfl | hS
  · simp
  · have hcard : (S.card : ℝ) ≠ 0 := Nat.cast_ne_zero.2 hS.card_pos.ne'
    set s := ∑ i ∈ S, (point i).get k with hs
    have expand (i : Fin n) : ((point i).get k - s / S.card) ^ 2 =
        (point i).get k ^ 2 - 2 * (s / S.card) * (point i).get k + (s / S.card) ^ 2 := by ring
    simp only [expand, Finset.sum_add_distrib, Finset.sum_sub_distrib, ← Finset.mul_sum, ← hs,
      Finset.sum_const, nsmul_eq_mul]
    field_simp
    ring

section Insert

variable {S : Finset (Fin n)} {i : Fin n} (hi : i ∉ S)
include hi

theorem centroid_insert :
    centroid point (insert i S) =
      Vector.zipWith (fun c v : ℝ => (c * S.card + v) / (S.card + 1)) (centroid point S) (point i) := by
  refine Vector.ext_get fun k => ?_
  rw [centroid_get, Vector.get_zipWith, centroid_get, Finset.sum_insert hi,
    Finset.card_insert_of_notMem hi, Nat.cast_add_one]
  rcases S.eq_empty_or_nonempty with rfl | hS
  · simp
  · rw [div_mul_cancel₀ _ (Nat.cast_ne_zero.2 hS.card_pos.ne'), add_comm]

/-- One sample more. -/
theorem scatter_insert :
    scatter point (insert i S) =
      scatter point S + (point i).sqDist (centroid point S) * (S.card / (S.card + 1)) := by
  rw [scatter_eq, scatter_eq, Point.sqDist, Finset.sum_mul, ← Finset.sum_add_distrib]
  refine Finset.sum_congr rfl fun k _ => ?_
  rw [Finset.sum_insert hi, Finset.sum_insert hi, Finset.card_insert_of_notMem hi,
    Nat.cast_add_one, centroid_get]
  rcases S.eq_empty_or_nonempty with rfl | hS
  · simp
  · have hcard : (S.card : ℝ) ≠ 0 := Nat.cast_ne_zero.2 hS.card_pos.ne'
    have hmore : (S.card : ℝ) + 1 ≠ 0 := by positivity
    field_simp
    ring

end Insert

section Erase

variable {S : Finset (Fin n)} {i : Fin n} (hi : i ∈ S)
include hi

theorem cast_card_erase : ((S.erase i).card : ℝ) = S.card - 1 := by
  rw [Finset.card_erase_of_mem hi, Nat.cast_pred (Finset.card_pos.2 ⟨i, hi⟩)]

theorem centroid_erase :
    centroid point (S.erase i) =
      Vector.zipWith (fun c v : ℝ => (c * S.card - v) / (S.card - 1)) (centroid point S) (point i) := by
  refine Vector.ext_get fun k => ?_
  have hcard : (S.card : ℝ) ≠ 0 := Nat.cast_ne_zero.2 (Finset.card_pos.2 ⟨i, hi⟩).ne'
  rw [centroid_get, Vector.get_zipWith, centroid_get, Finset.sum_erase_eq_sub hi,
    cast_card_erase hi, div_mul_cancel₀ _ hcard]

/-- One sample less, where others stay. -/
theorem scatter_erase (hS : S.card ≠ 1) :
    scatter point (S.erase i) =
      scatter point S - (point i).sqDist (centroid point S) * (S.card / (S.card - 1)) := by
  rw [scatter_eq, scatter_eq, Point.sqDist, Finset.sum_mul, ← Finset.sum_sub_distrib]
  refine Finset.sum_congr rfl fun k _ => ?_
  rw [Finset.sum_erase_eq_sub hi, Finset.sum_erase_eq_sub hi, cast_card_erase hi, centroid_get]
  have hcard : (S.card : ℝ) ≠ 0 := Nat.cast_ne_zero.2 (Finset.card_pos.2 ⟨i, hi⟩).ne'
  have hless : (S.card : ℝ) - 1 ≠ 0 := sub_ne_zero.2 (by exact_mod_cast hS)
  field_simp
  ring

end Erase

/-! ## The clusters of a labelling -/

/-- The samples with a label. -/
def members (labels : Vector (Fin K) n) (l : Fin K) : Finset (Fin n) :=
  Finset.univ.filter fun i => labels.get i = l

@[simp] theorem mem_members {labels : Vector (Fin K) n} {l : Fin K} {i : Fin n} :
    i ∈ members labels l ↔ labels.get i = l := by simp [members]

/-- The scatter of all clusters. -/
def within (point : Fin n → Point ℝ d) (labels : Vector (Fin K) n) : ℝ :=
  ∑ l, scatter point (members labels l)

theorem within_eq_sum (labels : Vector (Fin K) n) :
    within point labels =
      ∑ i, (point i).sqDist (centroid point (members labels (labels.get i))) := by
  unfold within scatter
  rw [← Finset.sum_fiberwise (s := Finset.univ) (g := labels.get)]
  refine Finset.sum_congr rfl fun l _ => Finset.sum_congr rfl fun i hi => ?_
  rw [(Finset.mem_filter.1 hi).2]

section Put

variable {labels : Vector (Fin K) n} {i : Fin n} {b l : Fin K}

theorem members_put_self : members (labels.put i b) b = insert i (members labels b) := by
  ext j
  rw [mem_members, Vector.get_put, Finset.mem_insert, mem_members]
  by_cases hj : i = j
  · simp [hj]
  · simp [hj, Ne.symm hj]

theorem members_put_of_ne (h : l ≠ b) :
    members (labels.put i b) l = (members labels l).erase i := by
  ext j
  rw [mem_members, Vector.get_put, Finset.mem_erase, mem_members]
  by_cases hj : i = j
  · simp [hj, h.symm]
  · simp [hj, Ne.symm hj]

theorem members_put_other (h : l ≠ b) (hl : l ≠ labels.get i) :
    members (labels.put i b) l = members labels l := by
  rw [members_put_of_ne h, Finset.erase_eq_of_notMem]
  rw [mem_members]
  exact hl.symm

/-- Only the clusters that a sample leaves and joins change their scatter. -/
theorem within_put_eq (h : labels.get i ≠ b) :
    within point (labels.put i b) = within point labels
      - scatter point (members labels (labels.get i))
      + scatter point ((members labels (labels.get i)).erase i)
      - scatter point (members labels b) + scatter point (insert i (members labels b)) := by
  have change : within point (labels.put i b) - within point labels =
      ∑ l, (scatter point (members (labels.put i b) l) - scatter point (members labels l)) := by
    rw [within, within, ← Finset.sum_sub_distrib]
  rw [Fintype.sum_eq_add (labels.get i) b h fun l hl => by
      rw [members_put_other hl.2 hl.1, sub_self],
    members_put_of_ne h, members_put_self] at change
  linarith

/-- What a sample adds to the scatter of all clusters that moves from a cluster with other members to
cluster `b`. -/
theorem within_put (h : labels.get i ≠ b) (hcard : (members labels (labels.get i)).card ≠ 1) :
    within point (labels.put i b) = within point labels
      - (point i).sqDist (centroid point (members labels (labels.get i))) *
          ((members labels (labels.get i)).card / ((members labels (labels.get i)).card - 1))
      + (point i).sqDist (centroid point (members labels b)) *
          ((members labels b).card / ((members labels b).card + 1)) := by
  have hi : i ∈ members labels (labels.get i) := mem_members.2 rfl
  have hb : i ∉ members labels b := fun hb => h (mem_members.1 hb)
  rw [within_put_eq h, scatter_erase hi hcard, scatter_insert hb]
  ring

end Put

/-! ## Labellings that no transfer improves -/

/-- No sample that shares its cluster gains by going to another one. -/
def NoGain (point : Fin n → Point ℝ d) (labels : Vector (Fin K) n) (centres : Matrix ℝ K d) : Prop :=
  ∀ i b, 2 ≤ (members labels (labels.get i)).card → b ≠ labels.get i →
    ((members labels (labels.get i)).card : ℝ) / ((members labels (labels.get i)).card - 1) *
        (point i).sqDist (centres.get (labels.get i)) ≤
      ((members labels b).card : ℝ) / ((members labels b).card + 1) *
        (point i).sqDist (centres.get b)

section NoGain

variable {labels : Vector (Fin K) n} {centres : Matrix ℝ K d} (h : NoGain point labels centres)
  (hcentres : ∀ l, centres.get l = centroid point (members labels l))
include h hcentres

/-- No transfer lowers the scatter of all clusters. -/
theorem NoGain.within_le {i : Fin n} {b : Fin K} (hi : 2 ≤ (members labels (labels.get i)).card)
    (hb : b ≠ labels.get i) : within point labels ≤ within point (labels.put i b) := by
  have hgain := h i b hi hb
  rw [hcentres, hcentres] at hgain
  rw [within_put hb.symm (by omega)]
  linarith

/-- Every sample has a nearest centre. -/
theorem NoGain.nearest (i : Fin n) : Nearest (point i) centres (labels.get i) := by
  intro b
  by_cases hb : b = labels.get i
  · rw [hb]
  · apply Point.dist_le_iff.2
    have hown : i ∈ members labels (labels.get i) := mem_members.2 rfl
    have hpos := Finset.card_pos.2 ⟨i, hown⟩
    by_cases hone : (members labels (labels.get i)).card = 1
    · -- the centre of a cluster of one is its sample
      obtain ⟨j, hj⟩ := Finset.card_eq_one.1 hone
      have hij : i = j := by
        rw [hj] at hown
        exact Finset.mem_singleton.1 hown
      rw [hcentres, hj, ← hij, centroid_singleton, Point.sqDist_self]
      exact Point.sqDist_nonneg _ _
    · have hgain := h i b (by omega) hb
      have hcard : (2 : ℝ) ≤ (members labels (labels.get i)).card := by
        exact_mod_cast (by omega : 2 ≤ (members labels (labels.get i)).card)
      have hleave : 1 ≤ ((members labels (labels.get i)).card : ℝ) /
          ((members labels (labels.get i)).card - 1) := by
        rw [one_le_div (by linarith)]
        linarith
      have hjoin : ((members labels b).card : ℝ) / ((members labels b).card + 1) ≤ 1 := by
        rw [div_le_one (by positivity)]
        linarith
      calc (point i).sqDist (centres.get (labels.get i))
          ≤ _ := le_mul_of_one_le_left (Point.sqDist_nonneg _ _) hleave
        _ ≤ _ := hgain
        _ ≤ (point i).sqDist (centres.get b) := mul_le_of_le_one_left (Point.sqDist_nonneg _ _) hjoin

end NoGain

/-! ## What is computed -/

section Counts

variable {α : Type} [Add α] [Scalar α] {point : Fin n → Point α d}

theorem ofLabels_counts (labels : Vector (Fin K) n) (l : Fin K) :
    (Totals.ofLabels point labels).counts.get l = (members labels l).card := by
  have := foldl_add (fun t : Totals α K d => t.counts.get l)
    (f := fun t i => t.insert (labels.get i) (point i))
    (fun i => if labels.get i = l then 1 else 0) (fun t i => by
      rw [Totals.insert, Vector.get_put]
      split
      next h => rw [h]
      next => rfl) Totals.zero
  rw [Totals.ofLabels, this, members, Finset.card_filter]
  simp [Totals.zero]

theorem means_snd [Div α] (data : Samples α n d) (labels : Vector (Fin K) n) (l : Fin K) :
    (Transfers.means data labels).2.get l = (members labels l).card :=
  ofLabels_counts labels l

end Counts

variable [RealFormat]

theorem ofLabels_sums (labels : Vector (Fin K) n) (l : Fin K) (k : Fin d) :
    ((Totals.ofLabels point labels).sums.get l).get k = ∑ i ∈ members labels l, (point i).get k := by
  have := foldl_add (fun t : Totals ℝ K d => (t.sums.get l).get k)
    (f := fun t i => t.insert (labels.get i) (point i))
    (fun i => if labels.get i = l then (point i).get k else 0) (fun t i => by
      rw [Totals.insert, Vector.get_put]
      split
      next h => rw [h, Point.add, Vector.get_zipWith]
      next => rw [add_zero]) Totals.zero
  rw [Totals.ofLabels, this, members, Finset.sum_filter]
  simp [Totals.zero, Matrix.const_eq_replicate]

/-- The means of a labelling are the centroids of its clusters. -/
theorem means_fst (data : Samples ℝ n d) (labels : Vector (Fin K) n) (l : Fin K) :
    (Transfers.means data labels).1.get l = centroid data.point (members labels l) := by
  refine Vector.ext_get fun k => ?_
  rw [Transfers.means, Vector.get_zipWith, ofLabels_counts, centroid_get]
  split
  next h => rw [ofLabels_sums, h, Nat.cast_zero, div_zero, Finset.card_eq_zero.1 h, Finset.sum_empty]
  next => rw [Point.divideBy, Vector.get_map, ofLabels_sums, scalar_ofNat]

theorem sumOfSquares_eq (data : Samples ℝ n d) (labels : Vector (Fin K) n) (centres : Matrix ℝ K d) :
    Transfers.sumOfSquares data labels centres =
      ∑ i, (data.point i).sqDist (centres.get (labels.get i)) := by
  have perCluster (l : Fin K) := foldl_add (fun w : Vector ℝ K => w.get l)
    (f := fun w i => w.put (labels.get i)
      (w.get (labels.get i) + Metric.squared (data.point i) (centres.get (labels.get i))))
    (fun i => if labels.get i = l then (data.point i).sqDist (centres.get (labels.get i)) else 0)
    (fun w i => by
      rw [Vector.get_put]
      split
      next h => rw [h, squared_eq]
      next => rw [add_zero]) (Vector.replicate K Scalar.zero)
  rw [Transfers.sumOfSquares, sumOver_eq_sum]
  simp only [perCluster]
  rw [Finset.sum_add_distrib, Finset.sum_comm]
  simp

theorem sumOfSquares_means (data : Samples ℝ n d) (labels : Vector (Fin K) n) :
    Transfers.sumOfSquares data labels (Transfers.means data labels).1 = within data.point labels := by
  simp only [sumOfSquares_eq, means_fst, within_eq_sum]

end

end Proximity
