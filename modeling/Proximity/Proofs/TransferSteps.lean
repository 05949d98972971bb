import Proximity.Proofs.Clusters

/-!
# Steps of the transfers

What a step does to a state whose centres, sizes and factors are those of its labelling (`Coherent`).
In such a state the scatter of all clusters changes in a transfer by the cost of joining less the cost
of leaving (`transfer_within`), and a step compares the two.

1. `distanceBelow_eq_some`: a distance that is given up early is above its bound.
2. `Coherent`, `leavingCost` and `joiningCost`.
3. `Coherent.transfer`, `transfer_within`, and the costs after a transfer.
4. `optimalStep_cases` and `quickStep_cases`: all that a step can do.
-/

namespace Proximity.Transfers

noncomputable section

variable {n K d : ℕ}

/-! ## Distances below a bound -/

/-- A sum of terms that are not negative reaches a bound at the end if anywhere. -/
theorem foldlM_below {β : Type*} {t : β → ℝ} (ht : ∀ j, 0 ≤ t j) (bound : ℝ) :
    ∀ (l : List β) (acc v : ℝ),
      l.foldlM (fun acc j => if bound ≤ acc + t j then none else some (acc + t j)) acc = some v ↔
        v = acc + (l.map t).sum ∧ (l ≠ [] → v < bound)
  | [], acc, v => by simp [eq_comm]
  | j :: l, acc, v => by
    have hl : 0 ≤ (l.map t).sum := List.sum_nonneg (by simpa using fun j _ => ht j)
    have ih := foldlM_below ht bound l (acc + t j) v
    rw [List.foldlM_cons, List.map_cons, List.sum_cons, ← add_assoc]
    by_cases hb : bound ≤ acc + t j
    · rw [if_pos hb]
      refine iff_of_false (fun h => Option.some_ne_none v h.symm) ?_
      rintro ⟨rfl, hlt⟩
      have := hlt (List.cons_ne_nil _ _)
      linarith
    · rw [if_neg hb]
      show l.foldlM _ (acc + t j) = some v ↔ _
      rw [ih]
      refine and_congr_right fun hv => ⟨fun h _ => ?_, fun h _ => h (List.cons_ne_nil _ _)⟩
      by_cases hnil : l = []
      · rw [hv, hnil, List.map_nil, List.sum_nil, add_zero]
        exact not_le.1 hb
      · exact h hnil

variable [RealFormat]

theorem distanceBelow_eq_some (hd : 0 < d) {x y : Point ℝ d} {bound v : ℝ} :
    distanceBelow x y bound = some v ↔ v = x.sqDist y ∧ v < bound := by
  have hne : List.finRange d ≠ [] := by
    rw [Ne, List.finRange_eq_nil_iff]
    omega
  have hsum : ((List.finRange d).map fun j => (x.get j - y.get j) * (x.get j - y.get j)).sum =
      x.sqDist y := by
    rw [← Fin.sum_univ_def, Point.sqDist]
    exact Finset.sum_congr rfl fun _ _ => (sq _).symm
  have := foldlM_below (fun j => mul_self_nonneg (x.get j - y.get j)) bound (List.finRange d) 0 v
  rw [hsum, zero_add] at this
  simpa [distanceBelow, Scalar.zero, hne] using this

theorem distanceBelow_eq_none (hd : 0 < d) {x y : Point ℝ d} {bound : ℝ}
    (h : distanceBelow x y bound = none) : bound ≤ x.sqDist y := by
  by_contra hlt
  have := (distanceBelow_eq_some hd).2 ⟨rfl, not_le.1 hlt⟩
  rw [h] at this
  exact Option.some_ne_none _ this.symm

theorem distanceBelow_isSome (hd : 0 < d) {x y : Point ℝ d} {bound : ℝ} :
    (distanceBelow x y bound).isSome ↔ x.sqDist y < bound := by
  rw [Option.isSome_iff_exists]
  simp only [distanceBelow_eq_some hd, exists_eq_left]

/-! ## Coherent states -/

/-- The cost of leaving its cluster, for a sample. -/
def leavingCost (s : Transfers ℝ n K d) (data : Samples ℝ n d) (i : Fin n) : ℝ :=
  s.distance data i (s.first.get i) * s.leave.get (s.first.get i)

/-- The cost of joining cluster `l`, for a sample. -/
def joiningCost (s : Transfers ℝ n K d) (data : Samples ℝ n d) (i : Fin n) (l : Fin K) : ℝ :=
  s.distance data i l * s.join.get l

/-- Centres, sizes and factors are those of the labelling, no cluster is empty, and every sample has a
second cluster. -/
structure Coherent (data : Samples ℝ n d) (s : Transfers ℝ n K d) : Prop where
  centres : ∀ l, s.centres.get l = centroid data.point (members s.first l)
  sizes : ∀ l, s.sizes.get l = (members s.first l).card
  occupied : ∀ l, s.sizes.get l ≠ 0
  leave : ∀ l, s.leave.get l = leaveFactor (s.sizes.get l : ℝ)
  join : ∀ l, s.join.get l = joinFactor (s.sizes.get l : ℝ)
  second : ∀ i, s.second.get i ≠ s.first.get i

theorem distance_eq (s : Transfers ℝ n K d) (data : Samples ℝ n d) (i : Fin n) (l : Fin K) :
    s.distance data i l = (data.point i).sqDist (s.centres.get l) := squared_eq _ _

theorem leaveFactor_of_ne_one {m : ℕ} (h0 : m ≠ 0) (h1 : m ≠ 1) :
    leaveFactor (m : ℝ) = m / (m - 1) := by
  have : (1 : ℝ) < m := by exact_mod_cast (by omega : 1 < m)
  rw [leaveFactor, scalar_one, if_pos this]

theorem joinFactor_eq (m : ℕ) : joinFactor (m : ℝ) = m / (m + 1) := by
  rw [joinFactor, scalar_one]

namespace Coherent

variable {data : Samples ℝ n d} {s : Transfers ℝ n K d} (h : s.Coherent data)
include h

/-- Coherence has nothing to do with counters and stored costs. -/
theorem counters {changed live : Vector ℤ K} {removal : Vector ℝ n} {touched : Vector Bool K}
    {quiet : ℕ} : Coherent data { s with changed, removal, touched, live, quiet } :=
  ⟨h.centres, h.sizes, h.occupied, h.leave, h.join, h.second⟩

theorem join_pos (l : Fin K) : 0 < s.join.get l := by
  have : (0 : ℝ) < s.sizes.get l := Nat.cast_pos.2 (Nat.pos_of_ne_zero (h.occupied l))
  rw [h.join, joinFactor_eq]
  positivity

theorem cast_size_pred (l : Fin K) : ((s.sizes.get l - 1 : ℕ) : ℝ) = s.sizes.get l - 1 :=
  Nat.cast_pred (Nat.pos_of_ne_zero (h.occupied l))

theorem leavingCost_eq {i : Fin n} (hi : s.sizes.get (s.first.get i) ≠ 1) :
    s.leavingCost data i =
      (data.point i).sqDist (centroid data.point (members s.first (s.first.get i))) *
        ((members s.first (s.first.get i)).card / ((members s.first (s.first.get i)).card - 1)) := by
  rw [leavingCost, distance_eq, h.leave, leaveFactor_of_ne_one (h.occupied _) hi, h.centres, h.sizes]

theorem joiningCost_eq (i : Fin n) (l : Fin K) :
    s.joiningCost data i l = (data.point i).sqDist (centroid data.point (members s.first l)) *
      ((members s.first l).card / ((members s.first l).card + 1)) := by
  rw [joiningCost, distance_eq, h.join, joinFactor_eq, h.centres, h.sizes]

end Coherent

/-! ## A transfer -/

section Transfer

variable {data : Samples ℝ n d} {s : Transfers ℝ n K d} {i : Fin n} {a b : Fin K}

theorem transfer_centres_other {l : Fin K} (ha : l ≠ a) (hb : l ≠ b) :
    (s.transfer data i a b).centres.get l = s.centres.get l := by
  rw [transfer, Vector.get_put_of_ne _ _ hb.symm, Vector.get_put_of_ne _ _ ha.symm]

theorem transfer_sizes_other {l : Fin K} (ha : l ≠ a) (hb : l ≠ b) :
    (s.transfer data i a b).sizes.get l = s.sizes.get l := by
  rw [transfer, Vector.get_put_of_ne _ _ hb.symm, Vector.get_put_of_ne _ _ ha.symm]

theorem transfer_leave_other {l : Fin K} (ha : l ≠ a) (hb : l ≠ b) :
    (s.transfer data i a b).leave.get l = s.leave.get l := by
  rw [transfer, Vector.get_put_of_ne _ _ hb.symm, Vector.get_put_of_ne _ _ ha.symm]

theorem transfer_join_other {l : Fin K} (ha : l ≠ a) (hb : l ≠ b) :
    (s.transfer data i a b).join.get l = s.join.get l := by
  rw [transfer, Vector.get_put_of_ne _ _ hb.symm, Vector.get_put_of_ne _ _ ha.symm]

theorem transfer_first_other {j : Fin n} (hj : j ≠ i) :
    (s.transfer data i a b).first.get j = s.first.get j := Vector.get_put_of_ne _ _ hj.symm

theorem transfer_second_other {j : Fin n} (hj : j ≠ i) :
    (s.transfer data i a b).second.get j = s.second.get j := Vector.get_put_of_ne _ _ hj.symm

theorem transfer_first_self : (s.transfer data i a b).first.get i = b := Vector.get_put_self _ _ _

theorem transfer_second_self : (s.transfer data i a b).second.get i = a := Vector.get_put_self _ _ _

/-- Costs of samples and clusters that have no part in a transfer stay. -/
theorem joiningCost_transfer {l : Fin K} (ha : l ≠ a) (hb : l ≠ b) (j : Fin n) :
    (s.transfer data i a b).joiningCost data j l = s.joiningCost data j l := by
  rw [joiningCost, distance_eq, transfer_centres_other ha hb, transfer_join_other ha hb,
    joiningCost, distance_eq]

theorem leavingCost_transfer {j : Fin n} (hj : j ≠ i) (ha : s.first.get j ≠ a)
    (hb : s.first.get j ≠ b) :
    (s.transfer data i a b).leavingCost data j = s.leavingCost data j := by
  rw [leavingCost, distance_eq, transfer_first_other hj, transfer_centres_other ha hb,
    transfer_leave_other ha hb, leavingCost, distance_eq]

theorem transfer_leave_joined :
    (s.transfer data i a b).leave.get b = (s.sizes.get b + 1) / s.sizes.get b := by
  rw [transfer, Vector.get_put_self, scalar_one, scalar_ofNat]

theorem transfer_join_joined :
    (s.transfer data i a b).join.get b = (s.sizes.get b + 1) / (s.sizes.get b + 1 + 1) := by
  rw [transfer, Vector.get_put_self, scalar_one, scalar_ofNat]

/-- Sample `i` goes from its cluster `a`, where others stay, to another cluster `b`. -/
structure Moves (s : Transfers ℝ n K d) (i : Fin n) (a b : Fin K) : Prop where
  own : s.first.get i = a
  ne : b ≠ a
  others : s.sizes.get a ≠ 1

variable (hm : s.Moves i a b)
include hm

theorem transfer_sizes_left :
    (s.transfer data i a b).sizes.get a = s.sizes.get a - 1 := by
  rw [transfer, Vector.get_put_of_ne _ _ hm.ne, Vector.get_put_self]

theorem transfer_sizes_joined :
    (s.transfer data i a b).sizes.get b = s.sizes.get b + 1 := by
  rw [transfer, Vector.get_put_self, Vector.get_put_of_ne _ _ hm.ne.symm]

theorem transfer_centres_left :
    (s.transfer data i a b).centres.get a =
      Vector.zipWith (fun c v : ℝ => (c * s.sizes.get a - v) / (s.sizes.get a - 1))
        (s.centres.get a) (data.point i) := by
  rw [transfer, Vector.get_put_of_ne _ _ hm.ne, Vector.get_put_self]
  simp only [scalar_ofNat, Nat.cast_one]

theorem transfer_centres_joined :
    (s.transfer data i a b).centres.get b =
      Vector.zipWith (fun c v : ℝ => (c * s.sizes.get b + v) / (s.sizes.get b + 1))
        (s.centres.get b) (data.point i) := by
  rw [transfer, Vector.get_put_self, Vector.get_put_of_ne _ _ hm.ne.symm]
  simp only [scalar_ofNat, Nat.cast_one]

theorem transfer_leave_left :
    (s.transfer data i a b).leave.get a = leaveFactor ((s.sizes.get a : ℝ) - 1) := by
  rw [transfer, Vector.get_put_of_ne _ _ hm.ne, Vector.get_put_self, scalar_one, scalar_ofNat]

theorem transfer_join_left :
    (s.transfer data i a b).join.get a = (s.sizes.get a - 1) / s.sizes.get a := by
  rw [transfer, Vector.get_put_of_ne _ _ hm.ne, Vector.get_put_self, scalar_one, scalar_ofNat]

variable (h : s.Coherent data)
include h

/-- A transfer leaves a coherent state behind. -/
theorem Coherent.transfer : (s.transfer data i a b).Coherent data := by
  have hi : i ∈ members s.first a := mem_members.2 hm.own
  have hib : i ∉ members s.first b := fun hb => hm.ne ((mem_members.1 hb).symm.trans hm.own)
  have left : members (s.transfer data i a b).first a = (members s.first a).erase i :=
    members_put_of_ne hm.ne.symm
  have joined : members (s.transfer data i a b).first b = insert i (members s.first b) :=
    members_put_self
  have other {l : Fin K} (hla : l ≠ a) (hlb : l ≠ b) :
      members (s.transfer data i a b).first l = members s.first l :=
    members_put_other hlb (hm.own ▸ hla)
  -- cluster `b` is joined, cluster `a` is left, and no other cluster is changed
  have cases (P : Fin K → Prop) (hb : P b) (ha : P a) (ho : ∀ l, l ≠ a → l ≠ b → P l) (l : Fin K) :
      P l := by
    by_cases hlb : l = b
    · exact hlb ▸ hb
    · by_cases hla : l = a
      · exact hla ▸ ha
      · exact ho l hla hlb
  constructor
  case centres =>
    refine cases _ ?_ ?_ fun l hla hlb => ?_
    · rw [transfer_centres_joined hm, joined, centroid_insert hib, h.centres, h.sizes]
    · rw [transfer_centres_left hm, left, centroid_erase hi, h.centres, h.sizes]
    · rw [transfer_centres_other hla hlb, other hla hlb, h.centres]
  case sizes =>
    refine cases _ ?_ ?_ fun l hla hlb => ?_
    · rw [transfer_sizes_joined hm, joined, Finset.card_insert_of_notMem hib, h.sizes]
    · rw [transfer_sizes_left hm, left, Finset.card_erase_of_mem hi, h.sizes]
    · rw [transfer_sizes_other hla hlb, other hla hlb, h.sizes]
  case occupied =>
    refine cases _ ?_ ?_ fun l hla hlb => ?_
    · rw [transfer_sizes_joined hm]
      exact Nat.succ_ne_zero _
    · rw [transfer_sizes_left hm]
      have := h.occupied a
      have := hm.others
      omega
    · rw [transfer_sizes_other hla hlb]
      exact h.occupied l
  case leave =>
    refine cases _ ?_ ?_ fun l hla hlb => ?_
    · have := h.occupied b
      rw [transfer_leave_joined, transfer_sizes_joined hm,
        leaveFactor_of_ne_one (Nat.succ_ne_zero _) (by omega), Nat.cast_add_one, add_sub_cancel_right]
    · rw [transfer_leave_left hm, transfer_sizes_left hm, h.cast_size_pred]
    · rw [transfer_leave_other hla hlb, transfer_sizes_other hla hlb, h.leave]
  case join =>
    refine cases _ ?_ ?_ fun l hla hlb => ?_
    · rw [transfer_join_joined, transfer_sizes_joined hm, joinFactor_eq, Nat.cast_add_one]
    · rw [transfer_join_left hm, transfer_sizes_left hm, joinFactor_eq, h.cast_size_pred,
        sub_add_cancel]
    · rw [transfer_join_other hla hlb, transfer_sizes_other hla hlb, h.join]
  case second =>
    intro j
    by_cases hj : j = i
    · rw [hj, transfer_first_self, transfer_second_self]
      exact hm.ne.symm
    · rw [transfer_first_other hj, transfer_second_other hj]
      exact h.second j

/-- A transfer changes the scatter of all clusters by the cost of joining less that of leaving. -/
theorem transfer_within :
    within data.point (s.transfer data i a b).first =
      within data.point s.first - s.leavingCost data i + s.joiningCost data i b := by
  obtain rfl := hm.own
  rw [h.leavingCost_eq hm.others, h.joiningCost_eq]
  exact within_put hm.ne.symm (h.sizes _ ▸ hm.others)

/-- A transfer whose gain is above its cost lowers the scatter of all clusters. -/
theorem transfer_within_lt (hgain : s.joiningCost data i b < s.leavingCost data i) :
    within data.point (s.transfer data i a b).first < within data.point s.first := by
  rw [transfer_within hm h]
  linarith

/-- To leave the joined cluster again costs what it cost to join it. -/
theorem leavingCost_transfer_self :
    (s.transfer data i a b).leavingCost data i = s.joiningCost data i b := by
  have hb : (s.sizes.get b : ℝ) ≠ 0 := Nat.cast_ne_zero.2 (h.occupied b)
  have hmore : (s.sizes.get b : ℝ) + 1 ≠ 0 := by positivity
  rw [leavingCost, transfer_first_self, distance_eq, transfer_centres_joined hm,
    transfer_leave_joined, joiningCost, distance_eq, h.join, joinFactor_eq, Point.sqDist,
    Point.sqDist, Finset.sum_mul, Finset.sum_mul]
  refine Finset.sum_congr rfl fun k _ => ?_
  rw [Vector.get_zipWith]
  field_simp
  ring

/-- To join the left cluster again costs what it cost to leave it. -/
theorem joiningCost_transfer_self :
    (s.transfer data i a b).joiningCost data i a = s.leavingCost data i := by
  obtain rfl := hm.own
  have ha : (s.sizes.get (s.first.get i) : ℝ) ≠ 0 := Nat.cast_ne_zero.2 (h.occupied _)
  have hless : (s.sizes.get (s.first.get i) : ℝ) - 1 ≠ 0 :=
    sub_ne_zero.2 (by exact_mod_cast hm.others)
  rw [joiningCost, distance_eq, transfer_centres_left hm, transfer_join_left hm, leavingCost,
    distance_eq, h.leave, leaveFactor_of_ne_one (h.occupied _) hm.others, Point.sqDist,
    Point.sqDist, Finset.sum_mul, Finset.sum_mul]
  refine Finset.sum_congr rfl fun k _ => ?_
  rw [Vector.get_zipWith]
  field_simp
  ring

end Transfer

/-! ## The best target -/

section BestTarget

variable {data : Samples ℝ n d} {s : Transfers ℝ n K d}

/-- A cluster that a sample is compared with at a step of the optimal stage, because its own cluster or
that one is still live. -/
def Considered (s : Transfers ℝ n K d) (step : ℤ) (i : Fin n) (l : Fin K) : Prop :=
  l ≠ s.first.get i ∧ ¬ (s.live.get (s.first.get i) ≤ step ∧ s.live.get l ≤ step)

/-- A cluster other than that of the sample, with the cost of joining it, which is not above that of
joining the second cluster. -/
structure Target.Valid (data : Samples ℝ n d) (s : Transfers ℝ n K d) (i : Fin n) (t : Target ℝ K) :
    Prop where
  ne : t.cluster ≠ s.first.get i
  cost : t.cost = s.joiningCost data i t.cluster
  second : t.cost ≤ s.joiningCost data i (s.second.get i)

theorem consider_spec (hd : 0 < d) (h : s.Coherent data) (step : ℤ) (i : Fin n) {t : Target ℝ K}
    (ht : t.Valid data s i) (l : Fin K) :
    (Target.consider s data step i t l).Valid data s i ∧
      (s.Considered step i l →
        (Target.consider s data step i t l).cost ≤ s.joiningCost data i l) ∧
      (Target.consider s data step i t l).cost ≤ t.cost := by
  unfold Target.consider
  by_cases hskip : (s.live.get (s.first.get i) ≤ step ∧ s.live.get l ≤ step) ∨
      l = s.first.get i ∨ l = s.second.get i
  · simp only [if_pos hskip]
    refine ⟨ht, ?_, le_rfl⟩
    rintro ⟨hown, hlive⟩
    rcases hskip with hskip | hskip | hskip
    · exact absurd hskip hlive
    · exact absurd hskip hown
    · exact hskip ▸ ht.second
  · simp only [if_neg hskip]
    push Not at hskip
    have hjoin := h.join_pos l
    have hcost : s.joiningCost data i l =
        (data.point i).sqDist (s.centres.get l) * s.join.get l := by rw [joiningCost, distance_eq]
    cases hb : distanceBelow (data.point i) (s.centres.get l) (t.cost / s.join.get l) with
    | none =>
      have := (div_le_iff₀ hjoin).1 (distanceBelow_eq_none hd hb)
      exact ⟨ht, fun _ => hcost ▸ this, le_rfl⟩
    | some v =>
      obtain ⟨rfl, hlt⟩ := (distanceBelow_eq_some hd).1 hb
      have := ((lt_div_iff₀ hjoin).1 hlt).le
      exact ⟨⟨hskip.2.1, hcost.symm, this.trans ht.second⟩, fun _ => hcost.ge, this⟩

/-- The best target is no dearer than any cluster that comes into question. -/
theorem bestTarget_spec (hd : 0 < d) (h : s.Coherent data) (step : ℤ) (i : Fin n) :
    (s.bestTarget data step i).Valid data s i ∧
      ∀ l, s.Considered step i l → (s.bestTarget data step i).cost ≤ s.joiningCost data i l := by
  obtain ⟨hv, hmem, -⟩ := foldl_list_invariant (fun t : Target ℝ K => t.Valid data s i)
    (fun l t => s.Considered step i l → t.cost ≤ s.joiningCost data i l)
    (fun t l ht => by
      obtain ⟨hv, hle, hkeep⟩ := consider_spec hd h step i ht l
      exact ⟨hv, hle, fun m hm hc => hkeep.trans (hm hc)⟩)
    (List.finRange K) ⟨s.second.get i, s.joiningCost data i (s.second.get i)⟩
    ⟨h.second i, rfl, le_rfl⟩
  exact ⟨hv, fun l => hmem l (List.mem_finRange l)⟩

end BestTarget

/-! ## Fresh costs and samples that are content -/

section Content

variable {data : Samples ℝ n d} {s : Transfers ℝ n K d} {i : Fin n} {a b : Fin K}

/-- The stored cost of leaving is that of the state, for a sample that shares its cluster. -/
def Fresh (s : Transfers ℝ n K d) (data : Samples ℝ n d) (i : Fin n) : Prop :=
  s.sizes.get (s.first.get i) ≠ 1 → s.removal.get i = s.leavingCost data i

/-- A sample that shares its cluster has no gain from cluster `l`. -/
def Content (s : Transfers ℝ n K d) (data : Samples ℝ n d) (i : Fin n) (l : Fin K) : Prop :=
  s.sizes.get (s.first.get i) ≠ 1 → s.leavingCost data i ≤ s.joiningCost data i l

theorem fresh_transfer {j : Fin n} (hj : j ≠ i) (ha : s.first.get j ≠ a) (hb : s.first.get j ≠ b)
    (h : s.Fresh data j) : (s.transfer data i a b).Fresh data j := by
  unfold Fresh
  rw [leavingCost_transfer hj ha hb, transfer_first_other hj, transfer_sizes_other ha hb]
  exact h

theorem content_transfer {j : Fin n} {l : Fin K} (hj : j ≠ i) (ha : s.first.get j ≠ a)
    (hb : s.first.get j ≠ b) (hla : l ≠ a) (hlb : l ≠ b) (h : s.Content data j l) :
    (s.transfer data i a b).Content data j l := by
  unfold Content
  rw [leavingCost_transfer hj ha hb, transfer_first_other hj, transfer_sizes_other ha hb,
    joiningCost_transfer hla hlb]
  exact h

/-- A sample that moved to a cheapest cluster is content afterwards. -/
theorem content_transfer_self (hm : s.Moves i a b) (h : s.Coherent data) {l : Fin K} (hlb : l ≠ b)
    (hgain : s.joiningCost data i b < s.leavingCost data i)
    (hl : l ≠ a → s.joiningCost data i b ≤ s.joiningCost data i l) :
    (s.transfer data i a b).Content data i l := by
  intro _
  rw [leavingCost_transfer_self hm h]
  by_cases hla : l = a
  · rw [hla, joiningCost_transfer_self hm h]
    exact hgain.le
  · rw [joiningCost_transfer hla hlb]
    exact hl hla

end Content

/-! ## Steps -/

section Steps

variable {data : Samples ℝ n d} {s : Transfers ℝ n K d}

/-- The costs of leaving that an optimal step compares with. -/
def optimalRemoval (s : Transfers ℝ n K d) (data : Samples ℝ n d) (i : Fin n) : Vector ℝ n :=
  if s.changed.get (s.first.get i) = 0 then s.removal else s.removal.put i (s.leavingCost data i)

/-- The costs of leaving that a quick step compares with. -/
def quickRemoval (s : Transfers ℝ n K d) (data : Samples ℝ n d) (step : ℤ) (i : Fin n) :
    Vector ℝ n :=
  if step ≤ s.changed.get (s.first.get i) then s.removal.put i (s.leavingCost data i) else s.removal

theorem refreshOptimal_eq (i : Fin n) :
    s.refreshOptimal data i = { s with removal := s.optimalRemoval data i } := by
  unfold refreshOptimal optimalRemoval
  split <;> rfl

theorem refreshQuick_eq (step : ℤ) (i : Fin n) :
    s.refreshQuick data step i = { s with removal := s.quickRemoval data step i } := by
  unfold refreshQuick quickRemoval
  split <;> rfl

theorem optimalRemoval_other {i j : Fin n} (hj : j ≠ i) :
    (s.optimalRemoval data i).get j = s.removal.get j := by
  unfold optimalRemoval
  split
  · rfl
  · exact Vector.get_put_of_ne _ _ hj.symm

theorem quickRemoval_other {step : ℤ} {i j : Fin n} (hj : j ≠ i) :
    (s.quickRemoval data step i).get j = s.removal.get j := by
  unfold quickRemoval
  split
  · exact Vector.get_put_of_ne _ _ hj.symm
  · rfl

/-- The state in which an optimal step compares costs. -/
def comparedOptimal (s : Transfers ℝ n K d) (data : Samples ℝ n d) (i : Fin n) :
    Transfers ℝ n K d :=
  { s with quiet := s.quiet + 1, removal := s.optimalRemoval data i }

/-- The state in which a quick step compares costs. -/
def comparedQuick (s : Transfers ℝ n K d) (data : Samples ℝ n d) (step : ℤ) (i : Fin n) :
    Transfers ℝ n K d :=
  { s with removal := s.quickRemoval data step i }

/-- A step leaves clusters and centres as they are, or moves its sample and lowers the scatter of all
clusters. -/
def Improves (data : Samples ℝ n d) (i : Fin n) (s s' : Transfers ℝ n K d) : Prop :=
  (s'.first = s.first ∧ s'.centres = s.centres) ∨
    ∃ b, b ≠ s.first.get i ∧ s'.first = s.first.put i b ∧
      within data.point s'.first < within data.point s.first

/-- All that an optimal step can do: nothing to the only member of a cluster, to choose a second
cluster for a sample that has no gain from the clusters in question, or to move the sample to the one
of them that is cheapest to join. -/
theorem optimalStep_cases (hd : 0 < d) (h : s.Coherent data) (i : Fin n) :
    let step : ℤ := i.val + 1
    let r := s.comparedOptimal data i
    (s.sizes.get (s.first.get i) = 1 ∧ optimalStep data s i = { s with quiet := s.quiet + 1 }) ∨
    (s.sizes.get (s.first.get i) ≠ 1 ∧ ∃ b, b ≠ s.first.get i ∧
      (∀ l, s.Considered step i l → r.removal.get i ≤ s.joiningCost data i l) ∧
      optimalStep data s i = { r with second := r.second.put i b }) ∨
    ∃ b, s.Moves i (s.first.get i) b ∧ s.joiningCost data i b < r.removal.get i ∧
      (∀ l, s.Considered step i l → s.joiningCost data i b ≤ s.joiningCost data i l) ∧
      optimalStep data s i =
        (r.markOptimal step (s.first.get i) b).transfer data i (s.first.get i) b := by
  intro step r
  obtain ⟨hv, hle⟩ := bestTarget_spec (s := r) hd h.counters step i
  by_cases hone : s.sizes.get (s.first.get i) = 1
  · refine Or.inl ⟨hone, ?_⟩
    rw [optimalStep]
    exact if_pos hone
  · have hstep : optimalStep data s i =
        if r.removal.get i ≤ (r.bestTarget data step i).cost then
          { r with second := r.second.put i (r.bestTarget data step i).cluster }
        else (r.markOptimal step (s.first.get i) (r.bestTarget data step i).cluster).transfer data i
          (s.first.get i) (r.bestTarget data step i).cluster := by
      rw [optimalStep]
      simp only [if_neg hone, refreshOptimal_eq]
      rfl
    refine Or.inr ?_
    by_cases hstay : r.removal.get i ≤ (r.bestTarget data step i).cost
    · rw [if_pos hstay] at hstep
      exact Or.inl ⟨hone, _, hv.ne, fun l hl => hstay.trans (hle l hl), hstep⟩
    · rw [if_neg hstay] at hstep
      have hcost := hv.cost
      refine Or.inr ⟨_, ⟨rfl, hv.ne, hone⟩, ?_, fun l hl => ?_, hstep⟩
      · exact hcost ▸ not_le.1 hstay
      · exact hcost ▸ hle l hl

/-- All that a quick step can do: nothing to the only member of a cluster, nothing to a sample that has
no gain from its second cluster or whose clusters have not changed since its last visit, or to move
the sample to its second cluster. -/
theorem quickStep_cases (hd : 0 < d) (h : s.Coherent data) (step : ℤ) (i : Fin n) :
    let a := s.first.get i
    let b := s.second.get i
    let r := s.comparedQuick data step i
    (s.sizes.get a = 1 ∧ quickStep data s step i = (s, false)) ∨
    (s.sizes.get a ≠ 1 ∧
      (step < s.changed.get a ∨ step < s.changed.get b →
        r.removal.get i ≤ s.joiningCost data i b) ∧
      quickStep data s step i = (r, false)) ∨
    s.Moves i a b ∧ s.joiningCost data i b < r.removal.get i ∧
      quickStep data s step i = ((r.markQuick step a b).transfer data i a b, true) := by
  intro a b r
  by_cases hone : s.sizes.get a = 1
  · refine Or.inl ⟨hone, ?_⟩
    rw [quickStep]
    exact if_pos hone
  · refine Or.inr ?_
    have hstep : quickStep data s step i =
        if (decide (step < s.changed.get a) || decide (step < s.changed.get b)) &&
          (distanceBelow (data.point i) (s.centres.get b) (r.removal.get i / s.join.get b)).isSome then
          ((r.markQuick step a b).transfer data i a b, true)
        else (r, false) := by
      rw [quickStep]
      simp only [refreshQuick_eq]
      exact if_neg hone
    have hgain : (distanceBelow (data.point i) (s.centres.get b)
        (r.removal.get i / s.join.get b)).isSome ↔ s.joiningCost data i b < r.removal.get i := by
      rw [distanceBelow_isSome hd, lt_div_iff₀ (h.join_pos b), joiningCost, distance_eq]
    by_cases hmove : (step < s.changed.get a ∨ step < s.changed.get b) ∧
        s.joiningCost data i b < r.removal.get i
    · refine Or.inr ⟨⟨rfl, h.second i, hone⟩, hmove.2, hstep.trans (if_pos ?_)⟩
      simpa [hgain] using hmove
    · refine Or.inl ⟨hone, fun hrecent => ?_, hstep.trans (if_neg ?_)⟩
      · exact not_lt.1 fun hlt => hmove ⟨hrecent, hlt⟩
      · simpa [hgain] using hmove

end Steps

end

end Proximity.Transfers
