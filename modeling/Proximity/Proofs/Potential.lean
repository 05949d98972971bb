import Proximity.Proofs.Clusters

/-!
# A potential of labellings

The scatter of the clusters, and the sum of the labels where two labellings have the same scatter.
Samples that go to nearer centroids lower the scatter; samples that go to equally near ones with a
smaller label lower the sum. A method that does nothing else never comes back to a labelling.

1. `scatter_le`: no point has smaller squared distances to the samples of a set than the centroid.
2. `potential` and `relabelled_lowers`: all samples go to nearest centroids at once.
3. `put_lowers`: one sample goes to a nearest centroid.
4. `eq_or_potential_lt`: what a sequence of such steps has passed.
-/

namespace Proximity

noncomputable section

variable {n K d : ℕ} {point : Fin n → Point ℝ d}

/-! ## The centroid is the best centre -/

theorem scatter_le (S : Finset (Fin n)) (c : Point ℝ d) :
    scatter point S ≤ ∑ i ∈ S, (point i).sqDist c := by
  rw [scatter_eq]
  unfold Point.sqDist
  rw [Finset.sum_comm]
  apply Finset.sum_le_sum
  intro k _
  set s := ∑ i ∈ S, (point i).get k with hs
  have expand : ∑ i ∈ S, ((point i).get k - c.get k) ^ 2 =
      ∑ i ∈ S, (point i).get k ^ 2 - 2 * c.get k * s + S.card * c.get k ^ 2 := by
    simp only [sub_sq, Finset.sum_add_distrib, Finset.sum_sub_distrib, Finset.sum_const,
      nsmul_eq_mul, hs, Finset.mul_sum]
    congr 2
    exact Finset.sum_congr rfl fun i _ => by ring
  rw [expand]
  rcases S.eq_empty_or_nonempty with rfl | hS
  · simp [hs]
  · have hcard : (0 : ℝ) < S.card := Nat.cast_pos.2 hS.card_pos
    have square : 0 ≤ S.card * (s / S.card - c.get k) ^ 2 := by positivity
    have : S.card * (s / S.card - c.get k) ^ 2 =
        s ^ 2 / S.card - 2 * c.get k * s + S.card * c.get k ^ 2 := by
      field_simp
      ring
    linarith

theorem within_le_sum (labels : Vector (Fin K) n) (centres : Matrix ℝ K d) :
    within point labels ≤ ∑ i, (point i).sqDist (centres.get (labels.get i)) := by
  rw [← Finset.sum_fiberwise (s := Finset.univ) (g := labels.get)]
  apply Finset.sum_le_sum
  intro l _
  calc scatter point (members labels l)
      ≤ ∑ i ∈ members labels l, (point i).sqDist (centres.get l) := scatter_le _ _
    _ = ∑ i ∈ members labels l, (point i).sqDist (centres.get (labels.get i)) :=
      Finset.sum_congr rfl fun i hi => by rw [mem_members.1 hi]

/-- The centres are the centroids of the clusters. -/
def Centred (point : Fin n → Point ℝ d) (labels : Vector (Fin K) n) (centres : Matrix ℝ K d) : Prop :=
  ∀ l, centres.get l = centroid point (members labels l)

theorem Centred.within_eq {labels : Vector (Fin K) n} {centres : Matrix ℝ K d}
    (h : Centred point labels centres) :
    within point labels = ∑ i, (point i).sqDist (centres.get (labels.get i)) := by
  rw [within_eq_sum]
  exact Finset.sum_congr rfl fun i _ => by rw [h]

theorem Centred.unique {labels : Vector (Fin K) n} {centres centres' : Matrix ℝ K d}
    (h : Centred point labels centres) (h' : Centred point labels centres') : centres = centres' :=
  Vector.ext_get fun l => (h l).trans (h' l).symm

/-! ## The potential -/

def labelSum (labels : Vector (Fin K) n) : ℕ := ∑ i, (labels.get i).val

/-- The scatter of the clusters first, and then the sum of the labels. -/
def potential (point : Fin n → Point ℝ d) (labels : Vector (Fin K) n) : ℝ ×ₗ ℕ :=
  toLex (within point labels, labelSum labels)

theorem potential_lt_iff {labels labels' : Vector (Fin K) n} :
    potential point labels' < potential point labels ↔
      within point labels' < within point labels ∨
        within point labels' = within point labels ∧ labelSum labels' < labelSum labels :=
  Prod.Lex.toLex_lt_toLex

theorem labelSum_lt {labels labels' : Vector (Fin K) n} (h : ∀ i, labels'.get i ≤ labels.get i)
    (hne : labels' ≠ labels) : labelSum labels' < labelSum labels := by
  have : ∃ i, labels'.get i ≠ labels.get i := by
    by_contra hall
    push Not at hall
    exact hne (Vector.ext_get hall)
  obtain ⟨i, hi⟩ := this
  exact Finset.sum_lt_sum (fun j _ => Fin.le_def.1 (h j))
    ⟨i, Finset.mem_univ i, Fin.lt_def.1 (lt_of_le_of_ne (h i) hi)⟩

/-- Labels of nearest centroids lower the potential, where a sample whose own centroid is one of them
takes none of larger index. -/
theorem relabelled_lowers {labels labels' : Vector (Fin K) n} {centres : Matrix ℝ K d}
    (hcentres : Centred point labels centres)
    (hnearest : ∀ i, Nearest (point i) centres (labels'.get i))
    (htie : ∀ i, Nearest (point i) centres (labels.get i) → labels'.get i ≤ labels.get i) :
    labels' = labels ∨ potential point labels' < potential point labels := by
  have nearer (i : Fin n) : (point i).sqDist (centres.get (labels'.get i)) ≤
      (point i).sqDist (centres.get (labels.get i)) := Point.dist_le_iff.1 (hnearest i _)
  have hle : within point labels' ≤ ∑ i, (point i).sqDist (centres.get (labels'.get i)) :=
    within_le_sum labels' centres
  have hsum := Finset.sum_le_sum fun i (_ : i ∈ Finset.univ) => nearer i
  rcases (hle.trans (hsum.trans_eq hcentres.within_eq.symm)).lt_or_eq with hlt | heq
  · exact Or.inr (potential_lt_iff.2 (Or.inl hlt))
  · -- no sample has gained, so that each one's own centroid was among the nearest
    have hall : ∑ i, (point i).sqDist (centres.get (labels'.get i)) =
        ∑ i, (point i).sqDist (centres.get (labels.get i)) :=
      le_antisymm hsum (hcentres.within_eq ▸ heq ▸ hle)
    have hequal := (Finset.sum_eq_sum_iff_of_le fun i (_ : i ∈ Finset.univ) => nearer i).1 hall
    have hdown (i : Fin n) : labels'.get i ≤ labels.get i := by
      apply htie i
      intro j
      have := hnearest i j
      rw [Point.dist_le_iff] at this ⊢
      rwa [← hequal i (Finset.mem_univ i)]
    by_cases hne : labels' = labels
    · exact Or.inl hne
    · exact Or.inr (potential_lt_iff.2 (Or.inr ⟨heq, labelSum_lt hdown hne⟩))

/-! ## One sample -/

section Put

variable {labels : Vector (Fin K) n} {i : Fin n} {b : Fin K}

theorem labelSum_put_lt (h : b < labels.get i) : labelSum (labels.put i b) < labelSum labels := by
  apply labelSum_lt
  · intro j
    rw [Vector.get_put]
    split
    next hj => exact hj ▸ h.le
    next => exact le_rfl
  · intro heq
    have := congrArg (·.get i) heq
    rw [Vector.get_put_self] at this
    exact h.ne this

/-- A sample that goes to a centroid that is no farther than its own does not raise the scatter, and
lowers it unless it lies on its own centroid. -/
theorem within_put_le (h : labels.get i ≠ b)
    (hb : (point i).sqDist (centroid point (members labels b)) ≤
      (point i).sqDist (centroid point (members labels (labels.get i)))) :
    within point (labels.put i b) < within point labels ∨
      within point (labels.put i b) = within point labels ∧
        (point i).sqDist (centroid point (members labels (labels.get i))) = 0 := by
  have hi : i ∈ members labels (labels.get i) := mem_members.2 rfl
  have hjoin : ((members labels b).card : ℝ) / ((members labels b).card + 1) ≤ 1 := by
    rw [div_le_one (by positivity)]
    linarith
  set Da := (point i).sqDist (centroid point (members labels (labels.get i))) with hDa
  set Db := (point i).sqDist (centroid point (members labels b)) with hDb
  have hDb0 : 0 ≤ Db := Point.sqDist_nonneg _ _
  by_cases hone : (members labels (labels.get i)).card = 1
  · -- the sample is its cluster's centroid, and so lies on that of the other cluster as well
    obtain ⟨j, hj⟩ := Finset.card_eq_one.1 hone
    obtain rfl : i = j := Finset.mem_singleton.1 (hj ▸ hi)
    have hDa0 : Da = 0 := by rw [hDa, hj, centroid_singleton, Point.sqDist_self]
    have hDb0 : Db = 0 := le_antisymm (hDa0 ▸ hb) hDb0
    refine Or.inr ⟨?_, hDa0⟩
    rw [within_put_eq h, hj, Finset.erase_singleton, scatter_insert (fun hb => h (mem_members.1 hb)),
      ← hDb, hDb0]
    simp [scatter, centroid_singleton]
  · have hcard : (2 : ℝ) ≤ (members labels (labels.get i)).card := by
      have := Finset.card_pos.2 ⟨i, hi⟩
      exact_mod_cast (by omega : 2 ≤ (members labels (labels.get i)).card)
    have hleave : 1 < ((members labels (labels.get i)).card : ℝ) /
        ((members labels (labels.get i)).card - 1) := by
      rw [one_lt_div (by linarith)]
      linarith
    have hput : within point (labels.put i b) = _ := within_put h hone
    rw [← hDa, ← hDb] at hput
    have hgain : Db * ((members labels b).card / ((members labels b).card + 1)) ≤ Da :=
      (mul_le_of_le_one_right hDb0 hjoin).trans hb
    rcases (hDb0.trans hb).lt_or_eq with hpos | hzero
    · have := lt_mul_of_one_lt_right hpos hleave
      exact Or.inl (by linarith)
    · obtain hDb0 : Db = 0 := le_antisymm (hb.trans hzero.symm.le) hDb0
      refine Or.inr ⟨?_, hzero.symm⟩
      rw [hput, hDb0, ← hzero]
      ring

/-- A sample that goes to the first of the nearest centroids lowers the potential. -/
theorem put_lowers {centres : Matrix ℝ K d} (hcentres : Centred point labels centres)
    (hb : FirstNearest (point i) centres b) (h : labels.get i ≠ b) :
    potential point (labels.put i b) < potential point labels := by
  have hle := Point.dist_le_iff.1 (hb.nearest (labels.get i))
  have hmove : within point (labels.put i b) < within point labels ∨ _ :=
    within_put_le h (by rwa [hcentres, hcentres] at hle)
  rw [potential_lt_iff]
  rcases hmove with hlt | ⟨heq, hzero⟩
  · exact Or.inl hlt
  · refine Or.inr ⟨heq, labelSum_put_lt (lt_of_le_of_ne ?_ h.symm)⟩
    apply hb.first
    intro j
    rw [Point.dist_le_iff, hcentres, hzero]
    exact Point.sqDist_nonneg _ _

end Put

/-! ## Sequences of labellings -/

section Sequence

variable {f : ℕ → Vector (Fin K) n}

theorem eq_or_potential_lt {t u : ℕ} (htu : t ≤ u)
    (h : ∀ v, t ≤ v → v < u → f (v + 1) = f v ∨ potential point (f (v + 1)) < potential point (f v)) :
    f u = f t ∨ potential point (f u) < potential point (f t) := by
  induction u, htu using Nat.le_induction with
  | base => exact Or.inl rfl
  | succ u htu ih =>
    have before := ih fun v hv hvu => h v hv (Nat.lt_succ_of_lt hvu)
    rcases h u htu (Nat.lt_succ_self u) with heq | hlt
    · rwa [heq]
    · rcases before with heq | hlt'
      · exact Or.inr (heq ▸ hlt)
      · exact Or.inr (hlt.trans hlt')

/-- A labelling that has been left is not met again. -/
theorem eq_of_met_again {t u v : ℕ} (htu : t ≤ u) (huv : u ≤ v)
    (h : ∀ w, t ≤ w → f (w + 1) = f w ∨ potential point (f (w + 1)) < potential point (f w))
    (hmet : f v = f t) : f u = f t := by
  rcases eq_or_potential_lt htu fun w hw _ => h w hw with heq | hlt
  · exact heq
  · rcases eq_or_potential_lt huv fun w hw _ => h w (htu.trans hw) with heq | hlt'
    · exact heq.symm.trans hmet
    · rw [hmet] at hlt'
      exact absurd hlt hlt'.asymm

/-- There are no more steps that change the labelling one after another than there are labellings. -/
theorem steps_lt_labellings {t u : ℕ}
    (h : ∀ v, t ≤ v → v < u → potential point (f (v + 1)) < potential point (f v)) :
    u - t < K ^ n := by
  have anti {v w : ℕ} (htv : t ≤ v) (hvw : v < w) (hwu : w ≤ u) :
      potential point (f w) < potential point (f v) := by
    induction w, hvw using Nat.le_induction with
    | base => exact h v htv (by omega)
    | succ w hvw ih => exact (h w (by omega) (by omega)).trans (ih (by omega))
  have hinj : Function.Injective fun v : Fin (u - t + 1) => (f (t + v)).get := by
    intro v w hvw
    have := v.isLt
    have := w.isLt
    have heq : f (t + v) = f (t + w) := Vector.ext_get (congrFun hvw)
    rcases lt_trichotomy v.val w.val with hlt | heq' | hlt
    · exact absurd (congrArg (potential point) heq) (anti (by omega) (by omega) (by omega)).ne'
    · exact Fin.ext heq'
    · exact absurd (congrArg (potential point) heq) (anti (by omega) (by omega) (by omega)).ne
  have hcard := Fintype.card_le_of_injective _ hinj
  rw [Fintype.card_fun, Fintype.card_fin, Fintype.card_fin, Fintype.card_fin] at hcard
  exact hcard

end Sequence

end

end Proximity
