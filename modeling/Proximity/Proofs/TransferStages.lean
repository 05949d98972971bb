import Proximity.Proofs.TransferSteps

/-!
# The two stages of the transfers

The counters of a stage say what a visit to a sample can rely on. A sample is visited at a step, and
later changes of clusters are marked with later steps; so marks up to that of its last visit mean that
nothing has happened to it since.

1. `OptimalInv`, after some steps of an optimal stage: costs of leaving that are not recomputed are
   fresh, and samples are content with clusters that neither they nor their own cluster are live for.
2. `QuickInv`, after some steps of a quick stage: the same for the next visit to each sample and its
   second cluster. `Carried` is what the stage keeps for the optimal stage that follows.
3. `OptimalInv.step` and `QuickInv.step`: every step keeps them.
-/

namespace Proximity.Transfers

noncomputable section

variable {n K d : ℕ}

/-- A cluster is marked by a transfer, or keeps its mark. -/
theorem get_mark {β : Type} (v : Vector β K) (a b l : Fin K) (x : β) :
    ((l = a ∨ l = b) ∧ ((v.put a x).put b x).get l = x) ∨
      (l ≠ a ∧ l ≠ b ∧ ((v.put a x).put b x).get l = v.get l) := by
  rw [Vector.get_put, Vector.get_put]
  by_cases hb : b = l
  · exact Or.inl ⟨Or.inr hb.symm, if_pos hb⟩
  · rw [if_neg hb]
    by_cases ha : a = l
    · exact Or.inl ⟨Or.inl ha.symm, if_pos ha⟩
    · exact Or.inr ⟨Ne.symm ha, Ne.symm hb, if_neg ha⟩

/-! ## The optimal stage -/

/-- A cluster whose mark is below that of a transfer has no part in it. -/
theorem of_mark_le {v : Vector ℤ K} {a b l : Fin K} {x bound : ℤ} (hx : bound < x)
    (h : ((v.put a x).put b x).get l ≤ bound) : l ≠ a ∧ l ≠ b ∧ v.get l ≤ bound := by
  obtain ⟨-, hl⟩ | ⟨ha, hb, hl⟩ := get_mark v a b l x
  · omega
  · exact ⟨ha, hb, hl ▸ h⟩

/-- The step of the last visit to a sample, with `p` steps of a stage done; for a sample that the stage
has not come to it is that of the stage before, in which steps count `n` less. -/
def lastVisit (p : ℕ) (j : Fin n) : ℤ := if j.val < p then n + (j.val + 1) else j.val + 1

theorem lastVisit_self (i : Fin n) : lastVisit (n := n) i.val i = i.val + 1 := by
  unfold lastVisit
  rw [if_neg (lt_irrefl _)]

theorem lastVisit_succ_other {i j : Fin n} (hj : j ≠ i) :
    lastVisit (n := n) (i.val + 1) j = lastVisit i.val j := by
  have : j.val ≠ i.val := Fin.val_ne_of_ne hj
  unfold lastVisit
  split_ifs <;> omega

theorem lastVisit_lt {i j : Fin n} (hj : j ≠ i) : lastVisit (n := n) i.val j < n + (i.val + 1) := by
  have : j.val ≠ i.val := Fin.val_ne_of_ne hj
  unfold lastVisit
  split_ifs <;> omega

/-- The next visit to a sample after one of `n` steps on is the same visit, unless it was the one just
made. -/
theorem next_visit {done u : ℕ} {i j : Fin n} (hi : done % n = i.val) (hu : done + 1 ≤ u)
    (hlt : u < done + 1 + n) (hj : u % n = j.val) :
    (j = i ∧ u = done + n) ∨ (j ≠ i ∧ u < done + n) := by
  by_cases hji : j = i
  · refine Or.inl ⟨hji, ?_⟩
    have hdvd : n ∣ u - done := (Nat.modEq_iff_dvd' (by omega)).1 (by rw [Nat.ModEq, hi, hj, hji])
    have := Nat.le_of_dvd (by omega) hdvd
    omega
  · refine Or.inr ⟨hji, ?_⟩
    by_contra hge
    obtain rfl : u = done + n := by omega
    rw [Nat.add_mod_right, hi] at hj
    exact hji (Fin.ext hj.symm)

/-- Every sample is visited in `n` steps. -/
theorem exists_visit (done : ℕ) (j : Fin n) : ∃ u, done ≤ u ∧ u < done + n ∧ u % n = j.val := by
  have hj := j.isLt
  have hdone := Nat.div_add_mod done n
  have hmod := Nat.mod_lt done j.pos
  by_cases hle : done % n ≤ j.val
  · refine ⟨n * (done / n) + j.val, by omega, by omega, ?_⟩
    rw [Nat.mul_add_mod, Nat.mod_eq_of_lt hj]
  · refine ⟨n * (done / n + 1) + j.val, ?_, ?_, ?_⟩
    · rw [Nat.mul_add, Nat.mul_one]
      omega
    · rw [Nat.mul_add, Nat.mul_one]
      omega
    · rw [Nat.mul_add_mod, Nat.mod_eq_of_lt hj]

variable [RealFormat] {data : Samples ℝ n d} {s : Transfers ℝ n K d}

/-- What holds with `p` steps of an optimal stage done. Live steps are those of the clusters' last
changes plus `n`. -/
structure OptimalInv (data : Samples ℝ n d) (p : ℕ) (s : Transfers ℝ n K d) : Prop where
  coherent : s.Coherent data
  changed_le : ∀ l, s.changed.get l ≤ p
  /-- The own cluster has not changed in this stage, or not since a visit in this stage. -/
  fresh : ∀ j : Fin n, s.changed.get (s.first.get j) = 0 ∨
    (s.changed.get (s.first.get j) ≤ j.val ∧ j.val < p) → s.Fresh data j
  /-- Neither cluster has changed since the last visit. -/
  content : ∀ j l, l ≠ s.first.get j → s.live.get (s.first.get j) ≤ lastVisit p j →
    s.live.get l ≤ lastVisit p j → s.Content data j l
  /-- Clusters changed before the quiet steps, and those of the last quick stage before the first. -/
  quiet : ∀ l, s.live.get l + s.quiet ≤ n + p + 1
  live_le : ∀ l, s.live.get l ≤ n + max (s.changed.get l) 1

namespace OptimalInv

variable {i : Fin n} (h : OptimalInv data i.val s)
include h

/-- The cost of leaving that a step compares with is fresh. -/
theorem removal_eq (hi : s.sizes.get (s.first.get i) ≠ 1) :
    (s.optimalRemoval data i).get i = s.leavingCost data i := by
  unfold optimalRemoval
  split
  next hzero => exact h.fresh i (Or.inl hzero) hi
  next => exact Vector.get_put_self _ _ _

/-- A sample has no gain from clusters that do not come into question. -/
theorem content_of_not_considered (hi : s.sizes.get (s.first.get i) ≠ 1) {l : Fin K}
    (hl : l ≠ s.first.get i) (hc : ¬ s.Considered (i.val + 1) i l) :
    s.leavingCost data i ≤ s.joiningCost data i l := by
  have hlive : s.live.get (s.first.get i) ≤ i.val + 1 ∧ s.live.get l ≤ i.val + 1 := by
    by_contra hlive
    exact hc ⟨hl, hlive⟩
  refine h.content i l hl ?_ ?_ hi
  · rw [lastVisit_self]
    exact hlive.1
  · rw [lastVisit_self]
    exact hlive.2

/-- The only member of a cluster is passed over. -/
theorem alone (hi : s.sizes.get (s.first.get i) = 1) :
    OptimalInv data (i.val + 1) { s with quiet := s.quiet + 1 } where
  coherent := h.coherent.counters
  changed_le l := by
    have := h.changed_le l
    show s.changed.get l ≤ _
    omega
  fresh j hj := by
    by_cases hji : j = i
    · intro hne
      exact absurd hi (hji ▸ hne)
    · refine h.fresh j (hj.imp_right fun hj => ⟨hj.1, ?_⟩)
      have : j.val ≠ i.val := Fin.val_ne_of_ne hji
      omega
  content j l hl h1 h2 := by
    by_cases hji : j = i
    · intro hne
      exact absurd hi (hji ▸ hne)
    · rw [lastVisit_succ_other hji] at h1 h2
      exact h.content j l hl h1 h2
  quiet l := by
    have := h.quiet l
    show s.live.get l + (s.quiet + 1 : ℕ) ≤ _
    omega
  live_le := h.live_le

/-- A sample that has no gain stays. -/
theorem stays (hi : s.sizes.get (s.first.get i) ≠ 1) {b : Fin K} (hb : b ≠ s.first.get i)
    (hle : ∀ l, s.Considered (i.val + 1) i l →
      (s.comparedOptimal data i).removal.get i ≤ s.joiningCost data i l) :
    OptimalInv data (i.val + 1)
      { s.comparedOptimal data i with second := (s.comparedOptimal data i).second.put i b } where
  coherent := by
    refine ⟨h.coherent.centres, h.coherent.sizes, h.coherent.occupied, h.coherent.leave,
      h.coherent.join, fun j => ?_⟩
    show (s.second.put i b).get j ≠ s.first.get j
    rw [Vector.get_put]
    split
    next hij => exact hij ▸ hb
    next => exact h.coherent.second j
  changed_le l := by
    have := h.changed_le l
    show s.changed.get l ≤ _
    omega
  fresh j hj := by
    intro hne
    by_cases hji : j = i
    · rw [hji]
      exact h.removal_eq hi
    · have hlt : j.val ≠ i.val := Fin.val_ne_of_ne hji
      refine (optimalRemoval_other hji).trans (h.fresh j (hj.imp_right fun hj => ⟨hj.1, ?_⟩) hne)
      omega
  content j l hl h1 h2 := by
    intro hne
    by_cases hji : j = i
    · subst hji
      by_cases hc : s.Considered (j.val + 1) j l
      · have := hle l hc
        rw [comparedOptimal, h.removal_eq hi] at this
        exact this
      · exact h.content_of_not_considered hi hl hc
    · rw [lastVisit_succ_other hji] at h1 h2
      exact h.content j l hl h1 h2 hne
  quiet l := by
    have := h.quiet l
    show s.live.get l + (s.quiet + 1 : ℕ) ≤ _
    omega
  live_le := h.live_le

/-- A sample moves to the cluster that is cheapest to join among those in question. -/
theorem moves {b : Fin K} (hm : s.Moves i (s.first.get i) b)
    (hgain : s.joiningCost data i b < (s.comparedOptimal data i).removal.get i)
    (hle : ∀ l, s.Considered (i.val + 1) i l → s.joiningCost data i b ≤ s.joiningCost data i l) :
    OptimalInv data (i.val + 1)
      (((s.comparedOptimal data i).markOptimal (i.val + 1) (s.first.get i) b).transfer data i
        (s.first.get i) b) := by
  rw [comparedOptimal, h.removal_eq hm.others] at hgain
  set a := s.first.get i with ha
  set q := (s.comparedOptimal data i).markOptimal (i.val + 1) a b with hq
  have hqm : q.Moves i a b := ⟨hm.own, hm.ne, hm.others⟩
  have hqc : q.Coherent data := h.coherent.counters
  have live (l : Fin K) := get_mark s.live a b l ((n : ℤ) + (i.val + 1))
  have changed (l : Fin K) := get_mark s.changed a b l ((i.val : ℤ) + 1)
  constructor
  case coherent => exact Coherent.transfer hqm hqc
  case changed_le =>
    intro l
    show ((s.changed.put a _).put b _).get l ≤ _
    have := h.changed_le l
    obtain ⟨-, hl⟩ | ⟨-, -, hl⟩ := changed l
    · omega
    · omega
  case fresh =>
    intro j hj
    by_cases hji : j = i
    · subst hji
      rw [transfer_first_self] at hj
      change ((s.changed.put a _).put b _).get b = 0 ∨
        ((s.changed.put a _).put b _).get b ≤ _ ∧ _ at hj
      rw [Vector.get_put_self] at hj
      omega
    · have hlt : j.val ≠ i.val := Fin.val_ne_of_ne hji
      rw [transfer_first_other hji] at hj
      change ((s.changed.put a _).put b _).get (s.first.get j) = 0 ∨
        ((s.changed.put a _).put b _).get (s.first.get j) ≤ _ ∧ _ at hj
      obtain ⟨-, hmark⟩ | ⟨hja, hjb, hmark⟩ := changed (s.first.get j)
      · omega
      · rw [hmark] at hj
        refine fresh_transfer hji hja hjb fun hne => ?_
        refine (optimalRemoval_other hji).trans (h.fresh j (hj.imp_right fun hj => ⟨hj.1, ?_⟩) hne)
        omega
  case content =>
    intro j l hl h1 h2
    by_cases hji : j = i
    · subst hji
      rw [transfer_first_self] at hl
      refine content_transfer_self hqm hqc hl hgain fun hla => ?_
      by_cases hc : s.Considered (j.val + 1) j l
      · exact hle l hc
      · exact hgain.le.trans (h.content_of_not_considered hm.others hla hc)
    · -- both clusters of the transfer are now live past the last visit to `j`, so neither is meant
      have hvisit := lastVisit_lt hji
      rw [transfer_first_other hji] at hl h1
      rw [lastVisit_succ_other hji] at h1 h2
      obtain ⟨hja, hjb, h1⟩ := of_mark_le hvisit h1
      obtain ⟨hla, hlb, h2⟩ := of_mark_le hvisit h2
      exact content_transfer hji hja hjb hla hlb (h.content j l hl h1 h2)
  case quiet =>
    intro l
    show ((s.live.put a _).put b _).get l + ((0 : ℕ) : ℤ) ≤ _
    have := h.quiet l
    obtain ⟨-, hl⟩ | ⟨-, -, hl⟩ := live l
    · omega
    · omega
  case live_le =>
    intro l
    show ((s.live.put a _).put b _).get l ≤ n + max (((s.changed.put a _).put b _).get l) 1
    have := h.live_le l
    obtain ⟨hl, hlive⟩ | ⟨hla, hlb, hlive⟩ := live l
    · obtain ⟨-, hchanged⟩ | ⟨hla, hlb, -⟩ := changed l
      · omega
      · exact absurd hl (not_or.2 ⟨hla, hlb⟩)
    · obtain ⟨hl, -⟩ | ⟨-, -, hchanged⟩ := changed l
      · exact absurd hl (not_or.2 ⟨hla, hlb⟩)
      · omega

/-- A step of the optimal stage. -/
theorem step (hd : 0 < d) : OptimalInv data (i.val + 1) (optimalStep data s i) ∧
    Improves data i s (optimalStep data s i) := by
  obtain ⟨hi, hstep⟩ | ⟨hi, b, hb, hle, hstep⟩ | ⟨b, hm, hgain, hle, hstep⟩ :=
    optimalStep_cases hd h.coherent i
  · rw [hstep]
    exact ⟨h.alone hi, Or.inl ⟨rfl, rfl⟩⟩
  · rw [hstep]
    exact ⟨h.stays hi hb hle, Or.inl ⟨rfl, rfl⟩⟩
  · rw [hstep]
    refine ⟨h.moves hm hgain hle, Or.inr ⟨b, hm.ne, rfl, ?_⟩⟩
    rw [comparedOptimal, h.removal_eq hm.others] at hgain
    show within data.point (s.transfer data i (s.first.get i) b).first < _
    exact transfer_within_lt hm h.coherent hgain

end OptimalInv

/-! ## The quick stage -/

/-- What stages leave for the next optimal stage: samples are content with clusters that the quick stage
has not changed and that neither they nor their own cluster are live for. -/
structure Carried (data : Samples ℝ n d) (s : Transfers ℝ n K d) : Prop where
  coherent : s.Coherent data
  content : ∀ (j : Fin n) l, l ≠ s.first.get j → s.touched.get (s.first.get j) = false →
    s.touched.get l = false → s.live.get (s.first.get j) ≤ j.val + 1 → s.live.get l ≤ j.val + 1 →
    s.Content data j l
  quiet : ∀ l, s.live.get l + s.quiet ≤ n + 1
  touched : ∀ l, s.touched.get l = true → s.quiet = 0

/-- What holds with `done` steps of a quick stage done, of which the last `still` were quiet. Visits are
numbered from zero, so that visit `u` is made in step `u + 1`. -/
structure QuickInv (data : Samples ℝ n d) (done still : ℕ) (s : Transfers ℝ n K d) : Prop where
  carried : s.Carried data
  changed_le : ∀ l, s.changed.get l + still ≤ n + done
  /-- The own cluster has not changed since the visit before `u`. -/
  fresh : ∀ (j : Fin n) u, done ≤ u → u < done + n → u % n = j.val →
    s.changed.get (s.first.get j) ≤ u → s.Fresh data j
  /-- Neither of the two clusters has changed since the visit before `u`. -/
  content : ∀ (j : Fin n) u, done ≤ u → u < done + n → u % n = j.val →
    s.changed.get (s.first.get j) ≤ u + 1 → s.changed.get (s.second.get j) ≤ u + 1 →
    s.Content data j (s.second.get j)

namespace QuickInv

variable {done still : ℕ} {i : Fin n} (h : QuickInv data done still s) (hi : done % n = i.val)
include h hi

/-- The cost of leaving that a step compares with is fresh. -/
theorem removal_eq (hone : s.sizes.get (s.first.get i) ≠ 1) :
    (s.quickRemoval data (done + 1 : ℕ) i).get i = s.leavingCost data i := by
  have hpos := i.pos
  unfold quickRemoval
  split
  next => exact Vector.get_put_self _ _ _
  next hlt =>
    refine h.fresh i done le_rfl (by omega) hi ?_ hone
    omega

/-- The only member of a cluster is passed over. -/
theorem alone (hone : s.sizes.get (s.first.get i) = 1) : QuickInv data (done + 1) (still + 1) s where
  carried := h.carried
  changed_le l := by
    have := h.changed_le l
    push_cast
    omega
  fresh j u hu hlt hj hc := by
    obtain ⟨rfl, -⟩ | ⟨-, hlt⟩ := next_visit hi hu hlt hj
    · intro hne
      exact absurd hone hne
    · exact h.fresh j u (by omega) hlt hj hc
  content j u hu hlt hj hown hother := by
    obtain ⟨rfl, -⟩ | ⟨-, hlt⟩ := next_visit hi hu hlt hj
    · intro hne
      exact absurd hone hne
    · exact h.content j u (by omega) hlt hj hown hother

/-- A sample that has no gain from its second cluster stays. -/
theorem stays (hone : s.sizes.get (s.first.get i) ≠ 1)
    (hle : ((done + 1 : ℕ) : ℤ) < s.changed.get (s.first.get i) ∨
        ((done + 1 : ℕ) : ℤ) < s.changed.get (s.second.get i) →
      (s.comparedQuick data (done + 1 : ℕ) i).removal.get i ≤
        s.joiningCost data i (s.second.get i)) :
    QuickInv data (done + 1) (still + 1) (s.comparedQuick data (done + 1 : ℕ) i) where
  carried :=
    ⟨h.carried.coherent.counters, h.carried.content, h.carried.quiet, h.carried.touched⟩
  changed_le l := by
    have := h.changed_le l
    show s.changed.get l + _ ≤ _
    push_cast
    omega
  fresh j u hu hlt hj hc := by
    intro hne
    obtain ⟨rfl, -⟩ | ⟨hji, hlt⟩ := next_visit hi hu hlt hj
    · exact h.removal_eq hi hone
    · exact (quickRemoval_other hji).trans (h.fresh j u (by omega) hlt hj hc hne)
  content j u hu hlt hj hown hother := by
    intro hne
    obtain ⟨rfl, -⟩ | ⟨hji, hlt⟩ := next_visit hi hu hlt hj
    · by_cases hrecent : ((done + 1 : ℕ) : ℤ) < s.changed.get (s.first.get j) ∨
          ((done + 1 : ℕ) : ℤ) < s.changed.get (s.second.get j)
      · have := hle hrecent
        rw [comparedQuick, h.removal_eq hi hone] at this
        exact this
      · have hpos := j.pos
        push Not at hrecent
        exact h.content j done le_rfl (by omega) hi (by omega) (by omega) hone
    · exact h.content j u (by omega) hlt hj hown hother hne

/-- A sample moves to its second cluster. -/
theorem moves (hm : s.Moves i (s.first.get i) (s.second.get i))
    (hgain : s.joiningCost data i (s.second.get i) <
      (s.comparedQuick data (done + 1 : ℕ) i).removal.get i) :
    QuickInv data (done + 1) 0
      (((s.comparedQuick data (done + 1 : ℕ) i).markQuick (done + 1 : ℕ) (s.first.get i)
        (s.second.get i)).transfer data i (s.first.get i) (s.second.get i)) := by
  rw [comparedQuick, h.removal_eq hi hm.others] at hgain
  set a := s.first.get i with ha
  set b := s.second.get i with hb
  set q := (s.comparedQuick data (done + 1 : ℕ) i).markQuick (done + 1 : ℕ) a b with hq
  have hqm : q.Moves i a b := ⟨hm.own, hm.ne, hm.others⟩
  have hqc : q.Coherent data := h.carried.coherent.counters
  have touched (l : Fin K) := get_mark s.touched a b l true
  have changed (l : Fin K) := get_mark s.changed a b l (((done + 1 : ℕ) : ℤ) + n)
  constructor
  case carried =>
    refine ⟨Coherent.transfer hqm hqc, ?_, ?_, ?_⟩
    · intro j l hl h1 h2 hlive1 hlive2
      by_cases hji : j = i
      · rw [hji, transfer_first_self] at h1
        change ((s.touched.put a true).put b true).get b = false at h1
        rw [Vector.get_put_self] at h1
        exact absurd h1 Bool.noConfusion
      · rw [transfer_first_other hji] at hl h1 hlive1
        change ((s.touched.put a true).put b true).get (s.first.get j) = false at h1
        change ((s.touched.put a true).put b true).get l = false at h2
        obtain ⟨-, hown⟩ | ⟨hja, hjb, hown⟩ := touched (s.first.get j)
        · exact absurd (hown.symm.trans h1) Bool.noConfusion
        · obtain ⟨-, hother⟩ | ⟨hla, hlb, hother⟩ := touched l
          · exact absurd (hother.symm.trans h2) Bool.noConfusion
          · rw [hown] at h1
            rw [hother] at h2
            exact content_transfer hji hja hjb hla hlb
              (h.carried.content j l hl h1 h2 hlive1 hlive2)
    · intro l
      have := h.carried.quiet l
      show s.live.get l + ((0 : ℕ) : ℤ) ≤ _
      omega
    · intro l _
      rfl
  case changed_le =>
    intro l
    have := h.changed_le l
    show ((s.changed.put a _).put b _).get l + ((0 : ℕ) : ℤ) ≤ _
    obtain ⟨-, hl⟩ | ⟨-, -, hl⟩ := changed l
    · omega
    · omega
  case fresh =>
    intro j u hu hlt hj hc
    obtain ⟨rfl, hnext⟩ | ⟨hji, hlt⟩ := next_visit hi hu hlt hj
    · rw [transfer_first_self] at hc
      change ((s.changed.put a _).put b _).get b ≤ _ at hc
      rw [Vector.get_put_self] at hc
      omega
    · rw [transfer_first_other hji] at hc
      obtain ⟨hja, hjb, hc⟩ := of_mark_le (by omega) hc
      refine fresh_transfer hji hja hjb fun hne => ?_
      exact (quickRemoval_other hji).trans (h.fresh j u (by omega) hlt hj hc hne)
  case content =>
    intro j u hu hlt hj hown hother
    obtain ⟨rfl, -⟩ | ⟨hji, hlt⟩ := next_visit hi hu hlt hj
    · rw [transfer_second_self]
      exact content_transfer_self hqm hqc hm.ne.symm hgain fun hne => absurd rfl hne
    · rw [transfer_first_other hji] at hown
      rw [transfer_second_other hji] at hother ⊢
      obtain ⟨hja, hjb, hown⟩ := of_mark_le (by omega) hown
      obtain ⟨hla, hlb, hother⟩ := of_mark_le (by omega) hother
      exact content_transfer hji hja hjb hla hlb (h.content j u (by omega) hlt hj hown hother)

/-- A step of the quick stage. -/
theorem step (hd : 0 < d) :
    let p := quickStep data s (done + 1 : ℕ) i
    QuickInv data (done + 1) (if p.2 then 0 else still + 1) p.1 ∧ Improves data i s p.1 := by
  obtain ⟨hone, hstep⟩ | ⟨hone, hle, hstep⟩ | ⟨hm, hgain, hstep⟩ :=
    quickStep_cases hd h.carried.coherent (done + 1 : ℕ) i
  · rw [hstep]
    exact ⟨h.alone hi hone, Or.inl ⟨rfl, rfl⟩⟩
  · rw [hstep]
    exact ⟨h.stays hi hone hle, Or.inl ⟨rfl, rfl⟩⟩
  · rw [hstep]
    refine ⟨h.moves hi hm hgain, Or.inr ⟨_, hm.ne, rfl, ?_⟩⟩
    rw [comparedQuick, h.removal_eq hi hm.others] at hgain
    show within data.point (s.transfer data i (s.first.get i) (s.second.get i)).first < _
    exact transfer_within_lt hm h.carried.coherent hgain

end QuickInv

/-! ## From stage to stage -/

/-- What holds before an optimal stage. -/
structure RoundInv (data : Samples ℝ n d) (s : Transfers ℝ n K d) : Prop where
  carried : s.Carried data
  changed_le : ∀ l, s.changed.get l ≤ 0
  fresh : ∀ j, s.changed.get (s.first.get j) = 0 → s.Fresh data j

/-- Before the first step of an optimal stage. -/
theorem RoundInv.opened (h : RoundInv data s) : OptimalInv data 0 s.openOptimal := by
  have live (l : Fin K) : s.openOptimal.live.get l =
      if s.touched.get l then (n : ℤ) + 1 else s.live.get l := Vector.get_zipWith _ _ _ _
  constructor
  case coherent => exact h.carried.coherent.counters
  case changed_le => exact h.changed_le
  case fresh =>
    intro j hj
    obtain hzero | ⟨-, hlt⟩ := hj
    · exact h.fresh j hzero
    · exact absurd hlt (Nat.not_lt_zero _)
  case content =>
    intro j l hl h1 h2
    have hj := j.isLt
    rw [lastVisit, if_neg (Nat.not_lt_zero _), live] at h1 h2
    change (if s.touched.get (s.first.get j) then _ else s.live.get (s.first.get j)) ≤ _ at h1
    -- a touched cluster is live for the whole stage, so that nothing is known about it
    split at h1
    · omega
    · split at h2
      · omega
      · rename_i hown hother
        exact h.carried.content j l hl (Bool.eq_false_iff.2 hown) (Bool.eq_false_iff.2 hother) h1 h2
  case quiet =>
    intro l
    have := h.carried.quiet l
    rw [live]
    show (if s.touched.get l then _ else _) + (s.quiet : ℤ) ≤ _
    split
    next htouched =>
      have := h.carried.touched l htouched
      omega
    next => omega
  case live_le =>
    intro l
    have := h.carried.quiet l
    have := h.changed_le l
    rw [live]
    split
    · omega
    · omega

/-- After the last step of an optimal stage that has not settled. -/
theorem OptimalInv.closed (h : OptimalInv data n s) : QuickInv data 0 0 s.closeOptimal := by
  have live (l : Fin K) : s.closeOptimal.live.get l = s.live.get l - n := Vector.get_map _ _ _
  have touched (l : Fin K) : s.closeOptimal.touched.get l = false := Vector.get_replicate _ _ _
  have visited (j : Fin n) : lastVisit (n := n) n j = n + (j.val + 1) := if_pos j.isLt
  refine ⟨⟨h.coherent.counters, ?_, ?_, ?_⟩, ?_, ?_, ?_⟩
  · intro j l hl _ _ h1 h2
    rw [live] at h1 h2
    change s.live.get (s.first.get j) - n ≤ _ at h1
    exact h.content j l hl (by rw [visited]; omega) (by rw [visited]; omega)
  · intro l
    have := h.quiet l
    rw [live]
    show s.live.get l - n + (s.quiet : ℤ) ≤ _
    omega
  · intro l hl
    rw [touched] at hl
    exact absurd hl Bool.noConfusion
  · intro l
    have := h.changed_le l
    show s.changed.get l + ((0 : ℕ) : ℤ) ≤ _
    omega
  · intro j u _ hlt hj hc
    obtain rfl : u = j.val := by rw [← hj, Nat.mod_eq_of_lt (by omega)]
    exact h.fresh j (Or.inr ⟨hc, j.isLt⟩)
  · intro j u _ hlt hj hown hother
    obtain rfl : u = j.val := by rw [← hj, Nat.mod_eq_of_lt (by omega)]
    change s.changed.get (s.first.get j) ≤ _ at hown
    change s.changed.get (s.second.get j) ≤ _ at hother
    have := h.live_le (s.first.get j)
    have := h.live_le (s.second.get j)
    refine h.content j (s.second.get j) (h.coherent.second j) ?_ ?_
    · rw [visited]
      omega
    · rw [visited]
      omega

/-- After `n` steps without a transfer every sample is content with every cluster. -/
theorem OptimalInv.content_of_quiet {p : ℕ} (h : OptimalInv data p s) (hp : p ≤ n)
    (hq : s.quiet = n) (j : Fin n) {l : Fin K} (hl : l ≠ s.first.get j) : s.Content data j l := by
  have live (l : Fin K) : s.live.get l ≤ lastVisit p j := by
    have := h.quiet l
    have := j.isLt
    unfold lastVisit
    split
    · omega
    · omega
  exact h.content j l hl (live _) (live _)

/-- After `n` quiet steps every sample is content with its second cluster. -/
theorem QuickInv.content_of_still {done : ℕ} (h : QuickInv data done n s) (j : Fin n) :
    s.Content data j (s.second.get j) := by
  obtain ⟨u, hu, hlt, hj⟩ := exists_visit done j
  have := h.changed_le (s.first.get j)
  have := h.changed_le (s.second.get j)
  exact h.content j u hu hlt hj (by omega) (by omega)

/-- After `n` quiet steps all costs of leaving are fresh, and the changes can be forgotten. -/
theorem QuickInv.settled {done : ℕ} (h : QuickInv data done n s) :
    RoundInv data { s with changed := Vector.replicate K 0 } where
  carried :=
    ⟨h.carried.coherent.counters, h.carried.content, h.carried.quiet, h.carried.touched⟩
  changed_le l := (Vector.get_replicate _ _ _).le
  fresh j _ := by
    obtain ⟨u, hu, hlt, hj⟩ := exists_visit done j
    have := h.changed_le (s.first.get j)
    exact h.fresh j u hu hlt hj (by omega)

end

end Proximity.Transfers
