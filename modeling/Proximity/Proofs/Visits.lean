import Proximity.Clustering.MacQueen
import Proximity.Proofs.Assignment
import Proximity.Proofs.Potential

/-!
# MacQueen's visits

Counts and centres of a state stay in step with its labels through every visit of a sample, and the
visit either leaves the state alone or lowers the potential of its labelling.

1. `closest_firstNearest`: a visited sample looks for its first nearest centre.
2. `Synced`: the state belongs to its labels. It does after the start (`start_synced`), and a move
   keeps it (`move_synced`).
3. `visit_spec` and `visits_spec`: one visit, and the visits of a round.
4. `labelling_visits`: visits that leave the centres where they are.
-/

namespace Proximity.MacQueen

noncomputable section

variable {n K d : ℕ}

/-! ## Counts -/

section Counts

variable {α : Type} [Add α] [Sub α] [Mul α] [Div α] [Scalar α]

/-- The counts are the sizes of the clusters. -/
def Counted (s : RunState α n K d) : Prop :=
  ∀ l, s.counts.get l = (members s.labels.current l).card

omit [Sub α] [Mul α] in
theorem move_counted (data : Samples α n d) {s : RunState α n K d} (h : Counted s) {i : Fin n}
    {b : Fin K} (hb : s.labels.current.get i ≠ b) :
    Counted (move data s i (s.labels.current.get i) b) := by
  intro l
  have hi : i ∈ members s.labels.current (s.labels.current.get i) := mem_members.2 rfl
  show ((s.counts.put b (s.counts.get b + 1)).put (s.labels.current.get i)
      ((s.counts.put b (s.counts.get b + 1)).get (s.labels.current.get i) - 1)).get l =
    (members (s.labels.current.put i b) l).card
  rw [Vector.get_put_of_ne _ _ hb.symm, Vector.get_put]
  by_cases hsource : s.labels.current.get i = l
  · subst hsource
    rw [if_pos rfl, members_put_of_ne hb, Finset.card_erase_of_mem hi, h]
  · rw [if_neg hsource, Vector.get_put]
    by_cases htarget : b = l
    · subst htarget
      rw [if_pos rfl, members_put_self,
        Finset.card_insert_of_notMem fun hmem => hsource (mem_members.1 hmem), h]
    · rw [if_neg htarget, members_put_other (Ne.symm htarget) (Ne.symm hsource), h]

end Counts

variable [RealFormat] {data : Samples ℝ n d}

/-! ## The closest centre -/

/-- The search has come to index `m` and holds the first least of the distances before it. -/
def Closest.Leads (D : Fin K → ℝ) (m : ℕ) (best : Closest ℝ K) : Prop :=
  match best.distance with
  | none => m = 0
  | some v => v = D best.label ∧ best.label < m ∧
      ∀ j : Fin K, j < m → v ≤ D j ∧ (D j ≤ v → best.label ≤ j)

theorem Closest.Leads.next {D : Fin K → ℝ} {j : Fin K} {best : Closest ℝ K}
    (h : best.Leads D j) :
    Closest.Leads D (j + 1)
      (if Extended.lt (some (D j)) best.distance then ⟨j, some (D j)⟩ else best) := by
  obtain ⟨label, distance⟩ := best
  cases distance with
  | none =>
    have hj : j.val = 0 := h
    rw [Extended.lt_some_none, scalar_bounded, if_pos rfl]
    refine ⟨rfl, Nat.lt_succ_self _, fun k hk => ?_⟩
    obtain rfl : k = j := Fin.ext (by omega)
    exact ⟨le_rfl, fun _ => le_rfl⟩
  | some v =>
    obtain ⟨hv, hlabel, hleast⟩ := h
    rw [Extended.lt_some_some]
    by_cases hless : D j < v
    · rw [if_pos (by simpa using hless)]
      refine ⟨rfl, Nat.lt_succ_self _, fun k hk => ?_⟩
      rcases Nat.lt_succ_iff_lt_or_eq.1 hk with hk | hk
      · have hkv := (hleast k hk).1
        exact ⟨hless.le.trans hkv, fun hkj => absurd (hkj.trans_lt hless) (not_lt.2 hkv)⟩
      · obtain rfl : k = j := Fin.ext hk
        exact ⟨le_rfl, fun _ => le_rfl⟩
    · rw [if_neg (by simpa using hless)]
      refine ⟨hv, Nat.lt_succ_of_lt hlabel, fun k hk => ?_⟩
      rcases Nat.lt_succ_iff_lt_or_eq.1 hk with hk | hk
      · exact hleast k hk
      · obtain rfl : k = j := Fin.ext hk
        exact ⟨not_lt.1 hless, fun _ => (Fin.lt_def.2 hlabel).le⟩

theorem closest_firstNearest [Positive K] (L : ℕ) (x : Strided ℝ d) (centres : Matrix ℝ K d) :
    FirstNearest x.toPoint centres (closest L x centres) := by
  have hdist (j : Fin K) : Lanes.squaredDistance L x (Strided.ofVector (centres.get j)) =
      x.toPoint.sqDist (centres.get j) := by
    have : (Strided.ofVector (centres.get j)).toPoint = centres.get j :=
      Vector.ext_get fun k => by rw [Strided.toPoint, Vector.get_ofFn, Strided.get_ofVector]
    rw [squaredDistance_eq, this]
  have lead := foldl_invariant (Closest.Leads fun j => x.toPoint.sqDist (centres.get j))
    (f := fun best j =>
      if Extended.lt (some (x.toPoint.sqDist (centres.get j))) best.distance then
        ⟨j, some (x.toPoint.sqDist (centres.get j))⟩ else best)
    (b := (⟨Positive.first K, none⟩ : Closest ℝ K)) rfl fun j best => Closest.Leads.next
  unfold closest
  simp only [hdist]
  generalize Fin.foldl K _ _ = best at lead ⊢
  obtain ⟨label, distance⟩ := best
  cases distance with
  | none => exact absurd (show K = 0 from lead) (Positive.pos (n := K)).ne'
  | some v =>
    obtain ⟨hv, -, hleast⟩ := lead
    have hv : v = x.toPoint.sqDist (centres.get label) := hv
    subst hv
    refine ⟨fun j => Point.dist_le_iff.2 (hleast j j.isLt).1, fun j hj => ?_⟩
    exact (hleast j j.isLt).2 (Point.dist_le_iff.1 (hj label))

/-! ## States in step with their labels -/

/-- Counts and centres are those of the labels. -/
structure Synced (data : Samples ℝ n d) (s : RunState ℝ n K d) : Prop where
  counts : Counted s
  centres : Centred data.point s.labels.current s.centres.current

omit [RealFormat] in
/-- The samples of a round are visited from the state that the round before has left. -/
theorem Synced.opening {s : RunState ℝ n K d} (h : Synced data s) : Synced data (opening s.swap) :=
  ⟨h.counts, h.centres⟩

theorem meanOf_eq {point : Fin n → Point ℝ d} {S : Finset (Fin n)} {sum : Point ℝ d}
    (h : ∀ k, sum.get k = ∑ i ∈ S, (point i).get k) : meanOf sum S.card = centroid point S := by
  refine Vector.ext_get fun k => ?_
  rw [centroid_get]
  unfold meanOf
  split
  · rw [Point.divideBy, Vector.get_map, h, scalar_ofNat]
  next hpos =>
    obtain rfl : S = ∅ := Finset.card_eq_zero.1 (Nat.eq_zero_of_not_pos hpos)
    rw [h, Finset.sum_empty, zero_div]

theorem memberSum_get (labels : Vector (Fin K) n) (l : Fin K) (k : Fin d) :
    (memberSum data labels l).get k = ∑ i ∈ members labels l, (data.point i).get k := by
  have := foldl_add (fun sum : Point ℝ d => sum.get k)
    (f := fun sum i => if labels.get i = l then sum.add (data.point i) else sum)
    (fun i => if labels.get i = l then (data.point i).get k else 0) (fun sum i => by
      split
      · rw [Point.add, Vector.get_zipWith]
      · rw [add_zero]) Point.origin
  rw [memberSum, this, members, Finset.sum_filter]
  simp [Point.origin]

theorem start_synced [Clustered n K] (w : Lanes.Width) (s : RunState ℝ n K d) :
    Synced data (start w data s) := by
  unfold start
  simp only [Assignment.inBlocks_eq, if_true, Option.getD_some]
  have hrows : data.rows.get = data.point :=
    funext fun i => by rw [Samples.rows, Vector.get_ofFn]
  constructor
  · intro l
    exact ofLabels_counts _ l
  · intro l
    show (Vector.zipWith meanOf _ _).get l = _
    rw [Vector.get_zipWith, ofLabels_counts, hrows]
    exact meanOf_eq fun k => ofLabels_sums _ l k

theorem move_synced {s : RunState ℝ n K d} (h : Synced data s) {i : Fin n} {b : Fin K}
    (hb : s.labels.current.get i ≠ b) :
    Synced data (move data s i (s.labels.current.get i) b) := by
  have hcounts := move_counted data h.counts hb
  refine ⟨hcounts, fun l => ?_⟩
  have mean (l : Fin K) : meanOf (memberSum data (s.labels.current.put i b) l)
      ((move data s i (s.labels.current.get i) b).counts.get l) =
        centroid data.point (members (s.labels.current.put i b) l) := by
    rw [hcounts l]
    exact meanOf_eq (memberSum_get _ l)
  show ((s.centres.current.put b (meanOf (memberSum data (s.labels.current.put i b) b)
      ((move data s i (s.labels.current.get i) b).counts.get b))).put (s.labels.current.get i)
        (meanOf (memberSum data (s.labels.current.put i b) (s.labels.current.get i))
          ((move data s i (s.labels.current.get i) b).counts.get (s.labels.current.get i)))).get l =
    centroid data.point (members (s.labels.current.put i b) l)
  rw [mean, mean, Vector.get_put]
  by_cases hsource : s.labels.current.get i = l
  · rw [if_pos hsource, hsource]
  · rw [if_neg hsource, Vector.get_put]
    by_cases htarget : b = l
    · rw [if_pos htarget, htarget]
    · rw [if_neg htarget, h.centres, members_put_other (Ne.symm htarget) (Ne.symm hsource)]

/-! ## Visits -/

variable [Clustered n K] (w : Lanes.Width)

/-- A visit leaves the state alone, where the sample has the first of its nearest centres already, or
lowers the potential. -/
theorem visit_spec {s : RunState ℝ n K d} (h : Synced data s) (i : Fin n) :
    Synced data (visit w data true s i) ∧
      (visit w data true s i = s ∧
          FirstNearest (data.point i) s.centres.current (s.labels.current.get i) ∨
        potential data.point (visit w data true s i).labels.current <
          potential data.point s.labels.current) := by
  have : Positive K := Clustered.positive i
  have hfirst := closest_firstNearest (w.lanes (Scalar.bytes ℝ)) (data.sample i) s.centres.current
  unfold visit
  simp only [if_true]
  generalize closest (w.lanes (Scalar.bytes ℝ)) (data.sample i) s.centres.current = b at hfirst ⊢
  by_cases hb : s.labels.current.get i = b
  · rw [if_pos hb]
    exact ⟨h, Or.inl ⟨rfl, hb ▸ hfirst⟩⟩
  · rw [if_neg hb]
    exact ⟨move_synced h hb, Or.inr (put_lowers h.centres hfirst hb)⟩

theorem visits_spec (samples : List (Fin n)) {s : RunState ℝ n K d} (h : Synced data s) :
    Synced data (samples.foldl (visit w data true) s) ∧
      (samples.foldl (visit w data true) s = s ∧
          (∀ i ∈ samples, FirstNearest (data.point i) s.centres.current (s.labels.current.get i)) ∨
        potential data.point (samples.foldl (visit w data true) s).labels.current <
          potential data.point s.labels.current) := by
  induction samples generalizing s with
  | nil => exact ⟨h, Or.inl ⟨rfl, fun i hi => absurd hi List.not_mem_nil⟩⟩
  | cons i samples ih =>
    obtain ⟨hsync, hvisit⟩ := visit_spec w h i
    rw [List.foldl_cons]
    generalize visit w data true s i = t at hsync hvisit ⊢
    obtain ⟨hsync', hrest⟩ := ih hsync
    refine ⟨hsync', ?_⟩
    rcases hvisit with ⟨rfl, hfirst⟩ | hlt
    · rcases hrest with ⟨heq, hall⟩ | hlt
      · exact Or.inl ⟨heq, List.forall_mem_cons.2 ⟨hfirst, hall⟩⟩
      · exact Or.inr hlt
    · rcases hrest with ⟨heq, -⟩ | hlt'
      · exact Or.inr (by rwa [heq])
      · exact Or.inr (hlt'.trans hlt)

/-- Visits that leave the centres where they are give every sample its first nearest centre. -/
theorem labelling_visits (data : Samples ℝ n d) (samples : List (Fin n)) (s : RunState ℝ n K d) :
    (samples.foldl (visit w data false) s).centres = s.centres ∧
      ∀ i ∈ samples, FirstNearest (data.point i) s.centres.current
        ((samples.foldl (visit w data false) s).labels.current.get i) := by
  have step (t : RunState ℝ n K d) (i : Fin n) (ht : t.centres = s.centres) :
      (visit w data false t i).centres = s.centres ∧
        FirstNearest (data.point i) s.centres.current
          ((visit w data false t i).labels.current.get i) ∧
        ∀ j, FirstNearest (data.point j) s.centres.current (t.labels.current.get j) →
          FirstNearest (data.point j) s.centres.current
            ((visit w data false t i).labels.current.get j) := by
    have : Positive K := Clustered.positive i
    have hfirst := closest_firstNearest (w.lanes (Scalar.bytes ℝ)) (data.sample i) t.centres.current
    unfold visit
    simp only [Bool.false_eq_true, if_false]
    generalize closest (w.lanes (Scalar.bytes ℝ)) (data.sample i) t.centres.current = b at hfirst ⊢
    rw [ht] at hfirst
    by_cases hb : t.labels.current.get i = b
    · rw [if_pos hb]
      exact ⟨ht, hb ▸ hfirst, fun _ hj => hj⟩
    · rw [if_neg hb]
      refine ⟨ht, ?_, fun j hj => ?_⟩
      · show FirstNearest _ _ ((t.labels.current.put i b).get i)
        rwa [Vector.get_put_self]
      · show FirstNearest _ _ ((t.labels.current.put i b).get j)
        rw [Vector.get_put]
        split
        next hij => exact hij ▸ hfirst
        next => exact hj
  obtain ⟨hcentres, hall, -⟩ := foldl_list_invariant
    (fun t : RunState ℝ n K d => t.centres = s.centres)
    (fun i t => FirstNearest (data.point i) s.centres.current (t.labels.current.get i))
    step samples s rfl
  exact ⟨hcentres, hall⟩

end

end Proximity.MacQueen
