import Proximity.Clustering.Elkan
import Proximity.Proofs.Distance

/-!
# Elkan's bounds are sound

In exact arithmetic no bound ever rules out a nearer centre, so that every round labels every sample
with a nearest centre.

1. A sample in isolation: its distances are any numbers `D` that the half distances separate
   (`Separates`), and its label and bounds are `Brackets D`. The search of a round keeps this and ends
   at a least distance (`relabel_spec`); so does the search before the first round
   (`startSample_spec`).
2. Centres that move (`Brackets.move`), and the half distances (`leastOther_spec`).
3. All samples: `Bounds.Sound`, which holds before the first round (`Elkan.start_sound`) and is kept
   by every round (`Elkan.step_sound`).
4. Runs: `Elkan.afterRounds` and `Elkan.rounds_exact`.
-/

namespace Proximity

noncomputable section

variable {n K d pad : ℕ}

namespace Bounds

/-! ## A sample in isolation -/

/-- A distance within half the distance of two centres is not above the distance to the other. -/
def Separates (half : Matrix ℝ K K) (D : Fin K → ℝ) : Prop :=
  ∀ j k, D j ≤ half.entry j k → D j ≤ D k

/-- Lower bounds that are not negative and do not exceed the distances. -/
def LowerBounds (D : Fin K → ℝ) (lower : Vector ℝ (K + pad)) : Prop :=
  ∀ j, 0 ≤ lower.get (column pad j) ∧ lower.get (column pad j) ≤ D j

/-- Bounds of a sample around its distances. -/
structure Brackets (D : Fin K → ℝ) (label : Fin K) (upper : ℝ) (lower : Vector ℝ (K + pad)) :
    Prop where
  upper : D label ≤ upper
  lower : LowerBounds D lower

theorem column_inj {i j : Fin K} : column pad i = column pad j ↔ i = j :=
  (Fin.castAdd_injective K pad).eq_iff

theorem LowerBounds.put {D : Fin K → ℝ} {lower : Vector ℝ (K + pad)} (h : LowerBounds D lower)
    (hD : ∀ j, 0 ≤ D j) (k : Fin K) : LowerBounds D (lower.put (column pad k) (D k)) := by
  intro j
  rw [Vector.get_put]
  by_cases hk : k = j
  · rw [if_pos (congrArg _ hk), hk]
    exact ⟨hD j, le_rfl⟩
  · rw [if_neg (mt column_inj.1 hk)]
    exact h j

/-! ### Before the first round -/

/-- The nearest centre so far has its distance, and the lower bounds hold. -/
structure Start.Valid (D : Fin K → ℝ) (s : Start ℝ K pad) : Prop where
  distance : s.distance = D s.label
  lower : LowerBounds D s.lower

theorem tryCentre_spec {half : Matrix ℝ K K} {D : Fin K → ℝ} (hD : ∀ j, 0 ≤ D j)
    (hH : Separates half D) {s : Start ℝ K pad} (hs : s.Valid D) (j : Fin K) :
    (tryCentre half D s j).Valid D ∧ D (tryCentre half D s j).label ≤ D j ∧
      D (tryCentre half D s j).label ≤ D s.label := by
  unfold tryCentre
  have hd := hs.distance
  by_cases hskip : half.entry s.label j < s.distance
  · rw [if_pos hskip]
    by_cases hless : D j < s.distance
    · simp only [if_pos hless]
      exact ⟨⟨rfl, hs.lower.put hD j⟩, le_rfl, by rw [← hd]; exact hless.le⟩
    · simp only [if_neg hless]
      exact ⟨⟨hd, hs.lower.put hD j⟩, by rw [← hd]; exact not_lt.1 hless, le_rfl⟩
  · rw [if_neg hskip]
    exact ⟨hs, hH _ _ (by rw [← hd]; exact not_lt.1 hskip), le_rfl⟩

theorem finRange_eq_cons [Positive K] :
    List.finRange K = Positive.first K :: (List.finRange K).tail := by
  obtain ⟨k, rfl⟩ := Nat.exists_eq_succ_of_ne_zero (Positive.pos (n := K)).ne'
  simp [List.finRange_succ, Positive.first]

/-- The search before the first round ends at a least distance, with bounds around the distances. -/
theorem startSample_spec [RealFormat] [Positive K] {half : Matrix ℝ K K} {D : Fin K → ℝ}
    (hD : ∀ j, 0 ≤ D j) (hH : Separates half D) :
    let s : Start ℝ K pad := startSample half D
    Brackets D s.label s.distance s.lower ∧ ∀ j, D s.label ≤ D j := by
  have blank : LowerBounds D (Vector.replicate (K + pad) (Scalar.zero : ℝ)) := fun j => by
    simpa using hD j
  obtain ⟨hv, hmem, keep⟩ := foldl_list_invariant (fun s : Start ℝ K pad => s.Valid D)
    (fun j s => D s.label ≤ D j)
    (fun s j hs => (tryCentre_spec hD hH hs j).imp_right fun h => ⟨h.1, fun _ hy => h.2.trans hy⟩)
    (List.finRange K).tail
    ⟨Positive.first K, D (Positive.first K), (Vector.replicate (K + pad) Scalar.zero).put
      (column pad (Positive.first K)) (D (Positive.first K))⟩ ⟨rfl, blank.put hD _⟩
  refine ⟨⟨hv.distance.ge, hv.lower⟩, fun j => ?_⟩
  have hj := List.mem_finRange j
  rw [finRange_eq_cons, List.mem_cons] at hj
  rcases hj with rfl | hj
  · exact keep _ le_rfl
  · exact hmem j hj

/-! ### A round -/

/-- Bounds around the distances, where a tight upper bound is the distance to the centre of the
label. -/
structure Trial.Valid (D : Fin K → ℝ) (t : Trial ℝ K pad) : Prop where
  brackets : Brackets D t.label t.upper t.lower
  tight : t.tight → t.upper = D t.label

theorem Trial.Valid.tighten {D : Fin K → ℝ} (hD : ∀ j, 0 ≤ D j) {t : Trial ℝ K pad}
    (ht : t.Valid D) : (t.tighten D).Valid D ∧ (t.tighten D).label = t.label ∧
      (t.tighten D).upper = D t.label := by
  unfold Trial.tighten
  split
  next h => exact ⟨ht, rfl, ht.tight h⟩
  next => exact ⟨⟨⟨le_rfl, ht.brackets.lower.put hD _⟩, fun _ => rfl⟩, rfl, rfl⟩

theorem Trial.Valid.measure {D : Fin K → ℝ} (hD : ∀ j, 0 ≤ D j) {t : Trial ℝ K pad}
    (ht : t.Valid D) (hu : t.upper = D t.label) (j : Fin K) :
    (t.measure D j).Valid D ∧ D (t.measure D j).label ≤ D j ∧
      D (t.measure D j).label ≤ D t.label := by
  unfold Trial.measure
  have hlower := ht.brackets.lower.put hD j
  by_cases hless : D j < t.upper
  · simp only [if_pos hless]
    exact ⟨⟨⟨le_rfl, hlower⟩, fun _ => rfl⟩, le_rfl, by rw [← hu]; exact hless.le⟩
  · simp only [if_neg hless]
    exact ⟨⟨⟨ht.brackets.upper, hlower⟩, fun _ => hu⟩, by rw [← hu]; exact not_lt.1 hless, le_rfl⟩

/-- A centre that a bound rules out is not nearer than the centre of the label. -/
theorem Trial.Valid.le_of_bound {half : Matrix ℝ K K} {D : Fin K → ℝ} (hH : Separates half D)
    {t : Trial ℝ K pad} (ht : t.Valid D) {j : Fin K}
    (h : t.upper ≤ t.lower.get (column pad j) ∨ t.upper ≤ half.entry t.label j) :
    D t.label ≤ D j := by
  rcases h with h | h
  · exact ht.brackets.upper.trans (h.trans (ht.brackets.lower j).2)
  · exact hH _ _ (ht.brackets.upper.trans h)

/-- A candidate leaves the bounds valid and the label no farther away, neither than the candidate nor
than the label before. -/
theorem Trial.Valid.next {half : Matrix ℝ K K} {D : Fin K → ℝ} (hD : ∀ j, 0 ≤ D j)
    (hH : Separates half D) {t : Trial ℝ K pad} (ht : t.Valid D) (j : Fin K) :
    (t.next half D j).Valid D ∧ D (t.next half D j).label ≤ D j ∧
      D (t.next half D j).label ≤ D t.label := by
  unfold Trial.next
  by_cases hskip : j = t.label || !t.maybeNearer half j
  · rw [if_pos hskip]
    refine ⟨ht, ?_, le_rfl⟩
    simp only [Bool.or_eq_true, decide_eq_true_eq, Bool.not_eq_true', Trial.maybeNearer,
      Bool.and_eq_false_iff, Bool.not_eq_false'] at hskip
    rcases hskip with rfl | hskip
    · exact le_rfl
    · exact ht.le_of_bound hH hskip
  · rw [if_neg hskip]
    obtain ⟨hv, hlabel, hupper⟩ := ht.tighten hD
    rw [← hlabel] at hupper
    by_cases hstill : (t.tighten D).stillNearer half j
    · simp only [if_pos hstill]
      have := hv.measure hD hupper j
      rwa [hlabel] at this
    · simp only [if_neg hstill]
      refine ⟨hv, hv.le_of_bound hH ?_, hlabel ▸ le_rfl⟩
      simpa only [Trial.stillNearer, Bool.and_eq_true, decide_eq_true_eq, not_and_or, not_lt]
        using hstill

/-- What half the distance to the nearest other centre has to do with the other half distances. -/
def BelowOthers (half : Matrix ℝ K K) (j : Fin K) : Extended ℝ → Prop
  | none => ∀ k, k = j
  | some v => ∀ k, k ≠ j → v ≤ half.entry j k

theorem not_above_of_lt_eq_false [RealFormat] {half : Matrix ℝ K K} {j : Fin K} {least : Extended ℝ}
    (h : BelowOthers half j least) {u : ℝ} (hu : least.lt (some u) = false) {k : Fin K}
    (hk : k ≠ j) : u ≤ half.entry j k := by
  cases least with
  | none => exact absurd (h k) hk
  | some v =>
    rw [Extended.lt_some_some, decide_eq_false_iff_not, not_lt] at hu
    exact hu.trans (h k hk)

/-- The search of a round ends at a least distance, with bounds around the distances. -/
theorem relabel_spec [RealFormat] {half : Matrix ℝ K K} {nearestHalf : Vector (Extended ℝ) K}
    {D : Fin K → ℝ} (hD : ∀ j, 0 ≤ D j) (hH : Separates half D) {label : Fin K}
    (hN : BelowOthers half label (nearestHalf.get label)) {upper : ℝ} {lower : Vector ℝ (K + pad)}
    (hB : Brackets D label upper lower) :
    let t := relabel half nearestHalf D label upper lower
    Brackets D t.label t.upper t.lower ∧ ∀ j, D t.label ≤ D j := by
  let t₀ : Trial ℝ K pad := ⟨label, upper, false, lower⟩
  have ht₀ : t₀.Valid D := ⟨hB, fun h => Bool.noConfusion h⟩
  unfold relabel
  by_cases hsearch : (nearestHalf.get label).lt (some upper)
  · simp only [if_pos hsearch]
    -- the distance to the centre of the label only falls, so what was passed over stays behind it
    obtain ⟨hv, hmem, -⟩ := foldl_list_invariant (fun t : Trial ℝ K pad => t.Valid D)
      (fun j t => D t.label ≤ D j)
      (fun t j ht => (ht.next hD hH j).imp_right fun h => ⟨h.1, fun _ hy => h.2.trans hy⟩)
      (List.finRange K) t₀ ht₀
    exact ⟨hv.brackets, fun j => hmem j (List.mem_finRange j)⟩
  · simp only [if_neg hsearch]
    refine ⟨hB, fun j => ?_⟩
    by_cases hj : j = label
    · rw [hj]
    · exact ht₀.le_of_bound hH
        (Or.inr (not_above_of_lt_eq_false hN (Bool.eq_false_iff.2 hsearch) hj))

/-- A label of a least distance is kept: only a smaller distance changes it. -/
theorem Trial.Valid.next_label {half : Matrix ℝ K K} {D : Fin K → ℝ} (hD : ∀ j, 0 ≤ D j)
    {t : Trial ℝ K pad} (ht : t.Valid D) {j : Fin K} (hleast : D t.label ≤ D j) :
    (t.next half D j).label = t.label := by
  obtain ⟨-, hlabel, hupper⟩ := ht.tighten hD
  unfold Trial.next
  split
  · rfl
  · simp only
    split
    · unfold Trial.measure
      simp only
      rw [if_neg (by rw [hupper]; exact not_lt.2 hleast)]
      exact hlabel
    · exact hlabel

theorem relabel_label [RealFormat] {half : Matrix ℝ K K} {nearestHalf : Vector (Extended ℝ) K}
    {D : Fin K → ℝ} (hD : ∀ j, 0 ≤ D j) (hH : Separates half D) {label : Fin K} {upper : ℝ}
    {lower : Vector ℝ (K + pad)} (hB : Brackets D label upper lower)
    (hleast : ∀ j, D label ≤ D j) :
    (relabel half nearestHalf D label upper lower).label = label := by
  unfold relabel
  simp only
  split
  · exact (foldl_list_invariant (fun t : Trial ℝ K pad => t.Valid D ∧ t.label = label)
      (fun _ _ => True)
      (fun t j ht => ⟨⟨(ht.1.next hD hH j).1, (ht.1.next_label hD (ht.2 ▸ hleast j)).trans ht.2⟩,
        trivial, fun _ _ => trivial⟩)
      (List.finRange K) _ ⟨⟨hB, fun h => Bool.noConfusion h⟩, rfl⟩).1.2
  · rfl

/-! ## Centres that move -/

/-- Bounds stay around the distances when each centre moves by its shift. -/
theorem Brackets.move [RealFormat] {D D' : Fin K → ℝ} {label : Fin K} {upper : ℝ}
    {lower : Vector ℝ (K + pad)} (h : Brackets D label upper lower) {shift : Vector ℝ (K + pad)}
    {L : ℕ} (hL : 0 < L) (hD' : ∀ j, 0 ≤ D' j)
    (hshift : ∀ j, |D j - D' j| ≤ shift.get (column pad j)) :
    Brackets D' label (Lanes.upperAfter upper shift (column pad label))
      (Lanes.lowerAfter L K lower shift) := by
  refine ⟨?_, fun j => ?_⟩
  · have := abs_le.1 (hshift label)
    have := h.upper
    unfold Lanes.upperAfter
    linarith
  · have hj : (column pad j).val < Lanes.covered L K := lt_of_lt_of_le j.isLt (Lanes.le_covered hL K)
    have := abs_le.1 (hshift j)
    have := (h.lower j).2
    simp only [Lanes.lowerAfter, Vector.get_ofFn, if_pos hj, scalar_max, Scalar.zero, scalar_ofNat,
      Nat.cast_zero]
    exact ⟨le_max_right _ _, max_le (by linarith) (hD' j)⟩

/-! ### Half distances -/

/-- The least element of a set of numbers, where nothing stands for that of the empty set. -/
def LeastOf (S : Set ℝ) : Extended ℝ → Prop
  | none => S = ∅
  | some v => IsLeast S v

theorem LeastOf.meet [RealFormat] {S : Set ℝ} {e : Extended ℝ} (h : LeastOf S e) (v : ℝ) :
    LeastOf (insert v S) (e.meet v) := by
  cases e with
  | none =>
    obtain rfl : S = ∅ := h
    simp [Extended.meet, LeastOf]
  | some u =>
    have := IsLeast.insert v h
    rwa [min_comm] at this

theorem LeastOf.foldl [RealFormat] {β : Type*} (f : β → ℝ) :
    ∀ (l : List β) {S : Set ℝ} {e : Extended ℝ}, LeastOf S e →
      LeastOf (S ∪ {v | ∃ k ∈ l, v = f k}) (l.foldl (fun e k => e.meet (f k)) e)
  | [], S, e, h => by simpa using h
  | k :: l, S, e, h => by
    have := LeastOf.foldl f l (h.meet (f k))
    rw [List.foldl_cons]
    convert this using 1
    ext v
    simp only [Set.mem_union, Set.mem_ofPred_eq, List.mem_cons, Set.mem_insert_iff,
      exists_eq_or_imp]
    tauto

theorem leastOther_spec [RealFormat] (half : Matrix ℝ K K) (j : Fin K) :
    LeastOf {v | ∃ k, k ≠ j ∧ v = half.entry k j} (leastOther half j) := by
  have := LeastOf.foldl (fun k => half.entry k j) ((List.finRange K).filter (· ≠ j))
    (show LeastOf ∅ none from rfl)
  rw [leastOther]
  convert this using 1
  ext v
  simp

theorem halfDistances_entry [RealFormat] (centres : Matrix ℝ K d) (j k : Fin K) :
    (halfDistances centres).entry j k = (centres.get j).dist (centres.get k) / 2 := by
  have := euclideanDistances_entry centres centres false j k
  rw [Matrix.entry] at this
  rw [Matrix.entry, halfDistances, Vector.get_map, Vector.get_map, this]
  simp [Scalar.half, Scalar.one, Scalar.two, div_eq_mul_inv]

/-! ## All samples -/

/-- Half the distance from centre `j` to the nearest other centre. -/
def IsNearestHalf (centres : Matrix ℝ K d) (j : Fin K) : Extended ℝ → Prop :=
  LeastOf {v | ∃ k, k ≠ j ∧ v = (centres.get k).dist (centres.get j) / 2}

/-- The bounds hold for the distances from the samples to the centres, and the half distances are
those of the centres. -/
structure Sound (b : Bounds ℝ n K pad) (data : Samples ℝ n d) (centres : Matrix ℝ K d)
    (labels : Vector (Fin K) n) : Prop where
  upper : ∀ i, (data.point i).dist (centres.get (labels.get i)) ≤ b.upper.get i
  lower_nonneg : ∀ i j, 0 ≤ (b.lower.get i).get (column pad j)
  lower : ∀ i j, (b.lower.get i).get (column pad j) ≤ (data.point i).dist (centres.get j)
  half : ∀ j k, b.half.entry j k = (centres.get j).dist (centres.get k) / 2
  nearestHalf : ∀ j, IsNearestHalf centres j (b.nearestHalf.get j)

theorem Sound.brackets {b : Bounds ℝ n K pad} {data : Samples ℝ n d} {centres : Matrix ℝ K d}
    {labels : Vector (Fin K) n} (h : b.Sound data centres labels) (i : Fin n) :
    Brackets (fun j => (data.point i).dist (centres.get j)) (labels.get i) (b.upper.get i)
      (b.lower.get i) :=
  ⟨h.upper i, fun j => ⟨h.lower_nonneg i j, h.lower i j⟩⟩

/-- The half distances are those of the centres. -/
structure Measures (b : Bounds ℝ n K pad) (centres : Matrix ℝ K d) : Prop where
  half : ∀ j k, b.half.entry j k = (centres.get j).dist (centres.get k) / 2
  nearestHalf : ∀ j, IsNearestHalf centres j (b.nearestHalf.get j)

theorem Measures.separates {b : Bounds ℝ n K pad} {centres : Matrix ℝ K d} (h : b.Measures centres)
    (x : Point ℝ d) : Separates b.half fun j => x.dist (centres.get j) := by
  intro j k hjk
  rw [h.half] at hjk
  exact Point.dist_le_of_le_half hjk

theorem Measures.belowOthers {b : Bounds ℝ n K pad} {centres : Matrix ℝ K d} (h : b.Measures centres)
    (j : Fin K) : BelowOthers b.half j (b.nearestHalf.get j) := by
  have hj := h.nearestHalf j
  generalize b.nearestHalf.get j = e at hj
  cases e with
  | none =>
    intro k
    by_contra hk
    exact Set.eq_empty_iff_forall_notMem.1 hj _ ⟨k, hk, rfl⟩
  | some v =>
    intro k hk
    rw [h.half, Point.dist_comm]
    exact hj.2 ⟨k, hk, rfl⟩

theorem measure_measures [RealFormat] (b : Bounds ℝ n K pad) (centres : Matrix ℝ K d) :
    (b.measure centres).Measures centres := by
  refine ⟨halfDistances_entry centres, fun j => ?_⟩
  have := leastOther_spec (halfDistances centres) j
  simp only [halfDistances_entry] at this
  rwa [Bounds.measure, Vector.get_ofFn]

theorem Sound.measures {b : Bounds ℝ n K pad} {data : Samples ℝ n d} {centres : Matrix ℝ K d}
    {labels : Vector (Fin K) n} (h : b.Sound data centres labels) : b.Measures centres :=
  ⟨h.half, h.nearestHalf⟩

theorem Measures.sound {b : Bounds ℝ n K pad} {data : Samples ℝ n d} {centres : Matrix ℝ K d}
    {labels : Vector (Fin K) n} (h : b.Measures centres)
    (hB : ∀ i, Brackets (fun j => (data.point i).dist (centres.get j)) (labels.get i)
      (b.upper.get i) (b.lower.get i)) : b.Sound data centres labels where
  upper i := (hB i).upper
  lower_nonneg i j := ((hB i).lower j).1
  lower i j := ((hB i).lower j).2
  half := h.half
  nearestHalf := h.nearestHalf

end Bounds

/-! ## Rounds -/

namespace Elkan

/-- A round that moves the centres is a search, and then the move. -/
theorem step_true {α : Type} [Add α] [Sub α] [Mul α] [Div α] [Neg α] [LT α] [LE α] [DecidableLT α]
    [DecidableLE α] [Scalar α] (e : Elkan α n K) (data : Samples α n d) (s : RunState α n K d) :
    e.step data true s =
      let q := e.step data false s
      let s' := q.2.recentre (Totals.ofLabels data.point q.2.labels.current)
      (q.1.move s', s') := rfl

variable [RealFormat]

theorem distance_eq (e : Elkan ℝ n K) (data : Samples ℝ n d) (centres : Matrix ℝ K d) (i : Fin n)
    (j : Fin K) : e.distance data centres i j = (data.point i).dist (centres.get j) := by
  have : (Strided.ofVector (centres.get j)).toPoint = centres.get j :=
    Vector.ext_get fun k => by rw [Strided.toPoint, Vector.get_ofFn, Strided.get_ofVector]
  rw [distance, squaredDistance_eq, this]
  rfl

theorem distance_funext (e : Elkan ℝ n K) (data : Samples ℝ n d) (centres : Matrix ℝ K d)
    (i : Fin n) : e.distance data centres i = fun j => (data.point i).dist (centres.get j) :=
  funext fun j => e.distance_eq data centres i j

/-- Before the first round the bounds hold, and every sample has a nearest centre. -/
theorem start_sound [Clustered n K] (e : Elkan ℝ n K) (data : Samples ℝ n d) (s : RunState ℝ n K d) :
    (e.start data s).1.bounds.Sound data (e.start data s).2.centres.current
        (e.start data s).2.labels.current ∧
      ∀ i, Nearest (data.point i) s.centres.current ((e.start data s).2.labels.current.get i) := by
  have hM := e.bounds.measure_measures s.centres.current
  let starts := Vector.ofFn fun i =>
    have : Positive K := Clustered.positive i
    (Bounds.startSample (e.bounds.measure s.centres.current).half
      (e.distance data s.centres.current i) :
        Bounds.Start ℝ K (e.boundWidth.padding (Scalar.bytes ℝ)))
  have spec (i : Fin n) :
      Bounds.Brackets (fun j => (data.point i).dist (s.centres.current.get j))
          ((starts.map (·.label)).get i) ((starts.map (·.distance)).get i)
          ((starts.map (·.lower)).get i) ∧
        Nearest (data.point i) s.centres.current ((starts.map (·.label)).get i) := by
    have : Positive K := Clustered.positive i
    simp only [starts, Vector.get_map, Vector.get_ofFn, distance_funext]
    exact Bounds.startSample_spec (fun j => Point.dist_nonneg _ _) (hM.separates _)
  exact ⟨Bounds.Measures.sound ⟨hM.half, hM.nearestHalf⟩ fun i => (spec i).1, fun i => (spec i).2⟩

/-- The search of a round: every sample gets a nearest previous centre, and its bounds still hold for
those centres. -/
theorem search_spec (e : Elkan ℝ n K) (data : Samples ℝ n d) (s : RunState ℝ n K d)
    (h : e.bounds.Sound data s.centres.previous s.labels.previous) (i : Fin n) :
    Bounds.Brackets (fun j => (data.point i).dist (s.centres.previous.get j))
        ((e.step data false s).2.labels.current.get i) ((e.step data false s).1.bounds.upper.get i)
        ((e.step data false s).1.bounds.lower.get i) ∧
      Nearest (data.point i) s.centres.previous ((e.step data false s).2.labels.current.get i) := by
  let trials := Vector.ofFn fun i =>
    Bounds.relabel e.bounds.half e.bounds.nearestHalf (e.distance data s.centres.previous i)
      (s.labels.previous.get i) (e.bounds.upper.get i) (e.bounds.lower.get i)
  have spec :
      Bounds.Brackets (fun j => (data.point i).dist (s.centres.previous.get j))
          ((trials.map (·.label)).get i) ((trials.map (·.upper)).get i)
          ((trials.map (·.lower)).get i) ∧
        Nearest (data.point i) s.centres.previous ((trials.map (·.label)).get i) := by
    simp only [trials, Vector.get_map, Vector.get_ofFn, distance_funext]
    exact Bounds.relabel_spec (fun j => Point.dist_nonneg _ _) (h.measures.separates _)
      (h.measures.belowOthers _) (h.brackets i)
  exact spec

/-- The search of a round leaves a sample where it is that has a nearest previous centre. -/
theorem search_keeps (e : Elkan ℝ n K) (data : Samples ℝ n d) (s : RunState ℝ n K d)
    (h : e.bounds.Sound data s.centres.previous s.labels.previous) {i : Fin n}
    (hi : Nearest (data.point i) s.centres.previous (s.labels.previous.get i)) :
    (e.step data false s).2.labels.current.get i = s.labels.previous.get i := by
  show ((Vector.ofFn fun i => Bounds.relabel e.bounds.half e.bounds.nearestHalf
    (e.distance data s.centres.previous i) (s.labels.previous.get i) (e.bounds.upper.get i)
    (e.bounds.lower.get i)).map (·.label)).get i = _
  rw [Vector.get_map, Vector.get_ofFn, distance_funext]
  exact Bounds.relabel_label (fun j => Point.dist_nonneg _ _) (h.measures.separates _)
    (h.brackets i) hi

theorem recentre_previous (s : RunState ℝ n K d) (t : Totals ℝ K d) (j : Fin K) :
    (s.recentre t).centres.previous.get j =
      (s.centres.previous.get j).sub ((s.recentre t).centres.current.get j) := by
  simp [State.recentre, State.computeShift, State.scaleCentres]

theorem move_sound (e : Elkan ℝ n K) (data : Samples ℝ n d) (s : RunState ℝ n K d)
    (centres : Matrix ℝ K d)
    (hprevious : ∀ j, s.centres.previous.get j = (centres.get j).sub (s.centres.current.get j))
    (h : ∀ i, Bounds.Brackets (fun j => (data.point i).dist (centres.get j))
      (s.labels.current.get i) (e.bounds.upper.get i) (e.bounds.lower.get i)) :
    (e.move s).bounds.Sound data s.centres.current s.labels.current := by
  let shift : Vector ℝ (K + e.boundWidth.padding (Scalar.bytes ℝ)) := Vector.ofFn fun j =>
    if h : j.val < K then Scalar.sqrt (s.centres.previous.get ⟨j.val, h⟩).squaredNorm
    else e.bounds.shift.get j
  have hshift (j : Fin K) :
      shift.get (Bounds.column _ j) = (centres.get j).dist (s.centres.current.get j) := by
    have hj : (Bounds.column (e.boundWidth.padding (Scalar.bytes ℝ)) j).val < K := j.isLt
    rw [Vector.get_ofFn, dif_pos hj, scalar_sqrt, Point.dist, ← squaredNorm_sub, ← hprevious]
    rfl
  let L := e.boundWidth.lanes (Scalar.bytes ℝ)
  let upper := Vector.ofFn fun i =>
    Lanes.upperAfter (e.bounds.upper.get i) shift (Bounds.column _ (s.labels.current.get i))
  let lower := e.bounds.lower.map fun row => Lanes.lowerAfter L K row shift
  have hM := Bounds.measure_measures { e.bounds with shift, upper, lower } s.centres.current
  have spec (i : Fin n) :
      Bounds.Brackets (fun j => (data.point i).dist (s.centres.current.get j))
        (s.labels.current.get i) (upper.get i) (lower.get i) := by
    simp only [upper, lower, Vector.get_map, Vector.get_ofFn]
    refine (h i).move (Lanes.Width.lanes_pos scalar_bytes _) (fun j => Point.dist_nonneg _ _) fun j => ?_
    rw [hshift]
    have := Point.dist_triangle (data.point i) (s.centres.current.get j) (centres.get j)
    have := Point.dist_triangle (data.point i) (centres.get j) (s.centres.current.get j)
    rw [Point.dist_comm (s.centres.current.get j)] at *
    rw [abs_le]
    constructor <;> linarith
  exact hM.sound spec

/-- A round keeps the bounds sound, now for the centres that it moves to. -/
theorem step_sound (e : Elkan ℝ n K) (data : Samples ℝ n d) (s : RunState ℝ n K d)
    (h : e.bounds.Sound data s.centres.previous s.labels.previous) :
    (e.step data true s).1.bounds.Sound data (e.step data true s).2.centres.current
        (e.step data true s).2.labels.current ∧
      ∀ i, Nearest (data.point i) s.centres.previous
        ((e.step data true s).2.labels.current.get i) := by
  have spec := e.search_spec data s h
  rw [step_true]
  exact ⟨(e.step data false s).1.move_sound data _ s.centres.previous
    (recentre_previous _ _) fun i => (spec i).1, fun i => (spec i).2⟩

/-! ## Runs -/

/-- Elkan's method and the state of a run after some rounds. -/
def afterRounds [Clustered n K] (e : Elkan ℝ n K) (data : Samples ℝ n d) (s : RunState ℝ n K d) :
    ℕ → Elkan ℝ n K × RunState ℝ n K d
  | 0 => e.start data s
  | t + 1 =>
    let p := afterRounds e data s t
    p.1.step data true p.2.swap

theorem afterRounds_succ [Clustered n K] (e : Elkan ℝ n K) (data : Samples ℝ n d)
    (s : RunState ℝ n K d) (t : ℕ) :
    e.afterRounds data s (t + 1) =
      (e.afterRounds data s t).1.step data true (e.afterRounds data s t).2.swap := rfl

theorem afterRounds_sound [Clustered n K] (e : Elkan ℝ n K) (data : Samples ℝ n d)
    (s : RunState ℝ n K d) (t : ℕ) :
    (e.afterRounds data s t).1.bounds.Sound data (e.afterRounds data s t).2.centres.current
      (e.afterRounds data s t).2.labels.current := by
  induction t with
  | zero => exact (e.start_sound data s).1
  | succ t ih => exact (step_sound _ data _ ih).1

/-- **Elkan's bounds are sound and its labels exact.** After any number of rounds the bounds hold for
the centres of the state, and the half distances are theirs; the next round, and also a round that
leaves the centres where they are, gives every sample a label of a nearest one among them. -/
theorem rounds_exact [Clustered n K] (e : Elkan ℝ n K) (data : Samples ℝ n d) (s : RunState ℝ n K d)
    (t : ℕ) :
    let now := e.afterRounds data s t
    let next := e.afterRounds data s (t + 1)
    let relabelled := now.1.step data false now.2.swap
    now.1.bounds.Sound data now.2.centres.current now.2.labels.current ∧
      (∀ i, Nearest (data.point i) now.2.swap.centres.previous (next.2.labels.current.get i)) ∧
      ∀ i, Nearest (data.point i) now.2.centres.current (relabelled.2.labels.current.get i) := by
  have h := e.afterRounds_sound data s t
  rw [afterRounds_succ]
  generalize e.afterRounds data s t = p at h
  exact ⟨h, (step_sound p.1 data p.2.swap h).2, fun i => (search_spec p.1 data p.2.swap h i).2⟩

omit [RealFormat] in
/-- Three samples and two centres, after one round. -/
theorem rounds_exact_three_samples :
    letI := RealFormat.plain
    let e : Elkan ℝ 3 2 := ⟨.scalar, .scalar, Bounds.blank 3 2 _⟩
    let data : Samples ℝ 3 1 := ⟨#v[0, 1, 10]⟩
    let s : RunState ℝ 3 2 1 := { RunState.blank 3 2 1 with centres.current := #v[#v[0], #v[2]] }
    let now := e.afterRounds data s 1
    Clustered 3 2 ∧ now.1.bounds.Sound data now.2.centres.current now.2.labels.current ∧
      ∀ i, Nearest (data.point i) now.2.centres.current
        ((e.afterRounds data s 2).2.labels.current.get i) := by
  let _ := RealFormat.plain
  intro e data s now
  have h := rounds_exact e data s 1
  exact ⟨inferInstance, h.1, h.2.1⟩

end Elkan

end

end Proximity
