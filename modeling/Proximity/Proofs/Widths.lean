import Proximity.Proofs.NewRows

/-!
# Widths

The width of a kernel decides how many columns a row is padded with and in which order sums are
taken. In exact arithmetic neither is seen from outside: two fits that differ in the width alone have
the same result.

1. `Lanes.nearest_sameColumns`: the label of a row does not depend on the columns that pad it.
2. `Bounds.Alike`: bounds that differ in their padding only. Every operation on them keeps this
   (`Elkan.start_alike`, `Elkan.step_alike`) and gives the same labels.
3. `Method.Alike`: methods that differ in their width only, through rounds, runs and fits
   (`step_alike`, `rounds_alike`, `improve_alike`, `run_alike`, `restarts_alike`).
4. `widths_agree`.
-/

namespace Proximity

/-! ## Rows with different padding -/

namespace Bounds

section Samples

variable {α : Type} {n K pad pad' : ℕ}

/-- Rows, however padded, that agree in the columns of the clusters. -/
def SameColumns (row : Vector α (K + pad)) (row' : Vector α (K + pad')) : Prop :=
  ∀ j, row.get (column pad j) = row'.get (column pad' j)

theorem SameColumns.put {row : Vector α (K + pad)} {row' : Vector α (K + pad')}
    (h : SameColumns row row') (k : Fin K) (v : α) :
    SameColumns (row.put (column pad k) v) (row'.put (column pad' k) v) := by
  intro j
  rw [Vector.get_put, Vector.get_put]
  simp only [column_inj, h j]

theorem sameColumns_replicate (v : α) :
    SameColumns (Vector.replicate (K + pad) v) (Vector.replicate (K + pad') v) := by
  intro j
  simp

/-! ### A sample in isolation -/

/-- The same label and distance before the first round, and the same lower bounds. -/
structure Start.Alike (s : Start α K pad) (s' : Start α K pad') : Prop where
  label : s.label = s'.label
  distance : s.distance = s'.distance
  lower : SameColumns s.lower s'.lower

/-- The same label and upper bound in a round, and the same lower bounds. -/
structure Trial.Alike (t : Trial α K pad) (t' : Trial α K pad') : Prop where
  label : t.label = t'.label
  upper : t.upper = t'.upper
  tight : t.tight = t'.tight
  lower : SameColumns t.lower t'.lower

section Starts

variable [LT α] [DecidableLT α]

theorem Start.Alike.tryCentre {s : Start α K pad} {s' : Start α K pad'} (h : s.Alike s')
    (half : Matrix α K K) (dist : Fin K → α) (j : Fin K) :
    (tryCentre half dist s j).Alike (tryCentre half dist s' j) := by
  unfold Bounds.tryCentre
  rw [h.label, h.distance]
  split
  · dsimp only
    split
    · exact ⟨rfl, rfl, h.lower.put j _⟩
    · exact ⟨rfl, rfl, h.lower.put j _⟩
  · exact h

theorem startSample_alike [Scalar α] [Positive K] (half : Matrix α K K) (dist : Fin K → α) :
    (startSample half dist : Start α K pad).Alike (startSample half dist : Start α K pad') := by
  unfold startSample
  apply List.foldl_rel
  · exact ⟨rfl, rfl, (sameColumns_replicate _).put _ _⟩
  · intro j _ s s' h
    exact h.tryCentre half dist j

end Starts

theorem Trial.Alike.tighten {t : Trial α K pad} {t' : Trial α K pad'} (h : t.Alike t')
    (dist : Fin K → α) : (t.tighten dist).Alike (t'.tighten dist) := by
  unfold Trial.tighten
  rw [h.tight]
  split
  · exact h
  · refine ⟨h.label, ?_, rfl, ?_⟩
    · rw [h.label]
    · rw [h.label]
      exact h.lower.put _ _

theorem Trial.Alike.maybeNearer [LE α] [DecidableLE α] {t : Trial α K pad} {t' : Trial α K pad'}
    (h : t.Alike t') (half : Matrix α K K) (j : Fin K) :
    t.maybeNearer half j = t'.maybeNearer half j := by
  rw [Trial.maybeNearer, Trial.maybeNearer, h.lower j, h.upper, h.label]

section Trials

variable [LT α] [DecidableLT α]

theorem Trial.Alike.measure {t : Trial α K pad} {t' : Trial α K pad'} (h : t.Alike t')
    (dist : Fin K → α) (j : Fin K) : (t.measure dist j).Alike (t'.measure dist j) := by
  unfold Trial.measure
  rw [h.upper]
  dsimp only
  split
  · exact ⟨rfl, rfl, h.tight, h.lower.put j _⟩
  · exact ⟨h.label, rfl, h.tight, h.lower.put j _⟩

theorem Trial.Alike.stillNearer {t : Trial α K pad} {t' : Trial α K pad'} (h : t.Alike t')
    (half : Matrix α K K) (j : Fin K) : t.stillNearer half j = t'.stillNearer half j := by
  rw [Trial.stillNearer, Trial.stillNearer, h.lower j, h.upper, h.label]

variable [LE α] [DecidableLE α]

theorem Trial.Alike.next {t : Trial α K pad} {t' : Trial α K pad'} (h : t.Alike t')
    (half : Matrix α K K) (dist : Fin K → α) (j : Fin K) :
    (t.next half dist j).Alike (t'.next half dist j) := by
  unfold Trial.next
  have htight := h.tighten dist
  rw [h.label, h.maybeNearer half j]
  split
  · exact h
  · dsimp only
    rw [htight.stillNearer half j]
    split
    · exact htight.measure dist j
    · exact htight

theorem relabel_alike [Scalar α] (half : Matrix α K K) (nearestHalf : Vector (Extended α) K)
    (dist : Fin K → α) (label : Fin K) (upper : α) {lower : Vector α (K + pad)}
    {lower' : Vector α (K + pad')} (h : SameColumns lower lower') :
    (relabel half nearestHalf dist label upper lower).Alike
      (relabel half nearestHalf dist label upper lower') := by
  unfold relabel
  have hstart : (⟨label, upper, false, lower⟩ : Trial α K pad).Alike
      (⟨label, upper, false, lower'⟩ : Trial α K pad') := ⟨rfl, rfl, rfl, h⟩
  dsimp only
  split
  · apply List.foldl_rel
    · exact hstart
    · intro j _ t t' ht
      exact ht.next half dist j
  · exact hstart

end Trials

/-! ### All samples -/

/-- Bounds that differ in their padding only. The shift is left out: every round writes it anew in
the columns of the clusters before it is read. -/
structure Alike (b : Bounds α n K pad) (b' : Bounds α n K pad') : Prop where
  upper : b.upper = b'.upper
  lower : ∀ i, SameColumns (b.lower.get i) (b'.lower.get i)
  half : b.half = b'.half
  nearestHalf : b.nearestHalf = b'.nearestHalf

theorem blank_alike [Scalar α] :
    (blank n K pad : Bounds α n K pad).Alike (blank n K pad' : Bounds α n K pad') := by
  refine ⟨rfl, fun i => ?_, rfl, rfl⟩
  simp only [blank, Vector.get_replicate]
  exact sameColumns_replicate _

/-- A lower bound after the centres moved, in the column of a cluster, which is always in a chunk. -/
theorem lowerAfter_column [Add α] [Sub α] [Scalar α] {L : ℕ} (hL : 0 < L)
    (lower shift : Vector α (K + pad)) (j : Fin K) :
    (Lanes.lowerAfter L K lower shift).get (column pad j) =
      Scalar.max (lower.get (column pad j) - shift.get (column pad j)) Scalar.zero := by
  have hj : (column pad j).val < Lanes.covered L K := j.isLt.trans_le (Lanes.le_covered hL K)
  rw [Lanes.lowerAfter, Vector.get_ofFn, if_pos hj]

end Samples

end Bounds

noncomputable section

variable [RealFormat] {n K d : ℕ}

/-! ## Labels of padded rows -/

namespace Lanes

omit [RealFormat] in
/-- The first least column is the same where columns without a sum are added. -/
theorem Best.Leads.column_unique {v : ℕ → Extended ℝ} {S T : Set ℕ} {a b : Best ℝ}
    (ha : a.Leads v S) (hb : b.Leads v T) (h : ∀ j, v j ≠ none → j ∈ S ∧ j ∈ T) :
    a.column = b.column := by
  obtain ⟨x, i⟩ := a
  obtain ⟨y, j⟩ := b
  cases x with
  | none =>
    cases y with
    | none => exact ha.1.trans hb.1.symm
    | some y =>
      have hj : v j = some y := hb.2.1
      have : v j ≠ none := by simp [hj]
      exact absurd (ha.2 j (h j this).1) this
  | some x =>
    have hi : v i = some x := ha.2.1
    have hmem := h i (by simp [hi])
    cases y with
    | none => exact absurd (hb.2 i hmem.2) (by simp [hi])
    | some y =>
      have hj : v j = some y := hb.2.1
      have hij := ha.2.2 j (h j (by simp [hj])).1 y hj
      have hji := hb.2.2 i hmem.2 x hi
      rcases hij with hlt | ⟨rfl, hle⟩
      · rcases hji with hgt | ⟨heq, -⟩
        · exact absurd hlt hgt.not_gt
        · exact absurd heq hlt.ne'
      · rcases hji with hgt | ⟨-, hle'⟩
        · exact absurd hgt (lt_irrefl _)
        · exact le_antisymm hle hle'

/-- The sum in a column: that of the row in the columns of the centres, and none in the padding. -/
theorem sumAt_paddedNorms {pad : ℕ} (row : Vector ℝ (K + pad)) (centres : Matrix ℝ K d) (j : ℕ) :
    sumAt row (paddedNorms centres (K + pad)) j =
      if h : j < K then
        some (row.get (Bounds.column pad ⟨j, h⟩) + (centres.get ⟨j, h⟩).squaredNorm)
      else none := by
  unfold sumAt columnSum paddedNorms
  by_cases hj : j < K
  · rw [dif_pos (Nat.lt_add_right pad hj), dif_pos hj, Vector.get_ofFn, dif_pos hj]
    rfl
  · rw [dif_neg hj]
    split
    · rw [Vector.get_ofFn, dif_neg hj]
      rfl
    · rfl

/-- The label of a row is that of any row with the same entries in the columns of the centres,
whatever the lanes and the padding of the two, and whatever the padding holds. -/
theorem nearest_sameColumns {L L' pad pad' : ℕ} (hL : 0 < L) (hL' : 0 < L')
    {row : Vector ℝ (K + pad)} {row' : Vector ℝ (K + pad')} (hrow : Bounds.SameColumns row row')
    (centres : Matrix ℝ K d) (h : covered L K ≤ K + pad) (h' : covered L' K ≤ K + pad') :
    nearest row (paddedNorms centres (K + pad)) h =
      nearest row' (paddedNorms centres (K + pad')) h' := by
  have hsums : sumAt row (paddedNorms centres (K + pad)) =
      sumAt row' (paddedNorms centres (K + pad')) := by
    funext j
    rw [sumAt_paddedNorms, sumAt_paddedNorms]
    split
    · rw [hrow]
    · rfl
  obtain ⟨a, ha, leads⟩ := nearest_leads row (paddedNorms centres (K + pad)) h
  obtain ⟨b, hb, leads'⟩ := nearest_leads row' (paddedNorms centres (K + pad')) h'
  rw [← ha, ← hb]
  rw [← hsums] at leads'
  refine leads.column_unique leads' fun j hj => ?_
  rw [sumAt_paddedNorms] at hj
  have hjK : j < K := by
    by_contra hge
    exact hj (dif_neg hge)
  exact ⟨hjK.trans_le (le_covered hL K), hjK.trans_le (le_covered hL' K)⟩

end Lanes

/-! ## Elkan's bounds -/

namespace Elkan

variable {e e' : Elkan ℝ n K}

/-- Methods whose bounds differ in their padding only, whatever the widths of their kernels. -/
def Alike (e e' : Elkan ℝ n K) : Prop := e.bounds.Alike e'.bounds

/-- Distances do not depend on the lanes that sum them. -/
theorem distance_alike (e e' : Elkan ℝ n K) (data : Samples ℝ n d) (centres : Matrix ℝ K d) :
    e.distance data centres = e'.distance data centres := by
  funext i
  rw [distance_funext, distance_funext]

/-- The start of a run forgets all bounds that it finds. -/
theorem start_alike [Clustered n K] (e e' : Elkan ℝ n K) (data : Samples ℝ n d)
    (s : RunState ℝ n K d) :
    (e.start data s).1.Alike (e'.start data s).1 ∧ (e.start data s).2 = (e'.start data s).2 := by
  have hstarts (i : Fin n) :
      have : Positive K := Clustered.positive i
      (Bounds.startSample (Bounds.halfDistances s.centres.current)
          (e.distance data s.centres.current i) :
            Bounds.Start ℝ K (e.boundWidth.padding (Scalar.bytes ℝ))).Alike
        (Bounds.startSample (Bounds.halfDistances s.centres.current)
          (e'.distance data s.centres.current i) :
            Bounds.Start ℝ K (e'.boundWidth.padding (Scalar.bytes ℝ))) := by
    intro _
    rw [distance_alike e e']
    exact Bounds.startSample_alike _ _
  have hlabels : (e.start data s).2.labels.current = (e'.start data s).2.labels.current := by
    refine Vector.ext_get fun i => ?_
    simp only [start, Vector.get_map, Vector.get_ofFn]
    exact (hstarts i).label
  refine ⟨⟨Vector.ext_get fun i => ?_, fun i => ?_, rfl, rfl⟩,
    congrArg (fun l => ({ s with labels.current := l } : RunState ℝ n K d)) hlabels⟩
  · simp only [start, Vector.get_map, Vector.get_ofFn]
    exact (hstarts i).distance
  · simp only [start, Vector.get_map, Vector.get_ofFn]
    exact (hstarts i).lower

/-- Bounds that the centres moved away from differ in their padding only if they did before. -/
theorem Alike.move (h : e.Alike e') (s : RunState ℝ n K d) : (e.move s).Alike (e'.move s) := by
  have hshift (pad : ℕ) (old : Vector ℝ (K + pad)) (j : Fin K) :
      (if h : (Bounds.column pad j).val < K then
        Scalar.sqrt (s.centres.previous.get ⟨(Bounds.column pad j).val, h⟩).squaredNorm
        else old.get (Bounds.column pad j)) =
          Scalar.sqrt (s.centres.previous.get j).squaredNorm := dif_pos j.isLt
  refine ⟨Vector.ext_get fun i => ?_, fun i j => ?_, rfl, rfl⟩
  · simp only [Elkan.move, Bounds.measure, Vector.get_ofFn, Lanes.upperAfter]
    rw [hshift, hshift, h.upper]
  · simp only [Elkan.move, Bounds.measure, Vector.get_map]
    rw [Bounds.lowerAfter_column (Lanes.Width.lanes_pos scalar_bytes _),
      Bounds.lowerAfter_column (Lanes.Width.lanes_pos scalar_bytes _), Vector.get_ofFn,
      Vector.get_ofFn, hshift, hshift, h.lower i j]

/-- The search of a round, sample by sample. -/
def trials (e : Elkan ℝ n K) (data : Samples ℝ n d) (s : RunState ℝ n K d) :
    Vector (Bounds.Trial ℝ K (e.boundWidth.padding (Scalar.bytes ℝ))) n :=
  Vector.ofFn fun i =>
    Bounds.relabel e.bounds.half e.bounds.nearestHalf (e.distance data s.centres.previous i)
      (s.labels.previous.get i) (e.bounds.upper.get i) (e.bounds.lower.get i)

theorem step_false (e : Elkan ℝ n K) (data : Samples ℝ n d) (s : RunState ℝ n K d) :
    e.step data false s =
      ({ e with bounds :=
          { e.bounds with
            upper := (e.trials data s).map (·.upper)
            lower := (e.trials data s).map (·.lower) } },
        { s with labels.current := (e.trials data s).map (·.label) }) := rfl

theorem Alike.trials (h : e.Alike e') (data : Samples ℝ n d) (s : RunState ℝ n K d) (i : Fin n) :
    ((e.trials data s).get i).Alike ((e'.trials data s).get i) := by
  unfold Elkan.trials
  rw [Vector.get_ofFn, Vector.get_ofFn, h.half, h.nearestHalf, h.upper, distance_alike e e']
  exact Bounds.relabel_alike _ _ _ _ _ (h.lower i)

theorem Alike.search (h : e.Alike e') (data : Samples ℝ n d) (s : RunState ℝ n K d) :
    (e.step data false s).1.Alike (e'.step data false s).1 ∧
      (e.step data false s).2 = (e'.step data false s).2 := by
  have htrials := h.trials data s
  have hlabels : (e.trials data s).map (·.label) = (e'.trials data s).map (·.label) := by
    refine Vector.ext_get fun i => ?_
    rw [Vector.get_map, Vector.get_map, (htrials i).label]
  rw [step_false, step_false, hlabels]
  refine ⟨⟨Vector.ext_get fun i => ?_, fun i => ?_, h.half, h.nearestHalf⟩, rfl⟩
  · rw [Vector.get_map, Vector.get_map, (htrials i).upper]
  · rw [Vector.get_map, Vector.get_map]
    exact (htrials i).lower

/-- A round of bounds that differ in their padding only leads to the same state and to such bounds. -/
theorem Alike.step (h : e.Alike e') (data : Samples ℝ n d) (update : Bool) (s : RunState ℝ n K d) :
    (e.step data update s).1.Alike (e'.step data update s).1 ∧
      (e.step data update s).2 = (e'.step data update s).2 := by
  obtain ⟨hbounds, hstate⟩ := h.search data s
  cases update with
  | false => exact ⟨hbounds, hstate⟩
  | true =>
    rw [step_true, step_true]
    dsimp only
    rw [hstate]
    exact ⟨hbounds.move _, rfl⟩

end Elkan

/-! ## MacQueen's visits -/

namespace MacQueen

theorem closest_width [Positive K] (L L' : ℕ) (x : Strided ℝ d) (centres : Matrix ℝ K d) :
    closest L x centres = closest L' x centres :=
  (closest_firstNearest L x centres).unique (closest_firstNearest L' x centres)

theorem start_width [Clustered n K] (w w' : Lanes.Width) (data : Samples ℝ n d)
    (s : RunState ℝ n K d) : start w data s = start w' data s := by
  unfold start
  rw [Assignment.inBlocks_eq, Assignment.inBlocks_eq]

theorem step_width [Clustered n K] (w w' : Lanes.Width) (data : Samples ℝ n d) (update : Bool)
    (s : RunState ℝ n K d) : step w data update s = step w' data update s := by
  have hvisit : visit (K := K) w data update = visit w' data update := by
    funext s i
    have : Positive K := Clustered.positive i
    unfold visit
    dsimp only
    rw [closest_width (w.lanes (Scalar.bytes ℝ)) (w'.lanes (Scalar.bytes ℝ))]
  unfold step sweep
  rw [hvisit]

end MacQueen

/-! ## Rounds -/

namespace Method

/-- Methods that differ in the width of their kernels and the padding of their bounds only. -/
inductive Alike : Method ℝ n K → Method ℝ n K → Prop
  | lloyd (w w' : Lanes.Width) : Alike (.lloyd w) (.lloyd w')
  | elkan {e e' : Elkan ℝ n K} (h : e.Alike e') : Alike (.elkan e) (.elkan e')
  | macQueen (w w' : Lanes.Width) : Alike (.macQueen w) (.macQueen w')

variable {m m' : Method ℝ n K}

theorem Alike.admits [Positive K] (h : m.Alike m') (d rounds : ℕ) :
    m.admits d rounds = m'.admits d rounds := by
  cases h with
  | lloyd w w' => rfl
  | elkan h => rw [elkan_admits, elkan_admits]
  | macQueen w w' => rfl

variable [Clustered n K]

theorem Alike.start (h : m.Alike m') (data : Samples ℝ n d) (s : RunState ℝ n K d) :
    (m.start data s).1.Alike (m'.start data s).1 ∧ (m.start data s).2 = (m'.start data s).2 := by
  cases h with
  | lloyd w w' => exact ⟨.lloyd w w', rfl⟩
  | @elkan e e' h =>
    obtain ⟨hbounds, hstate⟩ := e.start_alike e' data s
    exact ⟨.elkan hbounds, hstate⟩
  | macQueen w w' => exact ⟨.macQueen w w', MacQueen.start_width w w' data s⟩

theorem Alike.step (h : m.Alike m') (data : Samples ℝ n d) (update : Bool) (s : RunState ℝ n K d) :
    (m.step data update s).1.Alike (m'.step data update s).1 ∧
      (m.step data update s).2 = (m'.step data update s).2 := by
  cases h with
  | lloyd w w' =>
    refine ⟨.lloyd w w', ?_⟩
    simp only [Method.step, Lloyd.step_eq]
  | elkan h =>
    obtain ⟨hbounds, hstate⟩ := h.step data update s
    exact ⟨.elkan hbounds, hstate⟩
  | macQueen w w' => exact ⟨.macQueen w w', MacQueen.step_width w w' data update s⟩

theorem Alike.relabel (h : m.Alike m') (data : Samples ℝ n d) (s : RunState ℝ n K d) :
    (m.relabel data s).1.Alike (m'.relabel data s).1 ∧
      (m.relabel data s).2 = (m'.relabel data s).2 := by
  obtain ⟨hm, hs⟩ := h.step data false s.swap
  exact ⟨hm, congrArg State.swapCentres hs⟩

end Method

/-- The same progress of methods that differ in their width only. -/
structure Progress.Alike (p p' : Progress ℝ n K d) : Prop where
  method : p.method.Alike p'.method
  state : p.state = p'.state
  iterations : p.iterations = p'.iterations
  convergence : p.convergence = p'.convergence

namespace Method

variable [Clustered n K] {m m' : Method ℝ n K}

theorem Alike.rounds (data : Samples ℝ n d) (tol : ℝ) (left iteration : ℕ) (h : m.Alike m')
    (s : RunState ℝ n K d) :
    (Method.rounds data tol left iteration m s).Alike (Method.rounds data tol left iteration m' s) := by
  induction left generalizing iteration m m' s with
  | zero => exact ⟨h, rfl, rfl, rfl⟩
  | succ left ih =>
    obtain ⟨hm, hs⟩ := h.step data true s.swap
    rcases hr : m.round data s with ⟨p, t⟩
    rcases hr' : m'.round data s with ⟨p', t'⟩
    rw [show m.step data true s.swap = (p, t) from hr,
      show m'.step data true s.swap = (p', t') from hr'] at hm hs
    obtain rfl : t = t' := hs
    by_cases hc : t.convergence iteration tol = .notConverged
    · rw [rounds_next hr hc, rounds_next hr' hc]
      exact ih (iteration + 1) hm t
    · rw [rounds_end hr rfl hc, rounds_end hr' rfl hc]
      exact ⟨hm, rfl, rfl, rfl⟩

theorem Alike.finish {p p' : Progress ℝ n K d} (h : p.Alike p') (data : Samples ℝ n d) :
    (p.finish data).1.Alike (p'.finish data).1 ∧ (p.finish data).2 = (p'.finish data).2 := by
  unfold Progress.finish
  rw [h.convergence]
  split
  · rw [h.state]
    exact h.method.relabel data p'.state
  · exact ⟨h.method, h.state⟩

/-- Runs of methods that differ in their width only have the same result and hand on such methods. -/
theorem Alike.improve (h : m.Alike m') (data : Samples ℝ n d) (tol : ℝ) (limit : ℕ)
    (s : RunState ℝ n K d) :
    (m.improve data tol limit s).1 = (m'.improve data tol limit s).1 ∧
      (m.improve data tol limit s).2.Alike (m'.improve data tol limit s).2 := by
  obtain ⟨hm, hs⟩ := h.start data s
  have hrounds := Alike.rounds data tol limit 0 hm (m.start data s).2
  obtain ⟨hfinish, hstate⟩ := Alike.finish hrounds data
  rw [improve_eq, improve_eq]
  dsimp only
  rw [← hs, hstate, hrounds.iterations, hrounds.convergence]
  exact ⟨rfl, hfinish⟩

end Method

/-! ## Fits -/

namespace Plan

variable {σ : Type}

/-- Room for what the method of a plan keeps from round to round: only Elkan's method has bounds. -/
def methodRoom [Machine] (plan : Plan ℝ) (n K : ℕ) : Outcome Unit :=
  match plan.algorithm with
  | .elkan => plan.room n K
  | .lloyd | .macQueen | .hartiganWong => .ok ()

/-- A run by methods that differ in their width only fails in the same way, or has the same result and
hands on such methods. -/
theorem run_alike [Positive K] (plan : Plan ℝ) (data : Samples ℝ n d)
    {m m' : Option (Method ℝ n K)} (h : Option.Rel Method.Alike m m') (s : RunState ℝ n K d) :
    (∃ b, plan.run data m s = .error b ∧ plan.run data m' s = .error b) ∨
      ∃ run q q', plan.run data m s = .ok (run, q) ∧ plan.run data m' s = .ok (run, q') ∧
        Option.Rel Method.Alike q q' := by
  cases h with
  | none =>
    unfold Plan.run
    rcases transfersFrom data s.centres.current (Point.beyond d) plan.limit with b | t
    · exact Or.inl ⟨b, rfl, rfl⟩
    · exact Or.inr ⟨t.toRun, none, none, rfl, rfl, .none⟩
  | some h =>
    obtain ⟨hrun, hmethod⟩ := h.improve data plan.tolerance plan.limit s
    unfold Plan.run
    dsimp only
    rw [h.admits, hrun]
    split
    · exact Or.inr ⟨_, _, _, rfl, rfl, .some hmethod⟩
    · exact Or.inl ⟨_, rfl, rfl⟩

variable [Machine]

/-- The runs of a fit by methods that differ in their width only have the same best run. -/
theorem restarts_alike [Positive K] (plan : Plan ℝ) (S : Sampler σ ℝ) (data : Samples ℝ n d)
    (supplied : Option (Grid ℝ)) (left : ℕ) {m m' : Option (Method ℝ n K)}
    (h : Option.Rel Method.Alike m m') (g : σ) (best : Option (Run ℝ n K d)) :
    (plan.restarts S data supplied left ⟨m, g, best⟩).map (·.best) =
      (plan.restarts S data supplied left ⟨m', g, best⟩).map (·.best) := by
  induction left generalizing m m' g best with
  | zero => rfl
  | succ left ih =>
    rcases hseed : plan.seeded (K := K) S data supplied g with b | ⟨s, g'⟩
    · rw [restarts_of_error hseed, restarts_of_error hseed]
    · rcases run_alike plan data h s with ⟨b, hrun, hrun'⟩ | ⟨run, q, q', hrun, hrun', hq⟩
      · rw [restarts_of_failed_run hseed hrun, restarts_of_failed_run hseed hrun']
      · rw [restarts_of_run hseed hrun, restarts_of_run hseed hrun']
        exact ih hq g' _

/-- The rounds and the seeding of a plan do not look at its width, once there is a method. -/
theorem restarts_width [Clustered n K] (plan : Plan ℝ) (w : Option Lanes.Width) (S : Sampler σ ℝ)
    (data : Samples ℝ n d) (supplied : Option (Grid ℝ)) (left : ℕ) (r : Restart ℝ σ n K d) :
    { plan with width := w }.restarts S data supplied left r =
      plan.restarts S data supplied left r := by
  induction left generalizing r with
  | zero => rfl
  | succ left ih =>
    rw [restarts, restarts]
    simp only [ih]
    rfl

/-- The first methods of plans that differ in their width: there are any if there is room for them,
and they differ in their width only. -/
theorem exists_fresh (plan : Plan ℝ) (n K d : ℕ) :
    ∃ m : Option Lanes.Width → Option (Method ℝ n K),
      (∀ w, Method.fresh plan.algorithm n K d w =
        ({ plan with width := w }.methodRoom n K).map fun _ => m w) ∧
      ∀ w w', Option.Rel Method.Alike (m w) (m w') := by
  rcases plan with ⟨algorithm, seeding, limit, tolerance, width⟩
  cases algorithm with
  | lloyd =>
    exact ⟨fun w => some (.lloyd (Lanes.assignmentWidth (Scalar.bytes ℝ) K w)), fun w => rfl,
      fun w w' => .some (.lloyd _ _)⟩
  | macQueen =>
    exact ⟨fun w => some (.macQueen (Lanes.assignmentWidth (Scalar.bytes ℝ) K w)), fun w => rfl,
      fun w w' => .some (.macQueen _ _)⟩
  | hartiganWong => exact ⟨fun w => none, fun w => rfl, fun w w' => .none⟩
  | elkan =>
    refine ⟨fun w => some (.elkan
      { boundWidth := Lanes.boundWidth (Scalar.bytes ℝ) K w
        distanceWidth := Lanes.distanceWidth (Scalar.bytes ℝ) d w
        bounds := Bounds.blank n K _ }), fun w => ?_, fun w w' => .some (.elkan Bounds.blank_alike)⟩
    rw [Method.fresh, Elkan.fresh, methodRoom, room]
    cases Bounds.reserve (Scalar.bytes ℝ) n K
      ((Lanes.boundWidth (Scalar.bytes ℝ) K w).padding (Scalar.bytes ℝ)) <;> rfl

/-- A fit has one result for all widths that there is room for. -/
theorem exists_fit_eq [Positive K] (plan : Plan ℝ) (S : Sampler σ ℝ) (data : Samples ℝ n d)
    (supplied : Option (Grid ℝ)) (runs : ℕ) (g : σ) :
    ∃ result : Outcome (Run ℝ n K d), ∀ w,
      { plan with width := w }.fit S data supplied runs g =
        ({ plan with width := w }.methodRoom n K).bind fun _ => result := by
  obtain ⟨m, hfresh, halike⟩ := plan.exists_fresh n K d
  refine ⟨((plan.restarts S data supplied runs ⟨m none, g, none⟩).map (·.best)).bind Run.chosen,
    fun w => ?_⟩
  have hw := hfresh w
  rcases hroom : { plan with width := w }.methodRoom n K with b | u
  · rw [hroom] at hw
    rw [Plan.fit, hw, hroom]
    rfl
  · rw [hroom] at hw
    rw [fit_of_fresh hw, restarts_width, hroom, restarts_alike plan S data supplied runs (halike w none)]
    rfl

end Plan

/-! ## All widths -/

/-- New rows get the same labels whatever the width of the kernel. -/
theorem Engine.predict_width [Machine] (e : Engine ℝ) (w : Option Lanes.Width) (g : Grid ℝ) :
    { e with settings.width := w }.predict g = e.predict g := by
  have hlabels {r k c : ℕ} [Positive k] (rows : Matrix ℝ r c) (centres : Matrix ℝ k c) :
      nearestLabels w rows centres = nearestLabels e.settings.width rows centres := by
    rw [nearestLabels_eq, nearestLabels_eq]
  unfold predict
  simp only [hlabels]
  rfl

/-- **Widths agree.** A fit has one result for all widths that there is room for, and an engine labels
new rows in the same way at every width. The chunks of every kernel that a width selects reach all
centres and stay within the padded rows. What the padding holds has no influence: not on the label of
a row, where the columns of the centres agree, and neither on the states nor on the other bounds that
Elkan's method starts with and steps to, where the other bounds agree. -/
theorem widths_agree [Machine] [Positive K] {σ : Type} (plan : Plan ℝ) (S : Sampler σ ℝ)
    (data : Samples ℝ n d) (supplied : Option (Grid ℝ)) (runs : ℕ) (g : σ) :
    (∃ result : Outcome (Run ℝ n K d), ∀ w,
      { plan with width := w }.fit S data supplied runs g =
        ({ plan with width := w }.methodRoom n K).bind fun _ => result) ∧
    (∀ (e : Engine ℝ) (w : Option Lanes.Width) (rows : Grid ℝ),
      { e with settings.width := w }.predict rows = e.predict rows) ∧
    (∀ w, ∀ width ∈ [Lanes.assignmentWidth (Scalar.bytes ℝ) K w,
        Lanes.boundWidth (Scalar.bytes ℝ) K w],
      K ≤ Lanes.covered (width.lanes (Scalar.bytes ℝ)) K ∧
        Lanes.covered (width.lanes (Scalar.bytes ℝ)) K ≤ K + width.padding (Scalar.bytes ℝ)) ∧
    (∀ (w w' : Lanes.Width) (row : Vector ℝ (K + w.padding (Scalar.bytes ℝ)))
        (row' : Vector ℝ (K + w'.padding (Scalar.bytes ℝ))) (centres : Matrix ℝ K d),
      Bounds.SameColumns row row' →
        Lanes.nearest row (paddedNorms centres _) (Lanes.covered_le (Scalar.bytes ℝ) K w) =
          Lanes.nearest row' (paddedNorms centres _) (Lanes.covered_le (Scalar.bytes ℝ) K w')) ∧
    ∀ (e e' : Elkan ℝ n K) (s : RunState ℝ n K d),
      ((e.start data s).1.Alike (e'.start data s).1 ∧ (e.start data s).2 = (e'.start data s).2) ∧
        (e.Alike e' → ∀ update, (e.step data update s).1.Alike (e'.step data update s).1 ∧
          (e.step data update s).2 = (e'.step data update s).2) := by
  refine ⟨plan.exists_fit_eq S data supplied runs g, Engine.predict_width, fun w width _ => ?_,
    fun w w' row row' centres h => ?_, fun e e' s => ?_⟩
  · exact ⟨Lanes.le_covered (Lanes.Width.lanes_pos scalar_bytes width) K,
      Lanes.covered_le (Scalar.bytes ℝ) K width⟩
  · exact Lanes.nearest_sameColumns (Lanes.Width.lanes_pos scalar_bytes w)
      (Lanes.Width.lanes_pos scalar_bytes w') h centres _ _
  · exact ⟨e.start_alike e' data s, fun h update => h.step data update s⟩

omit [RealFormat] in
/-- Two samples and two centres: Elkan's fits by single numbers and by registers of 256 bits return the
same run. -/
theorem widths_agree_two_samples :
    letI := RealFormat.plain
    letI := Machine.standard
    let plan : Plan ℝ := ⟨.elkan, .randomSamples, 1, 0, none⟩
    let data : Samples ℝ 2 1 := ⟨#v[0, 10]⟩
    Positive 2 ∧ ∃ run,
      { plan with width := some .scalar }.fit (K := 2) firstChoices data none 1 () = .ok run ∧
        { plan with width := some .avx2 }.fit (K := 2) firstChoices data none 1 () = .ok run := by
  let _ := RealFormat.plain
  let _ := Machine.standard
  intro plan data
  refine ⟨inferInstance, ?_⟩
  obtain ⟨⟨result, hresult⟩, -⟩ := widths_agree (K := 2) plan firstChoices data none 1 ()
  have hroom (w : Lanes.Width) : { plan with width := some w }.methodRoom 2 2 = .ok () := by
    show Bounds.reserve 8 2 2 ((Lanes.boundWidth 8 2 (some w)).padding 8) = .ok ()
    cases w <;> decide
  have hfit (w : Lanes.Width) :
      { plan with width := some w }.fit (K := 2) firstChoices data none 1 () = result := by
    rw [hresult, hroom]
    rfl
  let e : Elkan ℝ 2 2 :=
    { boundWidth := Lanes.boundWidth (Scalar.bytes ℝ) 2 (some .scalar)
      distanceWidth := Lanes.distanceWidth (Scalar.bytes ℝ) 1 (some .scalar)
      bounds := Bounds.blank 2 2 _ }
  have hfresh : Method.fresh (α := ℝ) .elkan 2 2 1 (some .scalar) = .ok (some (.elkan e)) := by
    rw [Method.fresh, Elkan.fresh, show Bounds.reserve _ _ _ _ = _ from hroom .scalar]
    rfl
  obtain ⟨s, hseed⟩ : ∃ s : RunState ℝ 2 2 1,
      { plan with width := some .scalar }.seeded firstChoices data none () = .ok (s, ()) := ⟨_, rfl⟩
  have hrun := Method.run_eq Nat.one_pos { plan with width := some .scalar } (.elkan e) data s
  have hscalar : { plan with width := some .scalar }.fit (K := 2) firstChoices data none 1 () =
      .ok ((Method.elkan e).improve data plan.tolerance plan.limit s).1 := by
    rw [fit_of_fresh hfresh, Plan.restarts_of_run hseed hrun]
    rfl
  exact ⟨_, hscalar, (hfit .avx2).trans ((hfit .scalar).symm.trans hscalar)⟩

end

end Proximity
