import Proximity.Proofs.Agreement
import Proximity.Proofs.Visits

/-!
# Counters

The number of members of a cluster is counted down when a sample leaves it. Whatever the values of the
samples are, also when they are no numbers, the counter is then the size of the cluster that the sample
is in, so that it is not zero.

1. `Lanes.nearest_lt`: the kernel finds a column that stands for a centre.
2. `Assignment.inBlocks_counts`: an assignment counts the members of its clusters.
3. `MacQueen.Counted` and `Transfers.Tallied`: what visits, steps and rounds keep.
4. `Method.Counted`: the same for any method.
-/

namespace Proximity

variable {n K d : ℕ} {α : Type}

/-! ## The kernel -/

namespace Lanes

variable [Add α] [Mul α] [LT α] [DecidableLT α] [Scalar α] {L ld : ℕ}

theorem laneBest_lt (hK : 0 < K) (row : Vector α ld) (centres : Matrix α K d)
    (h : covered L K ≤ ld) (l : Fin L) : (laneBest row (paddedNorms centres ld) h l).column < K := by
  refine foldl_invariant (fun _ (b : Best α) => b.column < K) hK fun c b hb => ?_
  unfold Best.improve
  split
  next hlt =>
    -- a column of the padding has no sum, and nothing is less than that
    by_contra hge
    have hsum : columnSum row (paddedNorms centres ld) ⟨c.val * L + l.val, column_lt h c l⟩ = none := by
      rw [columnSum, paddedNorms, Vector.get_ofFn, dif_neg hge]
      rfl
    rw [hsum] at hlt
    cases hlt
  next => exact hb

/-- The kernel finds a column that stands for a centre, whatever the row holds. -/
theorem nearest_lt [BEq α] (hK : 0 < K) (row : Vector α ld) (centres : Matrix α K d)
    (h : covered L K ≤ ld) : nearest row (paddedNorms centres ld) h < K := by
  refine foldl_invariant (fun _ (b : Best α) => b.column < K) hK fun l b hb => ?_
  unfold Best.merge
  split
  · exact laneBest_lt hK row centres h l
  · exact hb

end Lanes

/-! ## Assignments -/

namespace Assignment

section Places

variable [Add α]

/-- The totals count the rows that were placed so far, cluster by cluster. -/
def Tallied (rows : List (Fin n)) (a : Assignment α n K d) : Prop :=
  ∃ t, a.totals = some t ∧ ∀ l, t.counts.get l = rows.countP fun i => a.labels.get i = l

theorem Tallied.place {rows : List (Fin n)} {a : Assignment α n K d} (h : Tallied rows a) {i : Fin n}
    (hi : i ∉ rows) (l : Fin K) (x : Point α d) :
    Tallied (rows ++ [i]) ⟨a.labels.put i l, a.totals.map (·.insert l x)⟩ := by
  obtain ⟨t, ht, hcounts⟩ := h
  refine ⟨t.insert l x, by rw [ht]; rfl, fun l' => ?_⟩
  have hrest : rows.countP (fun j => (a.labels.put i l).get j = l') =
      rows.countP fun j => a.labels.get j = l' := by
    refine List.countP_congr fun j hj => ?_
    have hne : i ≠ j := fun heq => hi (heq ▸ hj)
    rw [Vector.get_put_of_ne _ _ hne]
  rw [List.countP_append, hrest, List.countP_singleton, ← hcounts, Totals.insert, Vector.get_put,
    Vector.get_put_self]
  by_cases hl : l = l'
  · subst hl
    simp
  · simp [hl]

/-- Rows placed one after another, each of them once. -/
theorem Tallied.places {m : ℕ} (row : Fin m → Fin n) (label : Fin m → Fin K) (x : Fin m → Point α d)
    (rs : List (Fin m)) {rows : List (Fin n)} {a : Assignment α n K d} (h : Tallied rows a)
    (hnodup : (rows ++ rs.map row).Nodup) :
    Tallied (rows ++ rs.map row) (rs.foldl (fun a r =>
      ⟨a.labels.put (row r) (label r), a.totals.map (·.insert (label r) (x r))⟩) a) := by
  induction rs generalizing rows a with
  | nil => simpa using h
  | cons r rs ih =>
    rw [List.map_cons, List.append_cons] at hnodup ⊢
    have hfirst := (List.nodup_append.1 hnodup).1
    have hr : row r ∉ rows := fun hmem =>
      (List.nodup_append.1 hfirst).2.2 _ hmem _ (List.mem_singleton.2 rfl) rfl
    exact ih (h.place hr (label r) (x r)) hnodup

end Places

variable [Add α] [Mul α] [Neg α] [LT α] [DecidableLT α] [BEq α] [Scalar α]

section Blocks

variable (B : RowBlocks) [Clustered B.rows K] (data : Matrix α B.rows d) (centres : Matrix α K d)
  {L ld : ℕ} (norms : Vector (Extended α) ld) (h : Lanes.covered L K ≤ ld)

theorem Tallied.step {rows : List (Fin B.rows)} {acc : Assignment α B.rows K d × Matrix α B.size ld}
    (hacc : Tallied rows acc.1) {b : ℕ}
    (hnodup : (rows ++ (List.finRange (B.length b)).map (B.rowOf b)).Nodup) :
    Tallied (rows ++ (List.finRange (B.length b)).map (B.rowOf b))
      (step B data centres norms h acc b).1 := by
  unfold Assignment.step
  dsimp only
  rw [Fin.foldl_eq_foldl_finRange]
  exact hacc.places (B.rowOf b) _ (fun r => data.get (B.rowOf b r)) _ hnodup

theorem Tallied.steps (blocks : List ℕ) {rows : List (Fin B.rows)}
    {acc : Assignment α B.rows K d × Matrix α B.size ld} (hacc : Tallied rows acc.1)
    (hnodup : (rows ++ blocks.flatMap fun b =>
      (List.finRange (B.length b)).map (B.rowOf b)).Nodup) :
    Tallied (rows ++ blocks.flatMap fun b => (List.finRange (B.length b)).map (B.rowOf b))
      (blocks.foldl (Assignment.step B data centres norms h) acc).1 := by
  induction blocks generalizing rows acc with
  | nil => simpa using hacc
  | cons b blocks ih =>
    rw [List.flatMap_cons, ← List.append_assoc] at hnodup ⊢
    exact ih (hacc.step B data centres norms h (List.nodup_append.1 hnodup).1) hnodup

theorem task_tallied (hB : B.rows ≤ B.count * B.size) (labels : Vector (Fin K) B.rows) :
    Tallied (List.finRange B.rows)
      (task B data centres norms h true labels (List.range B.count)) := by
  have start : Tallied [] ((⟨labels, some Totals.zero⟩, Matrix.const B.size ld Scalar.zero) :
      Assignment α B.rows K d × Matrix α B.size ld).1 := ⟨_, rfl, fun l => Vector.get_replicate _ _ _⟩
  have hrows := RowBlocks.flatMap_rowOf hB
  have all := Tallied.steps B data centres norms h (List.range B.count) start
    (by rw [List.nil_append, hrows]; exact List.nodup_finRange _)
  rw [List.nil_append, hrows] at all
  exact all

end Blocks

/-- An assignment of all rows counts the members of its clusters. -/
theorem inBlocks_counts [Clustered n K] (w : Lanes.Width) (size : ℕ) (data : Matrix α n d)
    (centres : Matrix α K d) (labels : Vector (Fin K) n) :
    let a := inBlocks w size data centres true labels
    ∃ t, a.totals = some t ∧ ∀ l, t.counts.get l = (members a.labels l).card := by
  have : Clustered (RowBlocks.ofRows n size).rows K := inferInstanceAs (Clustered n K)
  obtain ⟨t, ht, hcounts⟩ := task_tallied (RowBlocks.ofRows n size) data centres
    (paddedNorms centres (K + w.padding (Scalar.bytes α))) (Lanes.covered_le (Scalar.bytes α) K w)
    (RowBlocks.rows_le_count_mul_size n size) labels
  refine ⟨Totals.zero.merge t, ?_, fun l => ?_⟩
  · simp only [inBlocks, ofTasks, RowBlocks.oneTask, List.foldl_cons, List.foldl_nil, if_true]
    rw [ht]
    rfl
  · have hmerge : (Totals.zero.merge t).counts.get l = t.counts.get l := by
      simp [Totals.merge, Totals.zero]
    rw [hmerge, hcounts, List.countP_eq_length_filter]
    rfl

end Assignment

/-! ## Visits -/

namespace MacQueen

variable [Add α] [Sub α] [Mul α] [Div α] [Neg α] [LT α] [DecidableLT α] [BEq α] [Scalar α]
  [Clustered n K] {w : Lanes.Width} {data : Samples α n d} {s : RunState α n K d}

omit [Sub α] in
theorem start_counted (w : Lanes.Width) (data : Samples α n d) (s : RunState α n K d) :
    Counted (start w data s) := by
  obtain ⟨t, ht, hcounts⟩ := Assignment.inBlocks_counts w assignmentBlock data.rows
    s.centres.current s.labels.current
  intro l
  unfold start
  dsimp only
  rw [ht]
  exact hcounts l

omit [Neg α] [BEq α] in
theorem visit_counted (h : Counted s) (i : Fin n) : Counted (visit w data true s i) := by
  unfold visit
  simp only [if_true]
  split
  next => exact h
  next hne => exact move_counted data h hne

omit [Neg α] [BEq α] in
theorem visits_counted (h : Counted s) (samples : List (Fin n)) :
    Counted (samples.foldl (visit w data true) s) := by
  induction samples generalizing s with
  | nil => exact h
  | cons i samples ih => exact ih (visit_counted h i)

omit [Neg α] [BEq α] in
/-- A round leaves counts that are the sizes of the clusters, for the next round to start from. -/
theorem step_counted (h : Counted s) : Counted (step w data true s.swap) := by
  have hopening : Counted (opening s.swap) := h
  exact visits_counted hopening (List.finRange n)

end MacQueen

/-! ## Transfers -/

namespace Transfers

variable [Add α] [Sub α] [Mul α] [Div α] [LT α] [LE α] [DecidableLT α] [DecidableLE α] [Scalar α]
  {data : Samples α n d} {s : Transfers α n K d}

/-- The sizes are those of the clusters. -/
def Tallied (s : Transfers α n K d) : Prop := ∀ l, s.sizes.get l = (members s.first l).card

omit [Add α] [Sub α] [Mul α] [Div α] [LT α] [LE α] [DecidableLT α] [DecidableLE α] [Scalar α] in
theorem Tallied.size_pos (h : s.Tallied) (i : Fin n) : 0 < s.sizes.get (s.first.get i) := by
  rw [h]
  exact Finset.card_pos.2 ⟨i, mem_members.2 rfl⟩

theorem assignFirst_tallied (hK : 1 < K) (data : Samples α n d) (centres : Matrix α K d) :
    (assignFirst hK data centres).Tallied := means_snd data _

omit [Add α] [Sub α] [Mul α] [Div α] [LT α] [LE α] [DecidableLT α] [DecidableLE α] [Scalar α] in
/-- Only labels and sizes matter. -/
theorem Tallied.congr {t : Transfers α n K d} (h : s.Tallied) (hfirst : t.first = s.first)
    (hsizes : t.sizes = s.sizes) : t.Tallied := by
  intro l
  rw [hfirst, hsizes]
  exact h l

omit [LE α] [DecidableLE α] in
/-- A transfer keeps the sizes those of the clusters, also one to the cluster that is left. -/
theorem Tallied.transfer (h : s.Tallied) (data : Samples α n d) {i : Fin n} {a : Fin K}
    (ha : s.first.get i = a) (b : Fin K) : (s.transfer data i a b).Tallied := by
  subst ha
  intro l
  have hpos := h.size_pos i
  have hi : i ∈ members s.first (s.first.get i) := mem_members.2 rfl
  show ((s.sizes.put (s.first.get i) (s.sizes.get (s.first.get i) - 1)).put b
    ((s.sizes.put (s.first.get i) (s.sizes.get (s.first.get i) - 1)).get b + 1)).get l =
      (members (s.first.put i b) l).card
  rw [Vector.get_put]
  by_cases hb : b = l
  · subst hb
    rw [if_pos rfl, Vector.get_put, members_put_self]
    by_cases hstay : s.first.get i = b
    · rw [if_pos hstay, Finset.insert_eq_of_mem (mem_members.2 hstay), ← h, ← hstay]
      omega
    · rw [if_neg hstay, Finset.card_insert_of_notMem fun hmem => hstay (mem_members.1 hmem), h]
  · rw [if_neg hb, Vector.get_put]
    by_cases hleft : s.first.get i = l
    · subst hleft
      rw [if_pos rfl, members_put_of_ne (Ne.symm hb), Finset.card_erase_of_mem hi, h]
    · rw [if_neg hleft, members_put_other (Ne.symm hb) (Ne.symm hleft), h]

omit [Div α] [LT α] [LE α] [DecidableLT α] [DecidableLE α] in
theorem Tallied.refreshOptimal (h : s.Tallied) (data : Samples α n d) (i : Fin n) :
    (s.refreshOptimal data i).Tallied := by
  unfold Transfers.refreshOptimal
  split
  · exact h
  · exact h.congr rfl rfl

omit [Div α] [LT α] [LE α] [DecidableLT α] [DecidableLE α] in
theorem Tallied.refreshQuick (h : s.Tallied) (data : Samples α n d) (step : ℤ) (i : Fin n) :
    (s.refreshQuick data step i).Tallied := by
  unfold Transfers.refreshQuick
  split
  · exact h.congr rfl rfl
  · exact h

omit [Div α] [LT α] [LE α] [DecidableLT α] [DecidableLE α] in
theorem refreshOptimal_first (s : Transfers α n K d) (data : Samples α n d) (i : Fin n) :
    (s.refreshOptimal data i).first = s.first := by
  unfold refreshOptimal
  split <;> rfl

omit [Div α] [LT α] [LE α] [DecidableLT α] [DecidableLE α] in
theorem refreshOptimal_sizes (s : Transfers α n K d) (data : Samples α n d) (i : Fin n) :
    (s.refreshOptimal data i).sizes = s.sizes := by
  unfold refreshOptimal
  split <;> rfl

omit [Div α] [LT α] [LE α] [DecidableLT α] [DecidableLE α] in
theorem refreshQuick_first (s : Transfers α n K d) (data : Samples α n d) (step : ℤ) (i : Fin n) :
    (s.refreshQuick data step i).first = s.first := by
  unfold refreshQuick
  split <;> rfl

omit [Div α] [LT α] [LE α] [DecidableLT α] [DecidableLE α] in
theorem refreshQuick_sizes (s : Transfers α n K d) (data : Samples α n d) (step : ℤ) (i : Fin n) :
    (s.refreshQuick data step i).sizes = s.sizes := by
  unfold refreshQuick
  split <;> rfl

theorem Tallied.optimalStep (h : s.Tallied) (data : Samples α n d) (i : Fin n) :
    (optimalStep data s i).Tallied := by
  have hnext : ({ s with quiet := s.quiet + 1 } : Transfers α n K d).Tallied := h.congr rfl rfl
  unfold Transfers.optimalStep
  dsimp only
  split
  · exact hnext
  · split
    · exact (hnext.refreshOptimal data i).congr rfl rfl
    · refine Tallied.transfer ((hnext.refreshOptimal data i).congr rfl rfl) data ?_ _
      exact congrArg (Vector.get · i) (refreshOptimal_first _ data i)

theorem Tallied.quickStep (h : s.Tallied) (data : Samples α n d) (step : ℤ) (i : Fin n) :
    (quickStep data s step i).1.Tallied := by
  unfold Transfers.quickStep
  dsimp only
  split
  · exact h
  · split
    · refine Tallied.transfer ((h.refreshQuick data step i).congr rfl rfl) data ?_ _
      exact congrArg (Vector.get · i) (refreshQuick_first s data step i)
    · exact h.refreshQuick data step i

/-! ### Stages and rounds -/

theorem Tallied.optimalSteps (h : s.Tallied) (data : Samples α n d) (samples : List (Fin n)) :
    (optimalSteps data samples s).1.Tallied := by
  induction samples generalizing s with
  | nil => exact h
  | cons i samples ih =>
    unfold Transfers.optimalSteps
    dsimp only
    split
    · exact h.optimalStep data i
    · exact ih (h.optimalStep data i)

omit [Add α] [Sub α] [Mul α] [Div α] [LT α] [LE α] [DecidableLT α] [DecidableLE α] [Scalar α] in
theorem Tallied.openOptimal (h : s.Tallied) : s.openOptimal.Tallied := h.congr rfl rfl

theorem Tallied.optimalStage (h : s.Tallied) (data : Samples α n d) :
    (optimalStage data s).1.Tallied := by
  have hsteps := h.openOptimal.optimalSteps data (List.finRange n)
  unfold Transfers.optimalStage
  dsimp only
  split
  · exact hsteps
  · exact hsteps.congr rfl rfl

theorem Tallied.quickSteps (h : s.Tallied) (data : Samples α n d) (hn : 0 < n)
    (left done still : ℕ) :
    (quickSteps data hn left done still s).1.Tallied := by
  induction left generalizing done still s with
  | zero => exact h
  | succ left ih =>
    have hstep := h.quickStep data (done + 1 : ℕ) ⟨done % n, Nat.mod_lt _ hn⟩
    unfold Transfers.quickSteps
    dsimp only
    generalize (if (Transfers.quickStep data s _ _).2 = true then 0 else still + 1) = quiet
    split
    · exact hstep
    · exact ih hstep _ _

end Transfers

/-! ## Methods -/

namespace Method

variable [Add α] [Sub α] [Mul α] [Div α] [Neg α] [LT α] [LE α] [DecidableLT α] [DecidableLE α]
  [BEq α] [Scalar α] [Clustered n K]

/-- The counts of a method that counts members down are the sizes of the clusters. -/
def Counted (m : Method α n K) (s : RunState α n K d) : Prop :=
  match m with
  | .macQueen _ => MacQueen.Counted s
  | .lloyd _ | .elkan _ => True

omit [LE α] [DecidableLE α] in
theorem start_counted (m : Method α n K) (data : Samples α n d) (s : RunState α n K d) :
    (m.start data s).1.Counted (m.start data s).2 := by
  cases m with
  | lloyd w => trivial
  | elkan e => trivial
  | macQueen w => exact MacQueen.start_counted w data s

theorem Counted.round {m : Method α n K} {s : RunState α n K d} (h : m.Counted s)
    (data : Samples α n d) : (m.round data s).1.Counted (m.round data s).2 := by
  cases m with
  | lloyd w => trivial
  | elkan e => trivial
  | macQueen w => exact MacQueen.step_counted h

end Method

end Proximity
