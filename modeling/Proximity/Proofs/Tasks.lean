import Proximity.Proofs.Visits

/-!
# Blocks shared out among tasks

An assignment in blocks shares its blocks out among tasks and merges what the tasks have counted. The
blocks of a task follow each other, and a task uses one work matrix for all of them; which blocks go
to which task, and in which order results are merged, is left to a scheduler. In exact arithmetic
nothing of this is seen from outside: each row is labelled and counted once, as in a loop through the
rows that compares all distances.

1. `Grouping` and `ofGrouping`: tasks, and a tree of mergers. A list of tasks is merged from left to
   right (`ofTasks_eq`).
2. `Totals.merge_foldl`: totals of some rows merged with those of others.
3. `ofGrouping_eq`: a grouping goes through the rows of its blocks, one row after another.
4. `rowByRow` and `groupings_agree`.
-/

namespace Proximity

variable {n K d ld L : ℕ}

namespace Assignment

/-! ## Groupings -/

/-- How blocks are shared out: no block at all, the blocks of one task, or two parts whose results are
merged. -/
inductive Grouping where
  | nothing
  | task (blocks : List ℕ)
  | join (first second : Grouping)

namespace Grouping

/-- All blocks of a grouping, in order. -/
def blocks : Grouping → List ℕ
  | nothing => []
  | task blocks => blocks
  | join first second => first.blocks ++ second.blocks

/-- Tasks whose results are merged from left to right. -/
def ofTasks (tasks : List (List ℕ)) : Grouping :=
  tasks.foldl (fun g blocks => g.join (task blocks)) nothing

theorem blocks_ofTasks (tasks : List (List ℕ)) : (ofTasks tasks).blocks = tasks.flatten := by
  have append (g : Grouping) : (tasks.foldl (fun g blocks => g.join (task blocks)) g).blocks =
      g.blocks ++ tasks.flatten := by
    induction tasks generalizing g with
    | nil => simp
    | cons blocks tasks ih => rw [List.foldl_cons, ih, List.flatten_cons, ← List.append_assoc]; rfl
  exact append nothing

end Grouping

section Scalars

variable {α : Type} [Add α] [Mul α] [Neg α] [LT α] [DecidableLT α] [BEq α] [Scalar α]

/-- The assignment of the rows of a grouping. Labels are written where they belong, so that the second
part of a merger finds those of the first. -/
def ofGrouping (B : RowBlocks) [Clustered B.rows K] (data : Matrix α B.rows d) (centres : Matrix α K d)
    (norms : Vector (Extended α) ld) (h : Lanes.covered L K ≤ ld) (accumulate : Bool) :
    Grouping → Vector (Fin K) B.rows → Assignment α B.rows K d
  | .nothing, labels => ⟨labels, if accumulate then some Totals.zero else none⟩
  | .task blocks, labels => task B data centres norms h accumulate labels blocks
  | .join first second, labels =>
    let a := ofGrouping B data centres norms h accumulate first labels
    let b := ofGrouping B data centres norms h accumulate second a.labels
    { labels := b.labels
      totals := a.totals.bind fun t => b.totals.map t.merge }

/-- A sequence of tasks is the grouping that merges them from left to right. -/
theorem ofTasks_eq (B : RowBlocks) [Clustered B.rows K] (data : Matrix α B.rows d)
    (centres : Matrix α K d) (norms : Vector (Extended α) ld) (h : Lanes.covered L K ≤ ld)
    (accumulate : Bool) (labels : Vector (Fin K) B.rows) (tasks : List (List ℕ)) :
    ofTasks B data centres norms h accumulate labels tasks =
      ofGrouping B data centres norms h accumulate (.ofTasks tasks) labels := by
  unfold ofTasks Grouping.ofTasks
  show tasks.foldl _ (ofGrouping B data centres norms h accumulate .nothing labels) = _
  generalize Grouping.nothing = g
  induction tasks generalizing g with
  | nil => rfl
  | cons blocks tasks ih => exact ih (g.join (.task blocks))

end Scalars

end Assignment

noncomputable section

variable [RealFormat]

/-! ## Totals of more rows -/

namespace Totals

theorem merge_zero (t : Totals ℝ K d) : t.merge zero = t := by
  obtain ⟨sums, counts⟩ := t
  have hsums : Vector.zipWith Point.add sums (Matrix.const K d (Scalar.zero : ℝ)) = sums := by
    refine Vector.ext_get fun l => Vector.ext_get fun j => ?_
    rw [Vector.get_zipWith, Point.add, Vector.get_zipWith, Matrix.const_eq_replicate]
    simp [Scalar.zero]
  have hcounts : Vector.zipWith (· + ·) counts (Vector.replicate K 0) = counts :=
    Vector.ext_get fun l => by simp
  rw [merge, zero, hsums, hcounts]

omit [RealFormat] in
theorem merge_insert (t u : Totals ℝ K d) (l : Fin K) (x : Point ℝ d) :
    t.merge (u.insert l x) = (t.merge u).insert l x := by
  unfold merge insert
  congr 1
  · refine Vector.ext_get fun j => ?_
    rw [Vector.get_zipWith, Vector.get_put, Vector.get_put]
    split
    next hj =>
      subst hj
      refine Vector.ext_get fun k => ?_
      simp only [Point.add, Vector.get_zipWith, add_assoc]
    next => rw [Vector.get_zipWith]
  · refine Vector.ext_get fun j => ?_
    rw [Vector.get_zipWith, Vector.get_put, Vector.get_put]
    split
    next hj => rw [hj, Vector.get_zipWith, add_assoc]
    next => rw [Vector.get_zipWith]

/-- Totals merged with those of some rows are the totals with these rows put in. -/
theorem merge_foldl {β : Type*} (label : β → Fin K) (point : β → Point ℝ d) (rows : List β)
    (t : Totals ℝ K d) : t.merge (rows.foldl (fun t i => t.insert (label i) (point i)) zero) =
      rows.foldl (fun t i => t.insert (label i) (point i)) t := by
  have more (u : Totals ℝ K d) :
      t.merge (rows.foldl (fun t i => t.insert (label i) (point i)) u) =
        rows.foldl (fun t i => t.insert (label i) (point i)) (t.merge u) := by
    induction rows generalizing u with
    | nil => rfl
    | cons i rows ih => rw [List.foldl_cons, ih, merge_insert, List.foldl_cons]
  rw [more, merge_zero]

end Totals

/-! ## All rows of a grouping -/

namespace Assignment

/-- A grouping puts the rows of its blocks into clusters, one row after another. -/
theorem ofGrouping_eq (B : RowBlocks) [Clustered B.rows K] (data : Matrix ℝ B.rows d)
    (centres : Matrix ℝ K d) (hL : 0 < L) (h : Lanes.covered L K ≤ ld) (accumulate : Bool)
    (g : Grouping) (labels : Vector (Fin K) B.rows) :
    ofGrouping B data centres (paddedNorms centres ld) h accumulate g labels =
      (B.rowsOf g.blocks).foldl (place data.get (firstNearests data.get centres).get)
        ⟨labels, if accumulate then some Totals.zero else none⟩ := by
  induction g generalizing labels with
  | nothing => rfl
  | task blocks => exact task_eq_foldl B data centres hL h accumulate labels blocks
  | join first second ih ih' =>
    have hrows : B.rowsOf (first.join second).blocks =
        B.rowsOf first.blocks ++ B.rowsOf second.blocks := List.flatMap_append
    rw [ofGrouping, ih, ih', hrows, List.foldl_append]
    simp only [foldl_place_eq]
    cases accumulate
    · rfl
    · simp only [if_true, Option.map_some, Option.bind_some, Totals.merge_foldl]

/-- The rows in one loop. The distances of a row to all centres are compared in turn. -/
def rowByRow [Clustered n K] (data : Matrix ℝ n d) (centres : Matrix ℝ K d) (accumulate : Bool)
    (labels : Vector (Fin K) n) : Assignment ℝ n K d :=
  Fin.foldl n (fun a i =>
    have : Positive K := Clustered.positive i
    place data.get (fun i => MacQueen.closest 1 (Strided.ofVector (data.get i)) centres) a i)
    ⟨labels, if accumulate then some Totals.zero else none⟩

theorem rowByRow_eq [Clustered n K] (data : Matrix ℝ n d) (centres : Matrix ℝ K d)
    (accumulate : Bool) (labels : Vector (Fin K) n) :
    rowByRow data centres accumulate labels =
      ⟨firstNearests data.get centres, if accumulate then
        some (Totals.ofLabels data.get (firstNearests data.get centres)) else none⟩ := by
  have hplace (a : Assignment ℝ n K d) (i : Fin n) :
      have : Positive K := Clustered.positive i
      place data.get (fun i => MacQueen.closest 1 (Strided.ofVector (data.get i)) centres) a i =
        place data.get (firstNearests data.get centres).get a i := by
    have : Positive K := Clustered.positive i
    have hpoint : (Strided.ofVector (data.get i)).toPoint = data.get i :=
      Vector.ext_get fun k => by rw [Strided.toPoint, Vector.get_ofFn, Strided.get_ofVector]
    have hfirst := MacQueen.closest_firstNearest 1 (Strided.ofVector (data.get i)) centres
    rw [hpoint] at hfirst
    simp only [place, hfirst.unique (firstNearests_spec data.get centres i)]
  unfold rowByRow
  simp only [hplace]
  rw [foldl_place]
  cases accumulate <;> rfl

section Blocks

variable {B : RowBlocks} [Clustered B.rows K] (hB : B.rows ≤ B.count * B.size)
include hB

/-- A grouping of all blocks is the loop through the rows. -/
theorem ofGrouping_rowByRow (data : Matrix ℝ B.rows d) (centres : Matrix ℝ K d) (hL : 0 < L)
    (h : Lanes.covered L K ≤ ld) (accumulate : Bool) (labels : Vector (Fin K) B.rows) {g : Grouping}
    (hg : g.blocks = List.range B.count) :
    ofGrouping B data centres (paddedNorms centres ld) h accumulate g labels =
      rowByRow data centres accumulate labels := by
  rw [ofGrouping_eq B data centres hL, hg, RowBlocks.rowsOf, RowBlocks.flatMap_rowOf hB,
    ← Fin.foldl_eq_foldl_finRange, foldl_place, rowByRow_eq]
  cases accumulate <;> rfl

theorem ofTasks_rowByRow (data : Matrix ℝ B.rows d) (centres : Matrix ℝ K d) (hL : 0 < L)
    (h : Lanes.covered L K ≤ ld) (accumulate : Bool) (labels : Vector (Fin K) B.rows)
    {tasks : List (List ℕ)} (htasks : tasks.flatten = List.range B.count) :
    ofTasks B data centres (paddedNorms centres ld) h accumulate labels tasks =
      rowByRow data centres accumulate labels := by
  rw [ofTasks_eq]
  exact ofGrouping_rowByRow hB data centres hL h accumulate labels
    ((Grouping.blocks_ofTasks tasks).trans htasks)

end Blocks

omit [RealFormat] in
theorem sum_card_members (labels : Vector (Fin K) n) : ∑ l, (members labels l).card = n :=
  calc ∑ l, (members labels l).card
      = (Finset.univ : Finset (Fin n)).card :=
        (Finset.card_eq_sum_card_fiberwise fun i _ => Finset.mem_univ (labels.get i)).symm
    _ = n := Finset.card_fin n

/-- **Every row is counted once.** However the blocks are shared out among tasks and their results
merged, the assignment is that of a loop through the rows: a row gets the first of its nearest
centres, the totals that were asked for are the sums and numbers of the rows with each label, and
without them the labels are the same. -/
theorem groupings_agree [hc : Clustered n K] (w : Lanes.Width) (size : ℕ) (data : Matrix ℝ n d)
    (centres : Matrix ℝ K d) (h : Lanes.covered (w.lanes (Scalar.bytes ℝ)) K ≤ ld)
    (labels : Vector (Fin K) n) (g : Grouping)
    (hg : g.blocks = List.range (RowBlocks.ofRows n size).count) :
    have : Clustered (RowBlocks.ofRows n size).rows K := hc
    let B := RowBlocks.ofRows n size
    let a (accumulate : Bool) : Assignment ℝ n K d :=
      ofGrouping B data centres (paddedNorms centres ld) h accumulate g labels
    (∀ accumulate, a accumulate = rowByRow data centres accumulate labels ∧
        inBlocks w size data centres accumulate labels = rowByRow data centres accumulate labels ∧
        ∀ tasks : List (List ℕ), tasks.flatten = List.range B.count →
          ofTasks B data centres (paddedNorms centres ld) h accumulate labels tasks =
            rowByRow data centres accumulate labels) ∧
      (∀ i, FirstNearest (data.get i) centres ((a true).labels.get i)) ∧
      (∃ t, (a true).totals = some t ∧
        (∀ l k, (t.sums.get l).get k = ∑ i ∈ members (a true).labels l, (data.get i).get k) ∧
        (∀ l, t.counts.get l = (members (a true).labels l).card) ∧ ∑ l, t.counts.get l = n) ∧
      (a false).labels = (a true).labels ∧ (a false).totals = none := by
  intro _ B a
  have hB := RowBlocks.rows_le_count_mul_size n size
  have hL := Lanes.Width.lanes_pos scalar_bytes w
  have ha (accumulate : Bool) : a accumulate = rowByRow data centres accumulate labels :=
    ofGrouping_rowByRow hB data centres hL h accumulate labels hg
  refine ⟨fun accumulate => ⟨ha accumulate, ?_, fun tasks htasks => ?_⟩, ?_, ?_, ?_, ?_⟩
  · rw [inBlocks_eq, rowByRow_eq]
  · exact ofTasks_rowByRow hB data centres hL h accumulate labels htasks
  · rw [ha, rowByRow_eq]
    exact fun i => firstNearests_spec data.get centres i
  · rw [ha, rowByRow_eq]
    refine ⟨_, rfl, ofLabels_sums _, ofLabels_counts _, ?_⟩
    simp only [ofLabels_counts]
    exact sum_card_members _
  · rw [ha, ha, rowByRow_eq, rowByRow_eq]
  · rw [ha, rowByRow_eq]
    rfl

omit [RealFormat] in
/-- Five rows in blocks of two, the last of them short: one task for the first block, one for the other
two, and a merger with no task at all in between. -/
theorem groupings_agree_five_rows :
    letI := RealFormat.plain
    let data : Matrix ℝ 5 1 := #v[#v[0], #v[10], #v[1], #v[9], #v[2]]
    let centres : Matrix ℝ 2 1 := #v[#v[0], #v[10]]
    let labels : Vector (Fin 2) 5 := #v[0, 0, 0, 0, 0]
    let g : Grouping := .join (.task [0]) (.join .nothing (.task [1, 2]))
    let B := RowBlocks.ofRows 5 2
    Clustered 5 2 ∧ g.blocks = List.range B.count ∧
      ∃ h : Lanes.covered (Lanes.Width.lanes (Scalar.bytes ℝ) .avx2) 2 ≤ 6,
        let a := ofGrouping B data centres (paddedNorms centres 6) h true g labels
        a = rowByRow data centres true labels ∧ a.labels = #v[0, 1, 0, 1, 0] ∧
          ∃ t, a.totals = some t ∧ ∑ l, t.counts.get l = 5 := by
  let _ := RealFormat.plain
  intro data centres labels g B
  have h : Lanes.covered (Lanes.Width.lanes (Scalar.bytes ℝ) .avx2) 2 ≤ 6 := by
    show Lanes.covered (Lanes.Width.lanes 8 .avx2) 2 ≤ 6
    decide
  have hg : g.blocks = List.range B.count := by decide
  obtain ⟨hloop, hfirst, ⟨t, ht, -, -, hsum⟩, -⟩ := groupings_agree .avx2 2 data centres h labels g hg
  refine ⟨inferInstance, hg, h, (hloop true).1, ?_, t, ht, hsum⟩
  have hx (i : Fin 5) : (data.get i).get 0 = ![0, 10, 1, 9, 2] i := by fin_cases i <;> rfl
  have hc (l : Fin 2) : (centres.get l).get 0 = ![0, 10] l := by fin_cases l <;> rfl
  have own (i : Fin 5) (l : Fin 2) (hl : Nearest (data.get i) centres l) : l = ![0, 1, 0, 1, 0] i := by
    have hle := Point.dist_le_iff.1 (hl (![0, 1, 0, 1, 0] i))
    rw [Point.sqDist_line, Point.sqDist_line, hx, hc, hc] at hle
    fin_cases i <;> fin_cases l <;> first | rfl | norm_num at hle
  refine Vector.ext_get fun (i : Fin 5) => (own i _ (hfirst i).nearest).trans ?_
  fin_cases i <;> rfl

end Assignment

end

end Proximity
