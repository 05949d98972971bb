import Proximity.Proofs.Convergence

/-!
# New rows

A published model labels new rows and measures their distances to its centres. The two go through
different tables: labels come from cross terms and norms of the centres, block by block, and
distances from the whole expansion, clamped and under a root. In exact arithmetic the label of a row
is nevertheless the first column at which its row of distances is least.

1. `Engine.centresFor_eq` and `Grid.withCols?_eq`: rows with the features of the centres are accepted.
2. `Engine.predict_eq` and `Engine.transform_eq`: the first nearest centres, and the distances.
3. `Engine.predict_isLeast`.
-/

namespace Proximity

noncomputable section

/-! ## Rows that fit the centres -/

section Shapes

variable {α : Type}

/-- The rows of a grid, read with a number of columns that is equal to its own. -/
def Grid.rowsAs {c : ℕ} (g : Grid α) (h : g.cols = c) : Matrix α g.rows c :=
  Matrix.ofFn fun i j => g.entry i (j.cast h.symm)

theorem Grid.rowsAs_entry {c : ℕ} (g : Grid α) (h : g.cols = c) (i : Fin g.rows) (j : Fin c) :
    (g.rowsAs h).entry i j = g.entry i (j.cast h.symm) := by
  unfold rowsAs Matrix.entry Matrix.ofFn
  rw [Vector.get_ofFn, Vector.get_ofFn]

theorem Grid.withCols?_eq {c : ℕ} {g : Grid α} (h : g.cols = c) :
    g.withCols? c = some (g.rowsAs h) := dif_pos ⟨rfl, h⟩

namespace Engine

variable {e : Engine α} {m : Model α} {g : Grid α}

theorem centresFor_eq (hm : e.model = some m) (hrows : 0 < g.rows)
    (hcols : g.cols = m.centres.cols) : e.centresFor g = .ok m.centres := by
  have hpublished : e.centres = .ok m.centres := by
    unfold centres published
    rw [hm]
    rfl
  rw [centresFor, hpublished]
  show (if g.rows = 0 then _ else if g.cols ≠ m.centres.cols then _ else _) = _
  rw [if_neg hrows.ne', if_neg (not_not.2 hcols)]

end Engine

end Shapes

/-! ## Labels and distances -/

namespace Engine

variable [RealFormat] {e : Engine ℝ} {m : Model ℝ} {g : Grid ℝ}

/-- New rows get their first nearest centres, whatever the width of the kernel. -/
theorem predict_eq [Machine] [hK : Positive m.centres.rows] (hm : e.model = some m) (hrows : 0 < g.rows)
    (hcols : g.cols = m.centres.cols) :
    e.predict g =
      .ok (labelNumbers (firstNearests (g.rowsAs hcols).get m.centres.entries)) := by
  unfold predict
  simp only [centresFor_eq hm hrows hcols, Outcome.ofChecked, Except.mapError, bind, Except.bind,
    Grid.withCols?_eq hcols, nearestLabels_eq]
  exact dif_pos hK

theorem transform_eq (hm : e.model = some m) (hrows : 0 < g.rows)
    (hcols : g.cols = m.centres.cols) :
    e.transform g =
      .ok (.ofMatrix (euclideanDistances (g.rowsAs hcols) m.centres.entries false)) := by
  unfold transform
  simp only [centresFor_eq hm hrows hcols, Outcome.ofChecked, Except.mapError, bind, Except.bind,
    Grid.withCols?_eq hcols]
  rfl

/-- The distances of new rows to the centres, coordinate by coordinate. -/
theorem transform_entry (hcols : g.cols = m.centres.cols) (i : Fin g.rows)
    (j : Fin m.centres.rows) :
    (euclideanDistances (g.rowsAs hcols) m.centres.entries false).entry i j =
      √(∑ k, (g.entry i k - m.centres.entry j (k.cast hcols)) ^ 2) := by
  rw [euclideanDistances_entry, if_neg Bool.false_ne_true, Point.dist, Point.sqDist]
  congr 1
  refine Fintype.sum_equiv (finCongr hcols.symm) _ _ fun k => ?_
  have hrow : ((g.rowsAs hcols).get i).get k = g.entry i (k.cast hcols.symm) :=
    g.rowsAs_entry hcols i k
  have hcentre : (m.centres.entries.get j).get k = m.centres.entry j k := by
    unfold Grid.entries Matrix.ofFn
    rw [Vector.get_ofFn, Vector.get_ofFn]
  rw [hrow, hcentre]
  rfl

/-- **Labels and distances agree.** A model with centres labels and measures all rows with its
features: an entry of the table is the Euclidean distance of its row to its centre, and the label of
a row is the first column at which its row of the table is least. -/
theorem predict_isLeast [Machine] (hm : e.model = some m) (hK : 0 < m.centres.rows) (hrows : 0 < g.rows)
    (hcols : g.cols = m.centres.cols) :
    ∃ (labels : Vector (Fin m.centres.rows) g.rows) (table : Matrix ℝ g.rows m.centres.rows),
      e.predict g = .ok (labelNumbers labels) ∧ e.transform g = .ok (.ofMatrix table) ∧
      (∀ i j, table.entry i j = √(∑ k, (g.entry i k - m.centres.entry j (k.cast hcols)) ^ 2)) ∧
      ∀ i, IsLeast {j | ∀ j', table.entry i j ≤ table.entry i j'} (labels.get i) := by
  have : Positive m.centres.rows := ⟨hK⟩
  refine ⟨_, _, predict_eq hm hrows hcols, transform_eq hm hrows hcols,
    transform_entry hcols, fun i => ?_⟩
  have hfirst := firstNearests_spec (g.rowsAs hcols).get m.centres.entries i
  have hentry (j : Fin m.centres.rows) :
      (euclideanDistances (g.rowsAs hcols) m.centres.entries false).entry i j =
        ((g.rowsAs hcols).get i).dist (m.centres.entries.get j) :=
    euclideanDistances_entry _ _ _ _ _
  simp only [hentry]
  constructor
  · exact hfirst.nearest
  · intro j hj
    exact hfirst.first j hj

omit [RealFormat] in
/-- A row halfway between two centres gets the first of them. -/
theorem predict_isLeast_two_centres :
    letI := RealFormat.plain
    letI := Machine.standard
    let m : Model ℝ := ⟨.ofMatrix (#v[#v[0], #v[2]] : Matrix ℝ 2 1), #[], 0, 0, true⟩
    let e : Engine ℝ := ⟨{}, none, none, some m⟩
    let g : Grid ℝ := .ofMatrix (#v[#v[1]] : Matrix ℝ 1 1)
    (e.model = some m ∧ 0 < m.centres.rows ∧ 0 < g.rows ∧ g.cols = m.centres.cols) ∧
      ∃ (labels : Vector (Fin 2) 1) (table : Matrix ℝ 1 2),
        e.predict g = .ok (labelNumbers labels) ∧ e.transform g = .ok (.ofMatrix table) ∧
        table.entry 0 0 = table.entry 0 1 ∧ labels.get 0 = 0 := by
  let _ := RealFormat.plain
  let _ := Machine.standard
  intro m e g
  have hm : e.model = some m := rfl
  have hcols : g.cols = m.centres.cols := rfl
  obtain ⟨labels, table, hpredict, htransform, hentry, hleast⟩ :=
    predict_isLeast hm Nat.two_pos Nat.one_pos hcols
  have hrow (k : Fin 1) : g.entry (0 : Fin 1) k = 1 := by
    fin_cases k
    exact Grid.entry_ofMatrix _ 0 0
  have hcentre (j : Fin 2) (k : Fin 1) : m.centres.entry j k = 2 * j := by
    fin_cases j <;> fin_cases k
    · exact (Grid.entry_ofMatrix _ 0 0).trans (by simp [Matrix.entry])
    · exact (Grid.entry_ofMatrix _ 1 0).trans (by simp [Matrix.entry])
  have hone (j : Fin 2) : table.entry (0 : Fin 1) j = 1 := by
    refine (hentry (0 : Fin 1) j).trans ?_
    show √(∑ k : Fin 1, (g.entry (0 : Fin 1) k - m.centres.entry j k) ^ 2) = 1
    simp only [hrow, hcentre]
    fin_cases j <;> norm_num
  have htie : table.entry (0 : Fin 1) (0 : Fin 2) = table.entry (0 : Fin 1) (1 : Fin 2) :=
    (hone 0).trans (hone 1).symm
  refine ⟨⟨hm, Nat.two_pos, Nat.one_pos, hcols⟩, labels, table, hpredict, htransform, htie, ?_⟩
  have hle : labels.get (0 : Fin 1) ≤ (0 : Fin 2) :=
    (hleast (0 : Fin 1)).2 fun j' => ((hone 0).trans (hone j').symm).le
  exact Fin.le_zero_iff.1 hle

end Engine

end

end Proximity
