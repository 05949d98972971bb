import Proximity.Neighbours.Exhaustive
import Proximity.Proofs.Assignment

/-!
# Close pairs

The tiles of the exhaustive radius search meet every pair of rows once, the smaller row first, and in an
order in which the partners of any one row ascend. The lists made of the pairs are therefore ascending,
and row `i` is in the list of `v` exactly where the test holds for the two, whatever the tiles are.
-/

namespace Proximity

/-! ## Lists from pairs -/

section Lists

variable {n : ℕ}

/-- The other rows of a pair that `v` belongs to. -/
def partners (v : Fin n) (p : Fin n × Fin n) : List (Fin n) :=
  (if p.1 = v then [p.2] else []) ++ if p.2 = v then [p.1] else []

theorem mem_partners {v x : Fin n} {p : Fin n × Fin n} :
    x ∈ partners v p ↔ p = (v, x) ∨ p = (x, v) := by
  obtain ⟨i, j⟩ := p
  simp only [partners, List.mem_append, Prod.mk.injEq]
  apply or_congr
  · by_cases h : i = v
    · simp [h, eq_comm]
    · simp [h]
  · by_cases h : j = v
    · simp [h, eq_comm]
    · simp [h]

/-- The list of a row has its partners in the order of the pairs. -/
theorem neighbourLists_get (pairs : List (Fin n × Fin n)) (v : Fin n) :
    (neighbourLists pairs).get v = pairs.flatMap (partners v) := by
  let record (lists : Vector (List (Fin n)) n) (i j : Fin n) := lists.put i (j :: lists.get i)
  have hget (lists : Vector (List (Fin n)) n) (i j : Fin n) : (record lists i j).get v =
      (if i = v then [j] else []) ++ lists.get v := by
    rw [Vector.get_put]
    split
    next h => rw [h]; rfl
    next => rfl
  have hfold (lists : Vector (List (Fin n)) n) :
      (pairs.foldl (fun lists p => record (record lists p.1 p.2) p.2 p.1) lists).get v =
        (pairs.flatMap (partners v)).reverse ++ lists.get v := by
    induction pairs generalizing lists with
    | nil => rfl
    | cons p pairs ih =>
      rw [List.foldl_cons, ih, hget, hget, List.flatMap_cons, List.reverse_append, List.append_assoc,
        partners, List.reverse_append]
      congr 1
      split <;> split <;> rfl
  rw [neighbourLists, Vector.get_map]
  refine (congrArg List.reverse (hfold _)).trans ?_
  rw [Vector.get_replicate, List.append_nil, List.reverse_reverse]

end Lists

/-! ## The order of the tiles -/

namespace RowBlocks

variable {B : RowBlocks} (near : Fin B.rows → Fin B.rows → Bool)

/-- The order of the search: by column tile, row tile, column and row. -/
def Precedes (B : RowBlocks) (p q : Fin B.rows × Fin B.rows) : Prop :=
  p.2.val / B.size < q.2.val / B.size ∨ p.2.val / B.size = q.2.val / B.size ∧
    (p.1.val / B.size < q.1.val / B.size ∨ p.1.val / B.size = q.1.val / B.size ∧
      (p.2 < q.2 ∨ p.2 = q.2 ∧ p.1 < q.1))

theorem rowOf_div {b : ℕ} (r : Fin (B.length b)) : (B.rowOf b r).val / B.size = b := by
  have hr := r.isLt.trans_le (B.length_le_size b)
  show (b * B.size + r.val) / B.size = b
  rw [Nat.mul_comm, Nat.mul_add_div (by omega), Nat.div_eq_of_lt hr, Nat.add_zero]

theorem rowOf_lt {b : ℕ} {r r' : Fin (B.length b)} : B.rowOf b r < B.rowOf b r' ↔ r < r' := by
  show B.start b + r.val < B.start b + r'.val ↔ _
  rw [Nat.add_lt_add_iff_left]
  rfl

/-- The blocks ascend with their rows. -/
theorem le_of_rowOf_le {I J : ℕ} {r : Fin (B.length I)} {c : Fin (B.length J)}
    (h : B.rowOf I r ≤ B.rowOf J c) : I ≤ J := by
  have := Nat.div_le_div_right (c := B.size) (Fin.le_def.1 h)
  rwa [rowOf_div, rowOf_div] at this

/-- A pair of rows and its tile. -/
theorem mem_pairsOfTile {tile : ℕ × ℕ} {p : Fin B.rows × Fin B.rows} :
    p ∈ B.pairsOfTile near tile ↔
      ∃ (r : Fin (B.length tile.1)) (c : Fin (B.length tile.2)),
        p = (B.rowOf tile.1 r, B.rowOf tile.2 c) ∧ (tile.1 ≠ tile.2 ∨ r.val < c.val) ∧
          near p.1 p.2 = true := by
  simp only [pairsOfTile, List.mem_flatMap, List.mem_finRange, true_and, List.mem_map,
    List.mem_filter, Bool.and_eq_true, Bool.or_eq_true, decide_eq_true_eq]
  constructor
  · rintro ⟨c, r, ⟨hside, hnear⟩, rfl⟩
    exact ⟨r, c, rfl, hside, hnear⟩
  · rintro ⟨r, c, rfl, hside, hnear⟩
    exact ⟨c, r, ⟨hside, hnear⟩, rfl⟩

theorem mem_upperTiles {tile : ℕ × ℕ} : tile ∈ B.upperTiles ↔ tile.2 < B.count ∧ tile.1 ≤ tile.2 := by
  obtain ⟨i, j⟩ := tile
  simp only [upperTiles, List.mem_flatMap, List.mem_range, List.mem_map, Prod.mk.injEq]
  constructor
  · rintro ⟨_, hj, _, hi, rfl, rfl⟩
    exact ⟨hj, Nat.lt_succ_iff.1 hi⟩
  · rintro ⟨hj, hi⟩
    exact ⟨j, hj, i, Nat.lt_succ_iff.2 hi, rfl, rfl⟩

/-- The pairs of a tile lie in it. -/
theorem tile_of_mem {tile : ℕ × ℕ} {p : Fin B.rows × Fin B.rows} (h : p ∈ B.pairsOfTile near tile) :
    p.1.val / B.size = tile.1 ∧ p.2.val / B.size = tile.2 := by
  obtain ⟨r, c, rfl, -⟩ := (mem_pairsOfTile near).1 h
  exact ⟨rowOf_div r, rowOf_div c⟩

theorem exists_rowOf (hB : B.rows ≤ B.count * B.size) (i : Fin B.rows) :
    ∃ b < B.count, ∃ r : Fin (B.length b), B.rowOf b r = i := by
  have hi := List.mem_finRange i
  rw [← flatMap_rowOf hB] at hi
  obtain ⟨b, hb, hr⟩ := List.mem_flatMap.1 hi
  obtain ⟨r, -, hr⟩ := List.mem_map.1 hr
  exact ⟨b, List.mem_range.1 hb, r, hr⟩

/-- How the tiles are shared out does not matter. -/
theorem closePairs_eq {tasks : List (List (ℕ × ℕ))} (htasks : tasks.flatten = B.upperTiles) :
    B.closePairs near tasks = B.upperTiles.flatMap (B.pairsOfTile near) := by
  rw [closePairs, ← htasks, ← List.flatMap_id, List.flatMap_assoc]
  rfl

/-- The search finds the pairs that pass the test, the smaller row first. -/
theorem mem_closePairs (hB : B.rows ≤ B.count * B.size) {tasks : List (List (ℕ × ℕ))}
    (htasks : tasks.flatten = B.upperTiles) {p : Fin B.rows × Fin B.rows} :
    p ∈ B.closePairs near tasks ↔ p.1 < p.2 ∧ near p.1 p.2 = true := by
  rw [closePairs_eq near htasks, List.mem_flatMap]
  constructor
  · rintro ⟨⟨I, J⟩, htile, hp⟩
    have hle : I ≤ J := (mem_upperTiles.1 htile).2
    obtain ⟨r, c, rfl, hside, hnear⟩ := (mem_pairsOfTile near).1 hp
    refine ⟨?_, hnear⟩
    rcases hle.lt_or_eq with hlt | rfl
    · exact lt_of_not_ge fun hle => hlt.not_ge (le_of_rowOf_le hle)
    · exact rowOf_lt.2 (hside.resolve_left (not_not.2 rfl))
  · rintro ⟨hlt, hnear⟩
    obtain ⟨i, j⟩ := p
    obtain ⟨I, -, r, rfl⟩ := exists_rowOf hB i
    obtain ⟨J, hJ, c, rfl⟩ := exists_rowOf hB j
    have hle : I ≤ J := le_of_rowOf_le hlt.le
    refine ⟨(I, J), mem_upperTiles.2 ⟨hJ, hle⟩, (mem_pairsOfTile near).2 ⟨r, c, rfl, ?_, hnear⟩⟩
    by_cases heq : I = J
    · subst heq
      exact Or.inr (rowOf_lt.1 hlt)
    · exact Or.inl heq

theorem pairwise_upperTiles (B : RowBlocks) :
    B.upperTiles.Pairwise fun t u => t.2 < u.2 ∨ t.2 = u.2 ∧ t.1 < u.1 := by
  unfold upperTiles
  refine List.pairwise_flatMap.2 ⟨fun j _ => ?_, ?_⟩
  · refine List.pairwise_map.2 (List.pairwise_lt_range.imp fun h => Or.inr ⟨rfl, h⟩)
  · refine List.pairwise_lt_range.imp fun {j k} hjk t ht u hu => Or.inl ?_
    obtain ⟨_, -, rfl⟩ := List.mem_map.1 ht
    obtain ⟨_, -, rfl⟩ := List.mem_map.1 hu
    exact hjk

theorem pairwise_pairsOfTile (tile : ℕ × ℕ) :
    (B.pairsOfTile near tile).Pairwise fun p q => p.2 < q.2 ∨ p.2 = q.2 ∧ p.1 < q.1 := by
  unfold pairsOfTile
  refine List.pairwise_flatMap.2 ⟨fun c _ => ?_, ?_⟩
  · refine List.pairwise_map.2 (((List.pairwise_lt_finRange _).filter _).imp fun h => ?_)
    exact Or.inr ⟨rfl, rowOf_lt.2 h⟩
  · refine (List.pairwise_lt_finRange _).imp fun {c c'} hcc p hp q hq => Or.inl ?_
    obtain ⟨_, -, rfl⟩ := List.mem_map.1 hp
    obtain ⟨_, -, rfl⟩ := List.mem_map.1 hq
    exact rowOf_lt.2 hcc

theorem pairwise_closePairs {tasks : List (List (ℕ × ℕ))} (htasks : tasks.flatten = B.upperTiles) :
    (B.closePairs near tasks).Pairwise B.Precedes := by
  rw [closePairs_eq near htasks]
  refine List.pairwise_flatMap.2 ⟨fun tile _ => ?_, ?_⟩
  · refine (pairwise_pairsOfTile near tile).imp_of_mem fun {p q} hp hq hpq => ?_
    have htile := tile_of_mem near hp
    have htile' := tile_of_mem near hq
    exact Or.inr ⟨by rw [htile.2, htile'.2], Or.inr ⟨by rw [htile.1, htile'.1], hpq⟩⟩
  · refine (pairwise_upperTiles B).imp fun {t u} htu p hp q hq => ?_
    rw [Precedes, (tile_of_mem near hp).1, (tile_of_mem near hp).2, (tile_of_mem near hq).1,
      (tile_of_mem near hq).2]
    exact htu.imp_right fun h => ⟨h.1, Or.inl h.2⟩

/-- Of two pairs that a row is in the later one has the greater partner. -/
theorem Precedes.partners_lt {p q : Fin B.rows × Fin B.rows} (h : B.Precedes p q) (hp : p.1 < p.2)
    (hq : q.1 < q.2) {v x y : Fin B.rows} (hx : x ∈ partners v p) (hy : y ∈ partners v q) : x < y := by
  have lt_of_div {i j : Fin B.rows} (hij : i.val / B.size < j.val / B.size) : i < j :=
    lt_of_not_ge fun hji => (Nat.div_le_div_right (Fin.le_def.1 hji)).not_gt hij
  rcases mem_partners.1 hx with rfl | rfl
  · rcases mem_partners.1 hy with rfl | rfl
    · -- the row is the smaller one in both pairs
      rcases h with hcol | ⟨-, htile | ⟨-, hcol | ⟨-, hrow⟩⟩⟩
      · exact lt_of_div hcol
      · exact absurd htile (lt_irrefl _)
      · exact hcol
      · exact absurd hrow (lt_irrefl _)
    · -- a pair comes after those whose greater row is its smaller one
      rcases h with hcol | ⟨-, htile | ⟨-, hcol | ⟨heq, -⟩⟩⟩
      · exact absurd (lt_of_div hcol) hp.asymm
      · exact absurd (lt_of_div htile) hq.asymm
      · exact absurd hcol hp.asymm
      · exact absurd heq hp.ne'
  · rcases mem_partners.1 hy with rfl | rfl
    · exact hp.trans hq
    · -- the row is the greater one in both pairs
      rcases h with hcol | ⟨-, htile | ⟨-, hcol | ⟨-, hrow⟩⟩⟩
      · exact absurd hcol (lt_irrefl _)
      · exact lt_of_div htile
      · exact absurd hcol (lt_irrefl _)
      · exact hrow

end RowBlocks

/-- The list of each row is ascending, and it has the rows that are near. -/
theorem neighbours_spec {B : RowBlocks} (hB : B.rows ≤ B.count * B.size)
    (near : Fin B.rows → Fin B.rows → Bool) {tasks : List (List (ℕ × ℕ))}
    (htasks : tasks.flatten = B.upperTiles) (v : Fin B.rows) :
    ((neighbourLists (B.closePairs near tasks)).get v).Pairwise (· < ·) ∧
      ∀ i, i ∈ (neighbourLists (B.closePairs near tasks)).get v ↔
        i < v ∧ near i v = true ∨ v < i ∧ near v i = true := by
  have hmem {p : Fin B.rows × Fin B.rows} := B.mem_closePairs near hB htasks (p := p)
  rw [neighbourLists_get]
  constructor
  · refine List.pairwise_flatMap.2 ⟨fun p hp => ?_, ?_⟩
    · have hne := (hmem.1 hp).1
      unfold partners
      by_cases h : p.1 = v
      · rw [if_pos h, if_neg (h ▸ hne.ne')]
        exact List.pairwise_singleton _ _
      · rw [if_neg h, List.nil_append]
        split
        · exact List.pairwise_singleton _ _
        · exact List.Pairwise.nil
    · refine (B.pairwise_closePairs near htasks).imp_of_mem fun {p q} hp hq hpq x hx y hy => ?_
      exact hpq.partners_lt (hmem.1 hp).1 (hmem.1 hq).1 hx hy
  · intro i
    rw [List.mem_flatMap]
    constructor
    · rintro ⟨p, hp, hi⟩
      obtain ⟨hlt, hnear⟩ := hmem.1 hp
      rcases mem_partners.1 hi with rfl | rfl
      · exact Or.inr ⟨hlt, hnear⟩
      · exact Or.inl ⟨hlt, hnear⟩
    · rintro (⟨hlt, hnear⟩ | ⟨hlt, hnear⟩)
      · exact ⟨(i, v), hmem.2 ⟨hlt, hnear⟩, mem_partners.2 (Or.inr rfl)⟩
      · exact ⟨(v, i), hmem.2 ⟨hlt, hnear⟩, mem_partners.2 (Or.inl rfl)⟩

end Proximity
