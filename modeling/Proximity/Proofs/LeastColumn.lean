import Proximity.Lanes.Nearest
import Proximity.Proofs.Comparisons

/-!
# The least column of a row

The assignment kernel on rounded numbers. The sums of a row's columns with their norms may be
infinite or no numbers. Whatever the number of lanes and whatever stands in the padding, the kernel
finds the column that a search through the columns one after another finds: the first of those whose
sum is below infinity and no larger than any other, and column zero where no sum is below infinity.

1. `Best.Found`: what a search has found among some columns. A further column (`Found.improve`), the
   merger of two searches (`Found.merge`) and columns that cannot win (`Found.restrict`) keep it.
2. `nearest_firstLeast`: lanes find the first least column, as `scan` does.
3. `foldlM_countRow`: the counts grow by the rows of each column.
-/

namespace Proximity.Lanes

variable {α : Type} [LT α] [DecidableLT α] [BEq α] [Scalar α] {L K ld : ℕ}

/-! ## Searches -/

namespace Best

/-- A search has found nothing, or a sum below infinity. -/
def Proper (b : Best α) : Prop := b.value = none ∨ b.value.lt none

/-- If the sum of `b` is below infinity, that of `a` is less, or no larger and in no later column. -/
def Ahead (a b : Best α) : Prop :=
  b.value.lt none → a.value.lt b.value ∨ b.value.lt a.value = false ∧ a.column ≤ b.column

omit [BEq α] in
/-- Ahead of a sum below infinity there is one. -/
theorem Ahead.below {a b : Best α} (h : a.Ahead b) (ha : a.Proper) (hb : b.value.lt none) :
    a.value.lt none := by
  refine ha.resolve_left fun hnone => ?_
  rcases h hb with hlt | ⟨hge, -⟩
  · rw [hnone, Extended.lt_none_left] at hlt
    cases hlt
  · rw [hnone, hb] at hge
    cases hge

variable [RoundedOrder α]

theorem Ahead.refl (a : Best α) : a.Ahead a :=
  fun _ => Or.inr ⟨Extended.lt_irrefl _, le_rfl⟩

theorem Ahead.trans {a b c : Best α} (hab : a.Ahead b) (hbc : b.Ahead c) (ha : a.Proper)
    (hb : b.Proper) : a.Ahead c := by
  intro hc
  have hb := hbc.below hb hc
  have ha := hab.below ha hb
  rcases hab hb with hab | ⟨hba, hcolumn⟩
  · rcases hbc hc with hbc | ⟨hcb, -⟩
    · exact Or.inl (Extended.lt_trans hab hbc)
    · exact Or.inl ((Extended.lt_or_lt hc hab).resolve_right (by simp [hcb]))
  · rcases hbc hc with hbc | ⟨hcb, hcolumn'⟩
    · exact Or.inl ((Extended.lt_or_lt ha hbc).resolve_left (by simp [hba]))
    · refine Or.inr ⟨?_, hcolumn.trans hcolumn'⟩
      by_contra hca
      rcases Extended.lt_or_lt hb (Bool.not_eq_false _ ▸ hca) with h | h
      · rw [hcb] at h; cases h
      · rw [hba] at h; cases h

/-- A later candidate comes ahead only with a smaller sum. -/
theorem improve_ahead (b : Best α) (v : Extended α) {j : ℕ} (hj : b.column ≤ j) :
    (b.improve v j).Ahead b ∧ (b.improve v j).Ahead ⟨v, j⟩ := by
  unfold improve
  split
  next hlt => exact ⟨fun _ => Or.inl hlt, .refl _⟩
  next hge => exact ⟨.refl _, fun _ => Or.inr ⟨Bool.eq_false_iff.2 hge, hj⟩⟩

theorem merge_ahead {a b : Best α} (ha : a.Proper) (hb : b.Proper) :
    (a.merge b).Ahead a ∧ (a.merge b).Ahead b := by
  unfold merge
  split
  next hwin =>
    refine ⟨fun _ => ?_, .refl b⟩
    rw [Bool.or_eq_true, Bool.and_eq_true, decide_eq_true_iff] at hwin
    exact hwin.imp id fun htie => ⟨((Extended.same_iff hb ha).1 htie.1).2, htie.2.le⟩
  next hlose =>
    refine ⟨.refl a, fun _ => ?_⟩
    rw [Bool.or_eq_true, Bool.and_eq_true, decide_eq_true_iff, not_or, Bool.not_eq_true] at hlose
    by_cases hlt : a.value.lt b.value
    · exact Or.inl hlt
    · refine Or.inr ⟨hlose.1, not_lt.1 fun hcolumn => hlose.2 ⟨?_, hcolumn⟩⟩
      exact (Extended.same_iff hb ha).2 ⟨hlose.1, Bool.eq_false_iff.2 hlt⟩

/-- What a search has found among the columns `S`: one of them, with a sum below infinity, or nothing,
and no column is ahead of it. -/
structure Found (sum : ℕ → Extended α) (S : Set ℕ) (b : Best α) : Prop where
  source : b = empty ∨ b.column ∈ S ∧ sum b.column = b.value ∧ b.value.lt none
  ahead : ∀ k ∈ S, b.Ahead ⟨sum k, k⟩

namespace Found

variable {sum : ℕ → Extended α} {S T : Set ℕ} {a b : Best α}

omit [RoundedOrder α] [BEq α] in
theorem proper (h : Found sum S b) : b.Proper :=
  h.source.imp (fun h => by rw [h]; rfl) fun h => h.2.2

omit [RoundedOrder α] [BEq α] in
theorem nothing : Found sum ∅ empty := ⟨Or.inl rfl, fun _ hk => hk.elim⟩

/-- A column after all others is found if its sum is less. -/
theorem improve (h : Found sum S b) {j : ℕ} (hj : ∀ k ∈ S, k < j) :
    Found sum (insert j S) (b.improve (sum j) j) := by
  have hcolumn : b.column ≤ j := by
    rcases h.source with rfl | ⟨hmem, -, -⟩
    · exact Nat.zero_le j
    · exact (hj _ hmem).le
  obtain ⟨hb, hnew⟩ := improve_ahead b (sum j) hcolumn
  have source : b.improve (sum j) j = empty ∨ (b.improve (sum j) j).column ∈ insert j S ∧
      sum (b.improve (sum j) j).column = (b.improve (sum j) j).value ∧
      (b.improve (sum j) j).value.lt none := by
    unfold Best.improve
    split
    next hlt => exact Or.inr ⟨Or.inl rfl, rfl, Extended.below_of_lt hlt⟩
    next => exact h.source.imp id fun hs => ⟨Or.inr hs.1, hs.2⟩
  refine ⟨source, fun k hk => ?_⟩
  rcases hk with rfl | hk
  · exact hnew
  · refine hb.trans (h.ahead k hk) ?_ h.proper
    exact source.imp (fun h => by rw [h]; rfl) fun h => h.2.2

/-- The better of two searches is found among the columns of both. -/
theorem merge (ha : Found sum S a) (hb : Found sum T b) : Found sum (S ∪ T) (a.merge b) := by
  obtain ⟨hleft, hright⟩ := merge_ahead ha.proper hb.proper
  have either : a.merge b = a ∨ a.merge b = b := by
    unfold Best.merge
    split
    next => exact Or.inr rfl
    next => exact Or.inl rfl
  have hproper : (a.merge b).Proper := by
    rcases either with h | h <;> rw [h]
    · exact ha.proper
    · exact hb.proper
  constructor
  · rcases either with h | h <;> rw [h]
    · exact ha.source.imp id fun hs => ⟨Or.inl hs.1, hs.2⟩
    · exact hb.source.imp id fun hs => ⟨Or.inr hs.1, hs.2⟩
  · rintro k (hk | hk)
    · exact hleft.trans (ha.ahead k hk) hproper ha.proper
    · exact hright.trans (hb.ahead k hk) hproper hb.proper

omit [RoundedOrder α] [BEq α] in
/-- Columns without a sum below infinity make no difference to a search. -/
theorem restrict (h : Found sum S b) (hTS : T ⊆ S)
    (hrest : ∀ j ∈ S, j ∉ T → (sum j).lt none = false) : Found sum T b := by
  refine ⟨h.source.imp id fun ⟨hmem, hsum, hbelow⟩ => ⟨?_, hsum, hbelow⟩, fun k hk => h.ahead k (hTS hk)⟩
  by_contra hT
  have := hrest _ hmem hT
  rw [hsum, hbelow] at this
  cases this

end Found

end Best

/-! ## The first of the least sums -/

/-- The columns whose sum is below infinity and no larger than another that is. -/
def leastColumns (sums : Fin K → Extended α) : Set (Fin K) :=
  {j | (sums j).lt none ∧ ∀ k, (sums k).lt none → (sums k).lt (sums j) = false}

/-- The first of the columns with a least sum, or zero where no sum is below infinity. -/
def FirstLeast (sums : Fin K → Extended α) (l : ℕ) : Prop :=
  (∃ j, IsLeast (leastColumns sums) j ∧ l = j) ∨ (∀ j, (sums j).lt none = false) ∧ l = 0

omit [BEq α] in
theorem FirstLeast.unique {sums : Fin K → Extended α} {l l' : ℕ} (h : FirstLeast sums l)
    (h' : FirstLeast sums l') : l = l' := by
  rcases h with ⟨j, hj, rfl⟩ | ⟨hnone, rfl⟩ <;> rcases h' with ⟨j', hj', rfl⟩ | ⟨hnone', rfl⟩
  · rw [hj.unique hj']
  · exact absurd hj.1.1 (by simp [hnone'])
  · exact absurd hj'.1.1 (by simp [hnone])
  · rfl

omit [BEq α] in
theorem FirstLeast.lt (hK : 0 < K) {sums : Fin K → Extended α} {l : ℕ} (h : FirstLeast sums l) :
    l < K := by
  rcases h with ⟨j, -, rfl⟩ | ⟨-, rfl⟩
  · exact j.isLt
  · exact hK

/-- Sums of some columns, and infinity past the last of them. -/
def extend {m : ℕ} (sums : Fin m → Extended α) (j : ℕ) : Extended α :=
  if h : j < m then sums ⟨j, h⟩ else none

omit [LT α] [DecidableLT α] [BEq α] [Scalar α] in
@[simp] theorem extend_val {m : ℕ} (sums : Fin m → Extended α) (j : Fin m) :
    extend sums j = sums j := dif_pos j.isLt

variable [RoundedOrder α]

/-- A search among the first columns finds the first with a least sum. -/
theorem Best.Found.firstLeast {sum : ℕ → Extended α} {b : Best α} (h : Found sum {j | j < K} b)
    {sums : Fin K → Extended α} (hsums : ∀ j : Fin K, sum j = sums j) :
    FirstLeast sums b.column := by
  have ahead (j : Fin K) : b.Ahead ⟨sums j, j⟩ := hsums j ▸ h.ahead j j.isLt
  rcases h.source with rfl | ⟨hmem, hsum, hbelow⟩
  · refine Or.inr ⟨fun j => Bool.eq_false_iff.2 fun hj => ?_, rfl⟩
    -- an empty search is ahead of no sum below infinity
    have : (Best.empty : Best α).value.lt none := (ahead j).below (Or.inl rfl) hj
    cases this
  · have hvalue : sums ⟨b.column, hmem⟩ = b.value := (hsums _).symm.trans hsum
    refine Or.inl ⟨⟨b.column, hmem⟩, ⟨⟨?_, fun k hk => ?_⟩, fun k hk => ?_⟩, rfl⟩
    · rw [hvalue]
      exact hbelow
    · rw [hvalue]
      exact (ahead k hk).elim Extended.lt_asymm (·.1)
    · rcases ahead k hk.1 with hlt | ⟨-, hcolumn⟩
      · have hge := hk.2 ⟨b.column, hmem⟩ (by rw [hvalue]; exact hbelow)
        rw [hvalue, hlt] at hge
        cases hge
      · exact hcolumn

/-- The column that a search through the columns one after another finds. -/
def scan (sums : Fin K → Extended α) : ℕ :=
  (Fin.foldl K (fun (best : Best α) j => best.improve (sums j) j) Best.empty).column

theorem scan_firstLeast (sums : Fin K → Extended α) : FirstLeast sums (scan sums) := by
  have found := foldl_invariant (fun m (b : Best α) => b.Found (extend sums) {j | j < m})
    (f := fun best j => best.improve (sums j) j) (n := K) (b := Best.empty)
    (by simpa using Best.Found.nothing) fun j b hb => by
      rw [← extend_val sums j]
      convert hb.improve (fun _ => id) using 1
      ext k
      simp [le_iff_eq_or_lt]
  exact found.firstLeast (extend_val sums)

/-! ## Lanes -/

variable [Add α] {row : Vector α ld} {norms : Vector (Extended α) ld}

theorem laneBest_found (h : covered L K ≤ ld) (l : Fin L) :
    (laneBest row norms h l).Found (extend (columnSum row norms))
      {j | ∃ c < chunks L K, j = c * L + l.val} := by
  unfold laneBest
  refine foldl_invariant (fun m (b : Best α) =>
    b.Found (extend (columnSum row norms)) {j | ∃ c < m, j = c * L + l.val}) ?_ fun c b hb => ?_
  · simpa using Best.Found.nothing
  · rw [← extend_val (columnSum row norms)]
    have hlast : ∀ k ∈ {j | ∃ c' < c.val, j = c' * L + l.val}, k < c.val * L + l.val := by
      rintro k ⟨c', hc', rfl⟩
      have := Nat.mul_lt_mul_of_pos_right hc' (Nat.zero_lt_of_lt l.isLt)
      omega
    convert hb.improve hlast using 1
    ext j
    simp only [Set.mem_ofPred_eq, Set.mem_insert_iff, Nat.lt_succ_iff_lt_or_eq]
    constructor
    · rintro ⟨c', h | rfl, rfl⟩
      · exact Or.inr ⟨c', h, rfl⟩
      · exact Or.inl rfl
    · rintro (rfl | ⟨c', h, rfl⟩)
      · exact ⟨c, Or.inr rfl, rfl⟩
      · exact ⟨c', Or.inl h, rfl⟩

/-- The lanes together search all columns in the chunks. -/
theorem nearest_found (row : Vector α ld) (norms : Vector (Extended α) ld) (h : covered L K ≤ ld) :
    ∃ b : Best α, b.column = nearest row norms h ∧
      b.Found (extend (columnSum row norms)) {j | j < covered L K} := by
  refine ⟨_, rfl, ?_⟩
  have all := foldl_invariant
    (fun m (b : Best α) => b.Found (extend (columnSum row norms))
      {j | ∃ l < m, ∃ c < chunks L K, j = c * L + l})
    (f := fun best l => Best.merge best (laneBest row norms h l)) (n := L) (b := Best.empty)
    (by simpa using Best.Found.nothing) fun l b hb => by
      convert hb.merge (laneBest_found h l) using 1
      ext j
      simp only [Set.mem_ofPred_eq, Set.mem_union, Nat.lt_succ_iff_lt_or_eq]
      constructor
      · rintro ⟨l', hl | rfl, hj⟩
        · exact Or.inl ⟨l', hl, hj⟩
        · exact Or.inr hj
      · rintro (⟨l', hl, hj⟩ | hj)
        · exact ⟨l', Or.inl hl, hj⟩
        · exact ⟨l, Or.inr rfl, hj⟩
  convert all using 1
  ext j
  simp only [Set.mem_ofPred_eq, covered]
  constructor
  · intro hj
    have hL : 0 < L := Nat.pos_of_mul_pos_left (Nat.zero_lt_of_lt hj)
    exact ⟨j % L, Nat.mod_lt _ hL, j / L, Nat.div_lt_of_lt_mul (by rwa [mul_comm]),
      (Nat.div_add_mod' j L).symm⟩
  · rintro ⟨l, hl, c, hc, rfl⟩
    exact column_lt le_rfl ⟨c, hc⟩ ⟨l, hl⟩

/-- The sums of the first `K` columns. -/
def columnSums (row : Vector α ld) (norms : Vector (Extended α) ld) (hK : K ≤ ld) :
    Fin K → Extended α := fun j => columnSum row norms (j.castLE hK)

/-- Norms with which no sum past column `K` is below infinity. -/
def Padded (K : ℕ) (norms : Vector (Extended α) ld) : Prop :=
  ∀ j : Fin ld, K ≤ j → (norms.get j).Endless

theorem nearest_firstLeast (row : Vector α ld) (hL : 0 < L) (h : covered L K ≤ ld) (hpad : Padded K norms) :
    FirstLeast (columnSums row norms ((le_covered hL K).trans h)) (nearest row norms h) := by
  have hK : K ≤ covered L K := le_covered hL K
  obtain ⟨b, hb, found⟩ := nearest_found row norms h
  have padding : ∀ j < covered L K, K ≤ j → (extend (columnSum row norms) j).lt none = false := by
    intro j hj hge
    have hld : j < ld := hj.trans_le h
    rw [extend, dif_pos hld, columnSum]
    have endless := hpad ⟨j, hld⟩ hge (row.get ⟨j, hld⟩)
    cases hsum : (norms.get ⟨j, hld⟩).map (row.get ⟨j, hld⟩ + ·) with
    | none => rfl
    | some s => exact endless s hsum
  rw [← hb]
  have first := found.restrict (T := {j | j < K}) (fun j hj => lt_of_lt_of_le hj hK)
    fun j hj hge => padding j hj (not_lt.1 hge)
  exact first.firstLeast fun j => extend_val (columnSum row norms) (j.castLE (hK.trans h))

/-! ## Counts -/

/-- The counts after some rows: each has grown by the rows of its column, as a 64-bit word, which is
exact below `2 ^ 64`. -/
def Raised (counts : Array ℕ) (labels : List ℕ) (counts' : Array ℕ) : Prop :=
  counts'.size = counts.size ∧ ∀ (l : ℕ) (h : l < counts.size) (h' : l < counts'.size),
    counts'[l] ≡ counts[l] + labels.count l [MOD 2 ^ 64] ∧
      (counts[l] + labels.count l < 2 ^ 64 → counts'[l] = counts[l] + labels.count l)

theorem Raised.cons {counts counts' : Array ℕ} {j : ℕ} {labels : List ℕ} (hj : j < counts.size)
    (h : Raised (counts.set j (Memory.wrap (counts[j] + 1))) labels counts') :
    Raised counts (j :: labels) counts' := by
  obtain ⟨hsize, hcounts⟩ := h
  refine ⟨by simpa using hsize, fun l hl hl' => ?_⟩
  obtain ⟨hmod, hexact⟩ := hcounts l (by simpa using hl) hl'
  rw [Array.getElem_set] at hmod hexact
  by_cases hjl : j = l
  · subst hjl
    rw [if_pos rfl] at hmod hexact
    have hcount : counts[j] + (j :: labels).count j = counts[j] + 1 + labels.count j := by
      rw [List.count_cons_self]
      omega
    rw [hcount]
    refine ⟨hmod.trans ((Nat.mod_modEq _ _).add_right _), fun hlt => ?_⟩
    have hwrap : Memory.wrap (counts[j] + 1) = counts[j] + 1 :=
      Memory.wrap_of_lt (show counts[j] + 1 < 2 ^ 64 by omega)
    rw [hwrap] at hexact
    exact hexact hlt
  · rw [if_neg hjl] at hmod hexact
    rw [List.count_cons_of_ne hjl]
    exact ⟨hmod, hexact⟩

theorem foldlM_countRow (labels : List ℕ) (counts : Array ℕ) (h : ∀ l ∈ labels, l < counts.size) :
    ∃ counts', labels.foldlM countRow counts = some counts' ∧ Raised counts labels counts' := by
  induction labels generalizing counts with
  | nil => exact ⟨counts, rfl, rfl, fun l _ _ => ⟨Nat.ModEq.refl _, fun _ => rfl⟩⟩
  | cons j labels ih =>
    have hj : j < counts.size := h j List.mem_cons_self
    obtain ⟨counts', hrest, hraised⟩ :=
      ih (counts.set j (Memory.wrap (counts[j] + 1))) fun l hl => by
        simpa using h l (List.mem_cons_of_mem j hl)
    refine ⟨counts', ?_, hraised.cons hj⟩
    rw [List.foldlM_cons, countRow, dif_pos hj]
    exact hrest

/-- Labels of all rows, for any numbers: each is the first column with a least sum below infinity, or
zero where there is none, as a search through the columns one after another finds it. They depend on
the sums in the first `K` columns alone, and the counts of these columns grow by their rows. -/
theorem labelRows_spec {r : ℕ} (hL : 0 < L) (hK : 0 < K) (h : covered L K ≤ ld)
    (work : Vector (Vector α ld) r) (norms : Vector (Extended α) ld) (hpad : Padded K norms) :
    let sums i := columnSums (work.get i) norms ((le_covered hL K).trans h)
    let labels := labelRows work norms h
    (∀ i, labels.get i < K ∧ FirstLeast (sums i) (labels.get i) ∧
        labels.get i = scan (sums i)) ∧
      (∀ (L' ld' : ℕ) (hL' : 0 < L') (h' : covered L' K ≤ ld') (work' : Vector (Vector α ld') r)
        (norms' : Vector (Extended α) ld'), Padded K norms' →
        (∀ i, columnSums (work'.get i) norms' ((le_covered hL' K).trans h') = sums i) →
        labelRows work' norms' h' = labels) ∧
      ∀ counts : Array ℕ, K ≤ counts.size →
        ∃ counts', countRows counts labels = some counts' ∧ Raised counts labels.toList counts' := by
  intro sums labels
  have hlabel (i : Fin r) : labels.get i = nearest (work.get i) norms h := by
    simp [labels, labelRows]
  have hfirst (i : Fin r) : FirstLeast (sums i) (labels.get i) :=
    hlabel i ▸ nearest_firstLeast (work.get i) hL h hpad
  refine ⟨fun i => ⟨(hfirst i).lt hK, hfirst i, (hfirst i).unique (scan_firstLeast _)⟩, ?_, ?_⟩
  · intro L' ld' hL' h' work' norms' hpad' hsums
    refine Vector.ext_get fun i => ?_
    have hfirst' := nearest_firstLeast (work'.get i) hL' h' hpad'
    rw [hsums i] at hfirst'
    rw [labelRows, Vector.get_map]
    exact hfirst'.unique (hfirst i)
  · intro counts hcounts
    refine foldlM_countRow labels.toList counts fun l hl => ?_
    obtain ⟨i, hi, rfl⟩ := Vector.mem_iff_getElem.1 (Vector.mem_toList_iff.1 hl)
    exact ((hfirst ⟨i, hi⟩).lt hK).trans_le hcounts

/-- Five columns of machine numbers in four lanes: equal sums in different lanes, a row without a sum
below infinity, and a row that starts with what is no number. The padding holds smaller values. -/
theorem labelRows_spec_machine :
    let nan : Float := 0 / 0
    let inf : Float := 1 / 0
    let work : Vector (Vector Float 9) 3 :=
      #v[#v[7, nan, 3, 4, 3, -9, nan, -inf, 0], #v[nan, inf, inf, 1, nan, -9, 0, nan, 0],
        #v[nan, -inf, 2, inf, -inf, -9, 0, nan, 0]]
    let norms : Vector (Extended Float) 9 :=
      #v[some 1, some 0, some 0.5, none, some 0.5, none, some inf, none, some inf]
    ∃ h : covered 4 5 ≤ 9, 0 < 4 ∧ 0 < 5 ∧ Padded 5 norms ∧
      labelRows work norms h = #v[2, 0, 1] ∧
      (∀ i, FirstLeast (columnSums (work.get i) norms ((le_covered (by decide) 5).trans h))
        ((labelRows work norms h).get i)) ∧
      ∃ counts, countRows #[0, 4, 0, 0, 0] (labelRows work norms h) = some counts ∧
        counts[1]? = some 5 := by
  intro nan inf work norms
  have hpad : Padded 5 norms := by
    intro j hj
    have : j = 5 ∨ j = 6 ∨ j = 7 ∨ j = 8 := by omega
    rcases this with rfl | rfl | rfl | rfl
    · exact Extended.endless_none
    · exact Extended.endless_infinity
    · exact Extended.endless_none
    · exact Extended.endless_infinity
  have hlabels : labelRows work norms (show covered 4 5 ≤ 9 by decide) = #v[2, 0, 1] := by
    decide +kernel
  obtain ⟨hrows, -, hcounts⟩ := labelRows_spec (L := 4) (K := 5) (by decide) (by decide)
    (by decide) work norms hpad
  obtain ⟨counts, hcount, hsize, hraised⟩ := hcounts #[0, 4, 0, 0, 0] (by decide)
  refine ⟨by decide, by decide, by decide, hpad, hlabels, fun i => (hrows i).2.1, counts, hcount, ?_⟩
  have hsize : counts.size = 5 := hsize
  rw [Array.getElem?_eq_getElem (by omega)]
  have := (hraised 1 (by decide) (by omega)).2
  rw [hlabels] at this
  rw [this (by decide)]
  rfl

end Proximity.Lanes
