import Proximity.Proofs.GreedyChoice

/-!
# Greedy seeding

Greedy seeding wastes no centre. Candidates are drawn with weights that are the squared distances to
the nearest centre, so that a sample which equals a centre is not drawn as long as another sample
differs from all centres. All centres are samples therefore, and there are as many different ones among
them as there can be. This holds for every source of draws by weight that leaves out what has no weight
(`Sampler.DrawsPositive`).

1. `chosen` and `Spread`: the centres chosen so far, and what is known of them.
2. `choose_spread`: a further centre.
3. `upTo`, `upTo_spread` and `upTo_step`: a seeding up to some centre.
4. `seed_wastes_no_centre`.
-/

namespace Proximity

noncomputable section

variable {σ : Type} {n K d : ℕ}

/-! ## Draws by weight -/

namespace Sampler

/-- Draws by weight are refused when all weights are zero. Otherwise they are of positive weight. -/
structure DrawsPositive (S : Sampler σ ℝ) : Prop where
  refused : ∀ {n : ℕ} [Positive n] (w : Vector ℝ n), (∀ i, w.get i = 0) → S.weighted w = .ok none
  positive : ∀ {n : ℕ} [Positive n] (w : Vector ℝ n), (∀ i, 0 ≤ w.get i) → (∃ i, 0 < w.get i) →
    ∃ draw, S.weighted w = .ok (some draw) ∧ ∀ g, 0 < w.get (draw g).1

theorem forall_mem_repeated {β : Type} {draw : σ → β × σ} {P : β → Prop} (h : ∀ g, P (draw g).1) (count : ℕ)
    (g : σ) : ∀ x ∈ (repeated draw count g).1, P x := by
  induction count generalizing g with
  | zero => exact fun x hx => absurd hx List.not_mem_nil
  | succ count ih =>
    intro x hx
    rcases List.mem_cons.1 hx with rfl | hx
    · exact h g
    · exact ih _ x hx

end Sampler

namespace PlusPlus

/-! ## The centres chosen so far -/

/-- The first `l` centres. -/
def chosen (centres : Matrix ℝ K d) (l : ℕ) : Set (Point ℝ d) := centres.get '' {j | j.val < l}

theorem chosen_zero (centres : Matrix ℝ K d) : chosen centres 0 = ∅ := by simp [chosen]

theorem chosen_all (centres : Matrix ℝ K d) : chosen centres K = Set.range centres.get := by
  simp [chosen]

theorem chosen_put (centres : Matrix ℝ K d) (l : Fin K) (x : Point ℝ d) :
    chosen (centres.put l x) (l + 1) = insert x (chosen centres l) := by
  ext c
  constructor
  · rintro ⟨j, hj, rfl⟩
    rcases Nat.lt_succ_iff_lt_or_eq.1 hj with h | h
    · have hne : l ≠ j := fun e => h.ne (congrArg Fin.val e.symm)
      rw [Vector.get_put_of_ne _ _ hne]
      exact Or.inr ⟨j, h, rfl⟩
    · rw [Fin.ext h, Vector.get_put_self]
      exact Or.inl rfl
  · rintro (rfl | ⟨j, hj, rfl⟩)
    · exact ⟨l, Nat.lt_succ_self _, Vector.get_put_self _ _ _⟩
    · have hne : l ≠ j := fun e => (Nat.ne_of_lt hj) (congrArg Fin.val e.symm)
      exact ⟨j, Nat.lt_succ_of_lt hj, Vector.get_put_of_ne _ _ hne⟩

/-- A seeding with `l` centres: they are samples, `closest` has the squared distances to the nearest of
them, and there are as many different ones as there can be. -/
structure Spread (data : Samples ℝ n d) (l : ℕ) (centres : Matrix ℝ K d) (closest : Vector ℝ n) :
    Prop where
  samples : chosen centres l ⊆ Set.range data.point
  least : ∀ i, IsLeast ((data.point i).sqDist '' chosen centres l) (closest.get i)
  distinct : (chosen centres l).ncard = min l (Set.range data.point).ncard

namespace Spread

variable {data : Samples ℝ n d} {centres : Matrix ℝ K d} {closest : Vector ℝ n}

theorem nonneg {l : ℕ} (h : Spread data l centres closest) (i : Fin n) : 0 ≤ closest.get i := by
  obtain ⟨c, -, hc⟩ := (h.least i).1
  exact hc ▸ Point.sqDist_nonneg _ _

/-- Samples without weight are those that equal a centre. -/
theorem eq_zero_iff {l : ℕ} (h : Spread data l centres closest) (i : Fin n) :
    closest.get i = 0 ↔ data.point i ∈ chosen centres l := by
  constructor
  · intro hi
    obtain ⟨c, hc, hdist⟩ := (h.least i).1
    rwa [Point.sqDist_eq_zero.1 (hdist.trans hi)]
  · intro hi
    exact le_antisymm ((h.least i).2 ⟨_, hi, Point.sqDist_self _⟩) (h.nonneg i)

/-- A sample of positive weight, or any where none has weight, as centre `l`. -/
theorem put {l : Fin K} (h : Spread data l centres closest) {i : Fin n}
    (hi : (∃ j, 0 < closest.get j) → 0 < closest.get i) {closest' : Vector ℝ n}
    (hclosest : ∀ j, closest'.get j = min (closest.get j) ((data.point j).sqDist (data.point i))) :
    Spread data (l + 1) (centres.put l (data.point i)) closest' := by
  have hsub : insert (data.point i) (chosen centres l) ⊆ Set.range data.point :=
    Set.insert_subset ⟨i, rfl⟩ h.samples
  refine ⟨?_, fun j => ?_, ?_⟩
  · rwa [chosen_put]
  · rw [chosen_put, Set.image_insert_eq, hclosest, min_comm]
    exact (h.least j).insert _
  · rw [chosen_put]
    have hfinite : (Set.range data.point).Finite := Set.finite_range _
    by_cases hweight : ∃ j, 0 < closest.get j
    · have hnew : data.point i ∉ chosen centres l := fun hmem =>
        (hi hweight).ne' ((h.eq_zero_iff i).2 hmem)
      have hcard := Set.ncard_insert_of_notMem hnew (hfinite.subset h.samples)
      have hle := Set.ncard_le_ncard hsub hfinite
      have hold := h.distinct
      omega
    · -- Without any weight all samples are centres already.
      have hall : chosen centres l = Set.range data.point := by
        refine h.samples.antisymm ?_
        rintro - ⟨j, rfl⟩
        exact (h.eq_zero_iff j).1 (le_antisymm (not_lt.1 fun hj => hweight ⟨j, hj⟩) (h.nonneg j))
      have hold := h.distinct
      rw [hall] at hold
      rw [Set.insert_eq_of_mem (hall ▸ ⟨i, rfl⟩), hall]
      omega

end Spread

/-! ## A further centre -/

variable [RealFormat] {S : Sampler σ ℝ} {data : Samples ℝ n d}

theorem weights_get {closest : Vector ℝ n} (h : ∀ i, 0 ≤ closest.get i) (i : Fin n) :
    (weights closest).get i = closest.get i := by
  rw [weights, Vector.get_map, scalar_max, scalar_zero, max_eq_left (h i)]

/-- Candidates are drawn, and they have weight as long as any sample has. -/
theorem candidates_ok [Positive n] (hS : S.DrawsPositive) {closest : Vector ℝ n}
    (h : ∀ i, 0 ≤ closest.get i) (K : ℕ) (g : σ) :
    ∃ drawn g', candidates S K closest g = .ok (drawn, g') ∧
      ((∃ j, 0 < closest.get j) → ∀ i ∈ drawn, 0 < closest.get i) := by
  unfold candidates
  by_cases hweight : ∃ j, 0 < closest.get j
  · obtain ⟨draw, hdraw, hpositive⟩ := hS.positive (weights closest)
      (fun i => (weights_get h i).symm ▸ h i) (hweight.imp fun j hj => (weights_get h j).symm ▸ hj)
    rw [hdraw]
    refine ⟨_, _, rfl, fun _ => Sampler.forall_mem_repeated (fun g => ?_) _ _⟩
    exact weights_get h (draw g).1 ▸ hpositive g
  · have hzero (i : Fin n) : (weights closest).get i = 0 :=
      (weights_get h i).trans (le_antisymm (not_lt.1 fun hi => hweight ⟨i, hi⟩) (h i))
    rw [hS.refused _ hzero]
    exact ⟨_, _, rfl, fun hj => absurd hj hweight⟩

/-- A sample that becomes a centre has no distance already when it is given none. -/
theorem put_zero {v : Vector ℝ n} {i : Fin n} (h : v.get i = 0) : v.put i Scalar.zero = v := by
  refine Vector.ext_get fun j => ?_
  rw [Vector.get_put]
  split
  next hij => rw [← hij, h, scalar_zero]
  next => rfl

theorem distances_put (data : Samples ℝ n d) {closest : Vector ℝ n} (h : ∀ i, 0 ≤ closest.get i)
    (i j : Fin n) : ((candidate data closest i).closest.put i Scalar.zero).get j =
      min (closest.get j) ((data.point j).sqDist (data.point i)) := by
  have hself : (candidate data closest i).closest.get i = 0 := by
    rw [candidate_closest, Point.sqDist_self, min_eq_right (h i)]
  rw [put_zero hself, candidate_closest]

/-- The choice of centre `l` keeps the centres before it. -/
theorem choose_spread [Positive n] (hS : S.DrawsPositive) {l : Fin K}
    {s : Matrix ℝ K d × Vector ℝ n × σ} (h : Spread data l s.1 s.2.1) :
    ∃ s', choose S data data.rows data.rows.squaredNorms s l = .ok s' ∧
      Spread data (l + 1) s'.1 s'.2.1 ∧ ∀ j ≠ l, s'.1.get j = s.1.get j := by
  obtain ⟨centres, closest, g⟩ := s
  obtain ⟨drawn, g', hdrawn, hweight⟩ := candidates_ok hS h.nonneg K g
  obtain ⟨i, hi, hchoose, -⟩ := choose_eq hdrawn data centres l
  refine ⟨_, hchoose, h.put (fun hj => hweight hj i hi) (distances_put data h.nonneg i), ?_⟩
  exact fun j hj => Vector.get_put_of_ne _ _ hj.symm

/-! ## A seeding step by step -/

section Run

variable [Positive n] [Positive K] (S data) (centres : Matrix ℝ K d) (g : σ)

/-- A seeding with its first centre. -/
def begun : Matrix ℝ K d × Vector ℝ n × σ :=
  let (first, g) := S.below n g
  (centres.put (Positive.first K) (data.point first),
    (distancesTo data.rows data.rows.squaredNorms first).put first Scalar.zero, g)

/-- A seeding with its first `l` centres. -/
def upTo (l : ℕ) : Outcome (Matrix ℝ K d × Vector ℝ n × σ) :=
  ((List.finRange K).take l).tail.foldlM (choose S data data.rows data.rows.squaredNorms)
    (begun S data centres g)

/-- A seeding is that up to the last centre, unless it ends with the first. -/
theorem seed_eq : seed S data centres g =
    if (begun S data centres g).2.1.all (· ≤ Scalar.zero) then
      .ok (copySamples data (List.finRange n) (begun S data centres g).1, (begun S data centres g).2.2)
    else (upTo S data centres g K).map fun s => (s.1, s.2.2) := by
  have htake : (List.finRange K).take K = List.finRange K := List.take_of_length_le (by simp)
  unfold seed upTo
  rw [htake]
  rfl

theorem upTo_one : upTo S data centres g 1 = .ok (begun S data centres g) := by
  have htail : ((List.finRange K).take 1).tail = [] := by
    rw [← List.length_eq_zero_iff, List.length_tail, List.length_take]
    omega
  rw [upTo, htail]
  rfl

theorem upTo_succ {l : Fin K} (hl : 0 < l.val) : upTo S data centres g (l + 1) =
    (upTo S data centres g l).bind fun s =>
      choose S data data.rows data.rows.squaredNorms s l := by
  have hlength : l.val < (List.finRange K).length := by simp
  have hne : (List.finRange K).take l ≠ [] := by
    rw [ne_eq, ← List.length_eq_zero_iff, List.length_take]
    omega
  rw [upTo, List.take_succ_eq_append_getElem hlength, List.tail_append_of_ne_nil hne,
    List.foldlM_append, List.getElem_finRange]
  simp only [List.foldlM_cons, List.foldlM_nil, bind_pure]
  rfl

theorem begun_closest (j : Fin n) : (begun S data centres g).2.1.get j =
    (data.point j).sqDist (data.point (S.below n g).1) := by
  have hself (i : Fin n) : (distancesTo data.rows data.rows.squaredNorms i).get i = 0 := by
    rw [distancesTo_get, Point.sqDist_self]
  show ((distancesTo data.rows data.rows.squaredNorms _).put _ Scalar.zero).get j = _
  rw [put_zero (hself _), distancesTo_get]

theorem begun_spread :
    Spread data 1 (begun S data centres g).1 (begun S data centres g).2.1 := by
  have hchosen : chosen (begun S data centres g).1 1 = {data.point (S.below n g).1} := by
    have hput := chosen_put centres (Positive.first K) (data.point (S.below n g).1)
    have hzero : (Positive.first K).val = 0 := rfl
    rwa [hzero, chosen_zero, insert_empty_eq] at hput
  have : Nonempty (Fin n) := ⟨Positive.first n⟩
  have hpos : 0 < (Set.range data.point).ncard :=
    (Set.ncard_pos (Set.finite_range _)).2 (Set.range_nonempty _)
  refine ⟨?_, fun i => ?_, ?_⟩
  · rw [hchosen]
    exact Set.singleton_subset_iff.2 ⟨_, rfl⟩
  · rw [hchosen, Set.image_singleton, begun_closest]
    exact isLeast_singleton
  · rw [hchosen, Set.ncard_singleton, min_eq_left hpos]

variable {S data centres g}

/-- From some centre on a seeding goes through to the last, and keeps the centres that it has. -/
theorem upTo_spread (hS : S.DrawsPositive) {l m : ℕ} (hl : 0 < l) (hlm : l ≤ m) (hm : m ≤ K)
    {s : Matrix ℝ K d × Vector ℝ n × σ} (hs : upTo S data centres g l = .ok s)
    (h : Spread data l s.1 s.2.1) :
    ∃ s', upTo S data centres g m = .ok s' ∧ Spread data m s'.1 s'.2.1 ∧
      ∀ j : Fin K, j.val < l → s'.1.get j = s.1.get j := by
  induction m, hlm using Nat.le_induction with
  | base => exact ⟨s, hs, h, fun _ _ => rfl⟩
  | succ m hlm ih =>
    obtain ⟨s', hs', hspread, hkeep⟩ := ih (Nat.le_of_succ_le hm)
    obtain ⟨s'', hchoose, hspread', hkeep'⟩ := choose_spread hS (l := ⟨m, hm⟩) hspread
    refine ⟨s'', ?_, hspread', fun j hj => ?_⟩
    · have hsucc := upTo_succ S data centres g (l := ⟨m, hm⟩) (hl.trans_le hlm)
      rw [hs'] at hsucc
      exact hsucc.trans hchoose
    · rw [hkeep' j fun e => (hj.trans_le hlm).ne (congrArg Fin.val e), hkeep j hj]

/-- Centre `l` of a seeding is chosen in a state that has the centres before it. -/
theorem upTo_step (hS : S.DrawsPositive) {l : Fin K} (hl : 0 < l.val)
    {final : Matrix ℝ K d × Vector ℝ n × σ} (hfinal : upTo S data centres g K = .ok final) :
    ∃ s s', upTo S data centres g l = .ok s ∧ Spread data l s.1 s.2.1 ∧
      choose S data data.rows data.rows.squaredNorms s l = .ok s' ∧
      (∀ j < l, s.1.get j = final.1.get j) ∧ s'.1.get l = final.1.get l := by
  obtain ⟨s, hs, hspread, -⟩ := upTo_spread hS Nat.one_pos hl l.isLt.le
    (upTo_one S data centres g) (begun_spread S data centres g)
  obtain ⟨s', hchoose, hspread', hkeep⟩ := choose_spread hS hspread
  have hs' : upTo S data centres g (l + 1) = .ok s' := by
    rw [upTo_succ S data centres g hl, hs]
    exact hchoose
  obtain ⟨t, ht, -, hlast⟩ := upTo_spread hS l.val.succ_pos l.isLt le_rfl hs' hspread'
  obtain rfl : final = t := Except.ok.inj (hfinal.symm.trans ht)
  refine ⟨s, s', hs, hspread, hchoose, fun j hj => ?_, (hlast l (Nat.lt_succ_self _)).symm⟩
  rw [hlast j (Nat.lt_succ_of_lt hj), hkeep j hj.ne]

end Run

/-! ## No centre is wasted -/

theorem begun_all [Positive n] [Positive K] (centres : Matrix ℝ K d) (g : σ) :
    (begun S data centres g).2.1.all (· ≤ Scalar.zero) = true ↔
      ∀ i j, data.point i = data.point j := by
  have hfirst (i : Fin n) : (begun S data centres g).2.1.get i ≤ Scalar.zero ↔
      data.point i = data.point (S.below n g).1 := by
    rw [begun_closest, scalar_zero, ← Point.sqDist_eq_zero]
    exact ⟨fun h => le_antisymm h (Point.sqDist_nonneg _ _), le_of_eq⟩
  rw [Vector.all_eq_true]
  constructor
  · intro h i j
    have hpoint (i : Fin n) := (hfirst i).1 (of_decide_eq_true (h i i.isLt))
    rw [hpoint i, hpoint j]
  · intro h i hi
    exact decide_eq_true ((hfirst ⟨i, hi⟩).2 (h _ _))

omit [RealFormat] in
theorem copySamples_get (hK : K ≤ n) (data : Samples ℝ n d) (centres : Matrix ℝ K d) (l : Fin K) :
    (copySamples data (List.finRange n) centres).get l = data.point (l.castLE hK) := by
  have hl : l.val < (List.finRange n).length := by simpa using l.isLt.trans_le hK
  rw [copySamples, Vector.get_ofFn, List.getElem?_eq_getElem hl]
  simp only [List.getElem_finRange]
  rfl

/-- A seeding has a result, and its centres are those of the seeding up to the last. Where all samples
coincide this is so because there is but one point to choose. -/
theorem seed_ok [Positive n] [Positive K] (hS : S.DrawsPositive) (hK : K ≤ n) (data : Samples ℝ n d)
    (centres : Matrix ℝ K d) (g : σ) : ∃ s g', upTo S data centres g K = .ok s ∧ Spread data K s.1 s.2.1 ∧
      seed S data centres g = .ok (s.1, g') := by
  obtain ⟨s, hs, hspread, -⟩ := upTo_spread hS Nat.one_pos Positive.pos le_rfl
    (upTo_one S data centres g) (begun_spread S data centres g)
  rw [seed_eq, hs]
  split
  next hall =>
    have hcopy : copySamples data (List.finRange n) (begun S data centres g).1 = s.1 := by
      refine Vector.ext_get fun l => ?_
      obtain ⟨i, hi⟩ := hspread.samples ⟨l, l.isLt, rfl⟩
      rw [copySamples_get hK, ← hi]
      exact (begun_all centres g).1 hall _ _
    exact ⟨s, _, rfl, hspread, congrArg (fun c => Except.ok (c, _)) hcopy⟩
  next => exact ⟨s, s.2.2, rfl, hspread, rfl⟩

/-- **No centre is wasted.** Whatever is drawn, as long as draws by weight leave out what has no weight:
all centres are samples; centre `l` is chosen in a state where the weight of a sample is its squared
distance to the nearest centre before it; and among the centres there are as many different points as
their number and that of different samples allow. Where all samples coincide the centres are the first
of them. -/
theorem seed_wastes_no_centre [Positive n] [Positive K] (S : Sampler σ ℝ) (hS : S.DrawsPositive)
    (hK : K ≤ n) (data : Samples ℝ n d) (centres : Matrix ℝ K d) (g : σ) :
    ∃ final g', seed S data centres g = .ok (final, g') ∧
      (∀ l, ∃ i, final.get l = data.point i) ∧
      (∀ l : Fin K, 0 < l.val → ∃ s s', upTo S data centres g l = .ok s ∧
        choose S data data.rows data.rows.squaredNorms s l = .ok s' ∧
        (∀ j < l, s.1.get j = final.get j) ∧ s'.1.get l = final.get l ∧
        ∀ i, IsLeast {r | ∃ j < l, (data.point i).sqDist (final.get j) = r}
          ((weights s.2.1).get i)) ∧
      (Set.range final.get).ncard = min K (Set.range data.point).ncard ∧
      ((∀ i j, data.point i = data.point j) → ∀ l, final.get l = data.point (l.castLE hK)) := by
  obtain ⟨final, g', hfinal, hspread, hseed⟩ := seed_ok hS hK data centres g
  have hsample (l : Fin K) : ∃ i, final.1.get l = data.point i :=
    (hspread.samples ⟨l, l.isLt, rfl⟩).imp fun _ => Eq.symm
  refine ⟨final.1, g', hseed, hsample, fun l hl => ?_, ?_, fun hall l => ?_⟩
  · obtain ⟨s, s', hs, hbefore, hchoose, hcentre, hl'⟩ := upTo_step hS hl hfinal
    refine ⟨s, s', hs, hchoose, hcentre, hl', fun i => ?_⟩
    have hset : {r | ∃ j < l, (data.point i).sqDist (final.1.get j) = r} =
        (data.point i).sqDist '' chosen s.1 l := by
      rw [chosen, Set.image_image]
      exact Set.image_congr fun j hj => congrArg (data.point i).sqDist (hcentre j hj).symm
    rw [hset, weights_get hbefore.nonneg]
    exact hbefore.least i
  · have hdistinct := hspread.distinct
    rwa [chosen_all] at hdistinct
  · obtain ⟨i, hi⟩ := hsample l
    exact hi.trans (hall _ _)

/-- A source that draws the first number of positive weight. -/
def firstPositive : Sampler Unit ℝ where
  below n _ s := (Positive.first n, s)
  distinct _ _ s := ([], s)
  weighted {n} _ w := .ok (((List.finRange n).find? fun i => 0 < w.get i).map fun i s => (i, s))

omit [RealFormat] in
theorem firstPositive_drawsPositive : firstPositive.DrawsPositive where
  refused {n} _ w hw := by
    have hfind : ((List.finRange n).find? fun i => 0 < w.get i) = none :=
      List.find?_eq_none.2 fun i _ => by simp [hw i]
    simp only [firstPositive, hfind, Option.map_none]
  positive {n} _ w _ hw := by
    obtain ⟨i, hi⟩ := hw
    cases hfind : (List.finRange n).find? fun i => 0 < w.get i with
    | none => exact absurd (decide_eq_true hi) (List.find?_eq_none.1 hfind i (List.mem_finRange i))
    | some j =>
      have hj : 0 < w.get j := by simpa using List.find?_some hfind
      refine ⟨fun s => (j, s), ?_, fun _ => hj⟩
      simp only [firstPositive, hfind, Option.map_some]

omit [RealFormat] in
/-- Three centres for three samples of which two are equal: both points are among them. -/
theorem seed_wastes_no_centre_two_points :
    letI := RealFormat.plain
    let data : Samples ℝ 3 1 := ⟨#v[0, 0, 5]⟩
    firstPositive.DrawsPositive ∧ 3 ≤ 3 ∧
      ∃ final g', seed firstPositive data (Matrix.const 3 1 0) () = .ok (final, g') ∧
        (Set.range final.get).ncard = 2 := by
  let _ := RealFormat.plain
  intro data
  obtain ⟨final, g', hseed, -, -, hcount, -⟩ := seed_wastes_no_centre firstPositive
    firstPositive_drawsPositive le_rfl data (Matrix.const 3 1 0) ()
  refine ⟨firstPositive_drawsPositive, le_rfl, final, g', hseed, hcount.trans ?_⟩
  have hrange : Set.range data.point = {data.point 0, data.point 2} := by
    have hsame : data.point 1 = data.point 0 := Vector.ext_get fun j => by fin_cases j; rfl
    refine Set.Subset.antisymm ?_ (Set.insert_subset ⟨0, rfl⟩ (Set.singleton_subset_iff.2 ⟨2, rfl⟩))
    rintro - ⟨i, rfl⟩
    fin_cases i
    · exact Or.inl rfl
    · exact Or.inl hsame
    · exact Or.inr rfl
  have hne : data.point 0 ≠ data.point 2 := fun h => by
    have h0 : (0 : ℝ) = 5 := congrArg (fun x => x.get 0) h
    norm_num at h0
  rw [hrange, Set.ncard_pair hne]
  exact Nat.min_eq_right (by decide)

end PlusPlus

end

end Proximity
