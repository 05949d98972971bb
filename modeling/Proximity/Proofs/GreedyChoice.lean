import Proximity.Clustering.Seeding
import Proximity.Proofs.Distance

/-!
# The choice between candidates

For each further centre, greedy seeding draws a few samples and keeps the one that leaves the least
potential. In exact arithmetic the numbers that are compared are the potentials `potentialWith` of the
definition. The comparison ends at the first candidate that was drawn before, so that the sample kept
is the best of the candidates in front of it, and the best of all when none is drawn twice
(`choose_isBest`); a candidate behind a repetition is not looked at, however good it is
(`bestOf_misses_candidate`).

1. `candidate`: what is computed for a sample.
2. `bestOf_eq`: the comparison of some candidates.
3. `choose_eq`: the choice of a centre.
-/

namespace Proximity.PlusPlus

noncomputable section

variable [RealFormat] {σ : Type} {n K d : ℕ}

/-! ## Potentials -/

theorem distancesTo_get (data : Samples ℝ n d) (i j : Fin n) :
    (distancesTo data.rows data.rows.squaredNorms i).get j = (data.point j).sqDist (data.point i) := by
  simp only [distancesTo, Matrix.squaredNorms, Samples.rows, Vector.get_map, Vector.get_ofFn,
    expanded_eq, clampedDistance, scalar_max, scalar_zero, if_true]
  exact max_eq_left (Point.sqDist_nonneg _ _)

omit [RealFormat] in
theorem merged_get (closest new : Vector ℝ n) (j : Fin n) :
    (merged closest new).get j = min (closest.get j) (new.get j) := by
  rw [merged, Vector.get_zipWith]
  split
  next h => exact (min_eq_right h.le).symm
  next h => exact (min_eq_left (not_lt.1 h)).symm

/-- The potential of a seeding with sample `i` as one more centre, where `closest` has the squared
distances to the nearest of the other centres. -/
def potentialWith (data : Samples ℝ n d) (closest : Vector ℝ n) (i : Fin n) : ℝ :=
  ∑ j, min (closest.get j) ((data.point j).sqDist (data.point i))

/-- Sample `i` as a candidate. -/
def candidate (data : Samples ℝ n d) (closest : Vector ℝ n) (i : Fin n) : Candidate ℝ n :=
  let new := merged closest (distancesTo data.rows data.rows.squaredNorms i)
  ⟨i, potential new, new⟩

theorem candidate_closest (data : Samples ℝ n d) (closest : Vector ℝ n) (i j : Fin n) :
    (candidate data closest i).closest.get j =
      min (closest.get j) ((data.point j).sqDist (data.point i)) := by
  rw [candidate, merged_get, distancesTo_get]

theorem candidate_cost (data : Samples ℝ n d) (closest : Vector ℝ n) (i : Fin n) :
    (candidate data closest i).cost = potentialWith data closest i := by
  show potential (candidate data closest i).closest = _
  rw [potential, sumOver_eq_sum]
  exact Finset.sum_congr rfl fun j _ => candidate_closest data closest i j

/-! ## The best of some candidates -/

section Comparison

variable (data : Samples ℝ n d) (closest : Vector ℝ n)

/-- The comparison goes on with the better of two candidates, and stays with the first of equal ones. -/
theorem bestOf_cons {i : Fin n} {seen : List (Fin n)} (hi : i ∉ seen) (rest : List (Fin n))
    (b : Fin n) : ∃ b', (b' = b ∨ b' = i) ∧ potentialWith data closest b' ≤ potentialWith data closest b ∧
      potentialWith data closest b' ≤ potentialWith data closest i ∧
      bestOf data.rows data.rows.squaredNorms closest (i :: rest) seen (some (candidate data closest b)) =
        bestOf data.rows data.rows.squaredNorms closest rest (i :: seen)
          (some (candidate data closest b')) := by
  have hstep : bestOf data.rows data.rows.squaredNorms closest (i :: rest) seen
      (some (candidate data closest b)) =
        bestOf data.rows data.rows.squaredNorms closest rest (i :: seen)
          (if (candidate data closest i).cost < (candidate data closest b).cost then
            some (candidate data closest i) else some (candidate data closest b)) := by
    rw [bestOf, if_neg hi]
    simp only [decide_eq_true_eq]
    rfl
  rw [hstep, candidate_cost, candidate_cost]
  split
  next h => exact ⟨i, Or.inr rfl, h.le, le_rfl, rfl⟩
  next h => exact ⟨b, Or.inl rfl, le_rfl, not_lt.1 h, rfl⟩

/-- The comparison from a candidate on that is as good as those before it. What it ends with is as good
as all candidates in front of the first repetition. -/
theorem bestOf_some (drawn seen : List (Fin n)) (b : Fin n)
    (hb : ∀ k ∈ seen, potentialWith data closest b ≤ potentialWith data closest k) :
    ∃ i, (i = b ∨ i ∈ drawn) ∧
      bestOf data.rows data.rows.squaredNorms closest drawn seen (some (candidate data closest b)) =
        some (candidate data closest i) ∧
      ∀ p, p <+: seen.reverse ++ drawn → p.Nodup →
        ∀ k ∈ p, potentialWith data closest i ≤ potentialWith data closest k := by
  induction drawn generalizing seen b with
  | nil =>
    refine ⟨b, Or.inl rfl, rfl, fun p hp _ k hk => hb k ?_⟩
    rw [List.append_nil] at hp
    exact List.mem_reverse.1 (hp.subset hk)
  | cons c rest ih =>
    by_cases hc : c ∈ seen
    · refine ⟨b, Or.inl rfl, by rw [bestOf, if_pos hc], fun p hp hnodup k hk => hb k ?_⟩
      -- With `c` a list of different candidates would have `c` twice.
      have hread : seen.reverse ++ [c] <+: seen.reverse ++ c :: rest :=
        (List.prefix_append_right_inj _).2 (List.prefix_append [c] rest)
      rcases List.prefix_or_prefix_of_prefix hp hread with h | h
      · rcases List.mem_append.1 (h.subset hk) with hk | hk
        · exact List.mem_reverse.1 hk
        · rwa [List.mem_singleton.1 hk]
      · exact absurd (List.mem_singleton_self c)
          (List.disjoint_of_nodup_append (hnodup.sublist h.sublist) (List.mem_reverse.2 hc))
    · obtain ⟨b', hb', hle, hlec, hstep⟩ := bestOf_cons data closest hc rest b
      obtain ⟨i, hi, hbest, hleast⟩ := ih (c :: seen) b' fun k hk => by
        rcases List.mem_cons.1 hk with rfl | hk
        · exact hlec
        · exact hle.trans (hb k hk)
      refine ⟨i, ?_, hstep.trans hbest, ?_⟩
      · rcases hi with rfl | hi
        · exact hb'.imp_right fun h => List.mem_cons.2 (Or.inl h)
        · exact Or.inr (List.mem_cons_of_mem _ hi)
      · rwa [List.reverse_cons, List.append_assoc] at hleast

/-- Of some candidates one is chosen that is as good as all in front of the first repetition. -/
theorem bestOf_eq {drawn : List (Fin n)} (hdrawn : drawn ≠ []) :
    ∃ i ∈ drawn, bestOf data.rows data.rows.squaredNorms closest drawn [] none =
        some (candidate data closest i) ∧
      ∀ p, p <+: drawn → p.Nodup →
        ∀ k ∈ p, potentialWith data closest i ≤ potentialWith data closest k := by
  obtain ⟨c, rest, rfl⟩ := List.exists_cons_of_ne_nil hdrawn
  obtain ⟨i, hi, hbest, hleast⟩ := bestOf_some data closest rest [c] c fun k hk =>
    le_of_eq (List.mem_singleton.1 hk ▸ rfl)
  refine ⟨i, List.mem_cons.2 hi, ?_, hleast⟩
  rw [bestOf, if_neg List.not_mem_nil]
  exact hbest

end Comparison

/-! ## The choice of a centre -/

theorem candidates_ne_nil [Positive n] {S : Sampler σ ℝ} {closest : Vector ℝ n} {g g' : σ}
    {drawn : List (Fin n)} (h : candidates S K closest g = .ok (drawn, g')) : drawn ≠ [] := by
  unfold candidates at h
  split at h
  next => cases h
  next draw _ =>
    have htrials : trials K = (Float.log (Float.ofNat K)).toUInt64.toNat + 1 + 1 := Nat.add_comm _ _
    rw [htrials] at h
    cases h
    exact List.cons_ne_nil _ _
  next =>
    cases h
    exact List.cons_ne_nil _ _

/-- A centre is chosen from the candidates that are drawn for it. -/
theorem choose_eq [Positive n] {S : Sampler σ ℝ} {closest : Vector ℝ n} {g g' : σ}
    {drawn : List (Fin n)} (h : candidates S K closest g = .ok (drawn, g')) (data : Samples ℝ n d)
    (centres : Matrix ℝ K d) (l : Fin K) : ∃ i ∈ drawn,
      choose S data data.rows data.rows.squaredNorms (centres, closest, g) l =
        .ok (centres.put l (data.point i), (candidate data closest i).closest.put i Scalar.zero, g') ∧
      ∀ p, p <+: drawn → p.Nodup →
        ∀ k ∈ p, potentialWith data closest i ≤ potentialWith data closest k := by
  obtain ⟨i, hi, hbest, hleast⟩ := bestOf_eq data closest (candidates_ne_nil h)
  refine ⟨i, hi, ?_, hleast⟩
  simp only [choose, h, bind, Except.bind, hbest]
  rfl

/-- **The centre chosen is the best candidate in front of the first repetition.** Whatever is drawn for
a centre, the sample that becomes the centre is one of the candidates and leaves no more potential than
any of those that were drawn without a repetition in between, so than all when none is drawn twice. -/
theorem choose_isBest [Positive n] (S : Sampler σ ℝ) (data : Samples ℝ n d) (centres : Matrix ℝ K d)
    (closest : Vector ℝ n) (g g' : σ) (drawn : List (Fin n))
    (h : candidates S K closest g = .ok (drawn, g')) (l : Fin K) :
    ∃ i ∈ drawn, ∃ closest',
      choose S data data.rows data.rows.squaredNorms (centres, closest, g) l =
        .ok (centres.put l (data.point i), closest', g') ∧
      (∀ p, p <+: drawn → p.Nodup →
        ∀ k ∈ p, potentialWith data closest i ≤ potentialWith data closest k) ∧
      (drawn.Nodup → ∀ k ∈ drawn, potentialWith data closest i ≤ potentialWith data closest k) := by
  obtain ⟨i, hi, hchoose, hleast⟩ := choose_eq h data centres l
  exact ⟨i, hi, _, hchoose, hleast, hleast drawn List.prefix_rfl⟩

/-- A source whose draws by weight follow a script, whatever the weights; its state counts them. -/
def scripted (script : ℕ → ℕ) : Sampler ℕ ℝ where
  below n _ s := (Positive.first n, s)
  distinct _ _ s := ([], s)
  weighted _ := .ok (some fun s => (Positive.remainder _ (script s), s + 1))

omit [RealFormat] in
/-- Samples on a line with the first and the third as centres: a source that draws the fourth sample
once and the second from then on. The second leaves less potential. -/
theorem choose_isBest_four_samples :
    letI := RealFormat.plain
    let S := scripted fun s => if s = 0 then 3 else 1
    let data : Samples ℝ 4 1 := ⟨#v[6, 3, 1, 7]⟩
    let centres : Matrix ℝ 3 1 := #v[#v[6], #v[1], #v[0]]
    let closest : Vector ℝ 4 := #v[0, 4, 0, 1]
    ∃ drawn g', candidates S 3 closest 0 = .ok (drawn, g') ∧ [3, 1] <+: drawn ∧
      ∃ i ∈ drawn, ∃ closest', choose S data data.rows data.rows.squaredNorms (centres, closest, 0) 2 =
        .ok (centres.put 2 (data.point i), closest', g') ∧
        potentialWith data closest i ≤ potentialWith data closest 1 := by
  let _ := RealFormat.plain
  intro S data centres closest
  let draw : ℕ → Fin 4 × ℕ := fun s => (Positive.remainder 4 (if s = 0 then 3 else 1), s + 1)
  let drawn := Sampler.repeated draw ((Float.log (Float.ofNat 3)).toUInt64.toNat + 1 + 1) 0
  have hcandidates : candidates S 3 closest 0 = .ok (drawn.1, drawn.2) :=
    congrArg (fun m => Except.ok (Sampler.repeated draw m 0)) (Nat.add_comm 2 _)
  have hprefix : [3, 1] <+: drawn.1 := List.prefix_append [3, 1] _
  obtain ⟨i, hi, closest', hchoose, hleast, -⟩ :=
    choose_isBest S data centres closest 0 drawn.2 drawn.1 hcandidates 2
  exact ⟨drawn.1, drawn.2, hcandidates, hprefix, i, hi, closest', hchoose,
    hleast [3, 1] hprefix (by decide) 1 (by decide)⟩

omit [RealFormat] in
/-- The same samples and centres, where the fourth sample is drawn twice before the second. All of them
are draws of positive weight, and the second leaves less potential than the fourth, which is kept. -/
theorem bestOf_misses_candidate :
    letI := RealFormat.plain
    let data : Samples ℝ 4 1 := ⟨#v[6, 3, 1, 7]⟩
    let closest : Vector ℝ 4 := #v[0, 4, 0, 1]
    let drawn : List (Fin 4) := [3, 3, 1]
    (∀ j, closest.get j =
      min ((data.point j).sqDist (data.point 0)) ((data.point j).sqDist (data.point 2))) ∧
    (∀ k ∈ drawn, 0 < (weights closest).get k) ∧
    ∃ b, bestOf data.rows data.rows.squaredNorms closest drawn [] none = some b ∧
      ∃ k ∈ drawn, potentialWith data closest k < potentialWith data closest b.index := by
  let _ := RealFormat.plain
  intro data closest drawn
  have hx (i : Fin 4) : (data.point i).get 0 = ![6, 3, 1, 7] i := by fin_cases i <;> rfl
  have hclosest (j : Fin 4) : closest.get j = ![0, 4, 0, 1] j := by fin_cases j <;> rfl
  refine ⟨fun j => ?_, fun k hk => ?_, candidate data closest 3, ?_, 1, by decide, ?_⟩
  · rw [Point.sqDist_line, Point.sqDist_line, hx, hx, hx, hclosest]
    fin_cases j <;> simp only [Matrix.cons_val] <;> norm_num
  · rw [weights, Vector.get_map, hclosest, scalar_max]
    fin_cases k <;> simp_all [drawn]
  · rw [bestOf, if_neg List.not_mem_nil, bestOf, if_pos (List.mem_singleton_self 3)]
    rfl
  · show potentialWith data closest 1 < potentialWith data closest 3
    simp only [potentialWith, Fin.sum_univ_four, Point.sqDist_line, hx, hclosest, Matrix.cons_val]
    norm_num

end

end Proximity.PlusPlus
