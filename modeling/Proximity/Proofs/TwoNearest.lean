import Proximity.Proofs.TransferRuns

/-!
# The two nearest centres

The first assignment of the transfers finds the nearest and the second nearest centre of a sample in one
pass through the centres. A distance is given up when its partial sum reaches that of the second one so
far, and nothing is missed by that: such a centre comes third at best. Among centres at equal distance
the lowest is the nearest one; which of the others is the second is left open.

1. `TwoNearest.Found`: what is known after some of the centres.
2. `start_found` and `Found.consider`: the first two centres, and one centre more.
3. `twoNearest_found`, and `assignFirst_nearest` for all samples.
-/

namespace Proximity.Transfers

noncomputable section

variable [RealFormat] {n K d : ℕ} {x : Point ℝ d} {centres : Matrix ℝ K d} {m : ℕ}

namespace TwoNearest

/-- The first and the second are the two nearest of the first `m` centres, with their distances. -/
structure Found (x : Point ℝ d) (centres : Matrix ℝ K d) (m : ℕ) (t : TwoNearest ℝ K) : Prop where
  first_lt : t.first.val < m
  second_lt : t.second.val < m
  second_ne : t.second ≠ t.first
  nearest : t.nearest = x.sqDist (centres.get t.first)
  next : t.next = x.sqDist (centres.get t.second)
  nearest_le : ∀ l : Fin K, l.val < m → t.nearest ≤ x.sqDist (centres.get l)
  /-- On equal distances the lowest centre comes first. -/
  nearest_lt : ∀ l : Fin K, l < t.first → t.nearest < x.sqDist (centres.get l)
  next_le : ∀ l : Fin K, l.val < m → l ≠ t.first → t.next ≤ x.sqDist (centres.get l)

omit [RealFormat] in
theorem Found.nearest_le_next {t : TwoNearest ℝ K} (h : t.Found x centres m) :
    t.nearest ≤ t.next := by
  rw [h.next]
  exact h.nearest_le t.second h.second_lt

/-- The first two centres, exchanged where the second one is closer. -/
theorem start_found (hK : 1 < K) (x : Point ℝ d) (centres : Matrix ℝ K d) :
    (start hK x centres).Found x centres 2 := by
  let a : Fin K := ⟨0, Nat.lt_trans Nat.zero_lt_one hK⟩
  let b : Fin K := ⟨1, hK⟩
  have hab : a ≠ b := by simp [a, b]
  have htwo (P : Fin K → Prop) (ha : P a) (hb : P b) (l : Fin K) (hl : l.val < 2) : P l := by
    obtain h | h : l = a ∨ l = b := by
      simp only [Fin.ext_iff, a, b]
      omega
    · exact h ▸ ha
    · exact h ▸ hb
  have hstart : start hK x centres =
      if x.sqDist (centres.get b) < x.sqDist (centres.get a) then
        ⟨b, a, x.sqDist (centres.get b), x.sqDist (centres.get a)⟩
      else ⟨a, b, x.sqDist (centres.get a), x.sqDist (centres.get b)⟩ := by
    rw [← squared_eq, ← squared_eq]
    rfl
  rw [hstart]
  split
  next hlt =>
    refine ⟨Nat.one_lt_two, Nat.two_pos, hab, rfl, rfl, htwo _ hlt.le le_rfl, fun l hl => ?_,
      htwo _ (fun _ => le_rfl) fun hne => absurd rfl hne⟩
    obtain rfl : l = a := Fin.ext (Nat.lt_one_iff.1 hl)
    exact hlt
  next hle =>
    exact ⟨Nat.two_pos, Nat.one_lt_two, hab.symm, rfl, rfl, htwo _ le_rfl (not_lt.1 hle),
      fun l hl => absurd hl (Nat.not_lt_zero _), htwo _ (fun hne => absurd rfl hne) fun _ => le_rfl⟩

/-- One centre more. It is compared with both distances, and only its being no closer than the second one
can be read off a distance that was given up. -/
theorem Found.consider (hd : 0 < d) {t : TwoNearest ℝ K} {l : Fin K} (h : t.Found x centres l.val) :
    (t.consider x centres l).Found x centres (l.val + 1) := by
  -- a centre among the first `l + 1` is one of the first `l`, or `l` itself
  have hmore {P : Fin K → Prop} (hold : ∀ j : Fin K, j.val < l.val → P j) (hnew : P l) (j : Fin K)
      (hj : j.val < l.val + 1) : P j := by
    rcases Nat.lt_succ_iff_lt_or_eq.1 hj with hlt | heq
    · exact hold j hlt
    · exact Fin.ext heq ▸ hnew
  have hfirst : l ≠ t.first := fun heq => (heq ▸ h.first_lt).ne rfl
  have hlt {j : Fin K} (hj : j.val < l.val) : j.val < l.val + 1 := Nat.lt_succ_of_lt hj
  unfold TwoNearest.consider
  split
  next hnone =>
    have hge : t.next ≤ x.sqDist (centres.get l) := distanceBelow_eq_none hd hnone
    exact ⟨hlt h.first_lt, hlt h.second_lt, h.second_ne, h.nearest, h.next,
      hmore h.nearest_le (h.nearest_le_next.trans hge), h.nearest_lt, hmore h.next_le fun _ => hge⟩
  next v hsome =>
    obtain ⟨rfl, hbelow⟩ := (distanceBelow_eq_some hd).1 hsome
    by_cases hnearer : x.sqDist (centres.get l) < t.nearest
    · rw [if_pos hnearer]
      refine ⟨Nat.lt_succ_self _, hlt h.first_lt, hfirst.symm, rfl, h.nearest,
        hmore (fun j hj => hnearer.le.trans (h.nearest_le j hj)) le_rfl,
        fun j hj => hnearer.trans_le (h.nearest_le j hj),
        hmore (fun j hj _ => h.nearest_le j hj) fun hne => absurd rfl hne⟩
    · rw [if_neg hnearer]
      exact ⟨hlt h.first_lt, Nat.lt_succ_self _, hfirst, h.nearest, rfl,
        hmore h.nearest_le (not_lt.1 hnearer), h.nearest_lt,
        hmore (fun j hj hne => hbelow.le.trans (h.next_le j hj hne)) fun _ => le_rfl⟩

/-- The centres that are left, considered one after another. -/
theorem Found.foldl (hd : 0 < d) (rest : List (Fin K)) {m : ℕ} {t : TwoNearest ℝ K} (hm : m ≤ K)
    (hrest : (List.finRange K).drop m = rest) (h : t.Found x centres m) :
    (rest.foldl (TwoNearest.consider x centres) t).Found x centres K := by
  induction rest generalizing m t with
  | nil =>
    have hlen : K - m = 0 := by simpa using congrArg List.length hrest
    obtain rfl : m = K := by omega
    exact h
  | cons l rest ih =>
    obtain ⟨rfl, hrest⟩ := of_drop_finRange hrest
    rw [List.foldl_cons]
    exact ih l.isLt hrest (h.consider hd)

end TwoNearest

theorem twoNearest_found (hd : 0 < d) (hK : 1 < K) (x : Point ℝ d) (centres : Matrix ℝ K d) :
    (twoNearest hK x centres).Found x centres K :=
  (TwoNearest.start_found hK x centres).foldl hd _ hK rfl

/-- **The first assignment.** Every sample gets the first of its nearest centres, and another one that
none of the others is closer than. -/
theorem assignFirst_nearest (hd : 0 < d) (hK : 1 < K) (data : Samples ℝ n d)
    (centres : Matrix ℝ K d) :
    let s := assignFirst hK data centres
    ∀ i, FirstNearest (data.point i) centres (s.first.get i) ∧ s.second.get i ≠ s.first.get i ∧
      ∀ l, l ≠ s.first.get i → (data.point i).dist (centres.get (s.second.get i)) ≤
        (data.point i).dist (centres.get l) := by
  intro s i
  let t := twoNearest hK (data.point i) centres
  have h : t.Found (data.point i) centres K := twoNearest_found hd hK (data.point i) centres
  have hfirst : s.first.get i = t.first := by
    simp only [s, t, assignFirst, Vector.get_map, Vector.get_ofFn]
  have hsecond : s.second.get i = t.second := by
    simp only [s, t, assignFirst, Vector.get_map, Vector.get_ofFn]
  rw [hfirst, hsecond]
  refine ⟨⟨fun l => ?_, fun l hl => ?_⟩, h.second_ne, fun l hne => ?_⟩
  · rw [Point.dist_le_iff, ← h.nearest]
    exact h.nearest_le l l.isLt
  · by_contra hlt
    have hle := Point.dist_le_iff.1 (hl t.first)
    rw [← h.nearest] at hle
    exact (h.nearest_lt l (not_le.1 hlt)).not_ge hle
  · rw [Point.dist_le_iff, ← h.next]
    exact h.next_le l l.isLt hne

omit [RealFormat] in
/-- Three of four centres are equally near to a sample: the first of them comes first, and one of the
others second. -/
theorem assignFirst_nearest_four_centres :
    letI := RealFormat.plain
    let data : Samples ℝ 1 1 := ⟨#v[0]⟩
    let centres : Matrix ℝ 4 1 := #v[#v[2], #v[1], #v[-1], #v[1]]
    let s := assignFirst (by decide) data centres
    ((0 < 1) ∧ 1 < 4) ∧ s.first.get 0 = 1 ∧ (s.second.get 0 = 2 ∨ s.second.get 0 = 3) := by
  let _ := RealFormat.plain
  intro data centres s
  have hd : 0 < 1 := Nat.one_pos
  have hK : 1 < 4 := by decide
  have hdist (l : Fin 4) : (data.point 0).sqDist (centres.get l) = ![4, 1, 1, 1] l := by
    rw [Point.sqDist_line]
    fin_cases l
    · show ((0 : ℝ) - 2) ^ 2 = 4
      norm_num
    · show ((0 : ℝ) - 1) ^ 2 = 1
      norm_num
    · show ((0 : ℝ) - -1) ^ 2 = 1
      norm_num
    · show ((0 : ℝ) - 1) ^ 2 = 1
      norm_num
  have h : FirstNearest (data.point 0) centres (s.first.get 0) ∧ s.second.get 0 ≠ s.first.get 0 ∧
      ∀ l, l ≠ s.first.get 0 → (data.point 0).dist (centres.get (s.second.get 0)) ≤
        (data.point 0).dist (centres.get l) := assignFirst_nearest hd hK data centres 0
  have hone : FirstNearest (data.point 0) centres 1 := by
    refine ⟨fun l => ?_, fun l hl => ?_⟩
    · rw [Point.dist_le_iff, hdist, hdist]
      fin_cases l <;> simp
    · have hle := Point.dist_le_iff.1 (hl 1)
      rw [hdist, hdist] at hle
      fin_cases l
      · norm_num at hle
      all_goals decide
  have hfirst : s.first.get 0 = 1 := h.1.unique hone
  rw [hfirst] at h
  obtain ⟨-, hne, hsecond⟩ := h
  refine ⟨⟨hd, hK⟩, hfirst, ?_⟩
  -- the second centre is not the first one, nor the one at distance two
  have hle : ![(4 : ℝ), 1, 1, 1] (s.second.get 0) ≤ 1 := by
    rw [← hdist]
    exact (Point.dist_le_iff.1 (hsecond 2 (by decide))).trans_eq (hdist 2)
  generalize s.second.get 0 = l at hle hne ⊢
  fin_cases l
  · norm_num at hle
  · exact absurd rfl hne
  · exact Or.inl rfl
  · exact Or.inr rfl

end

end Proximity.Transfers
