import Proximity.Proofs.TransferStages

/-!
# Runs of the transfers

A run is the list of its visits to samples. No visit compares a stale cost, every transfer lowers the
scatter of all clusters, and a run that has converged has no transfer left that would.

1. `Visit` and `Leads`: visits that are sound and each find the labelling that the one before left.
   The scatter falls along their labellings (`Leads.descends`).
2. `assignFirst_inv`: the state that the stages start from.
3. `visits`: the visits of a run, in both stages. `optimalSteps_spec`, `quickSteps_spec` and
   `rounds_spec` follow the loops.
4. `OptimalInv.step_first` and `converged_of_optimal`: a visit moves a sample where that lowers the
   scatter, and a run between two clusters converges once a stage has reached an optimum.
5. `transfers_improve` and `converged_optimal`: what holds of all runs, and of those that converged.
-/

namespace Proximity.Transfers

noncomputable section

variable {n K d : ℕ} {data : Samples ℝ n d} {s : Transfers ℝ n K d}

/-! ## Visits -/

/-- A visit to a sample: the state in which its costs are compared, and the state that it leaves. The
costs of the only member of a cluster are not compared; it is just found. -/
structure Visit (n K d : ℕ) where
  sample : Fin n
  compared : Transfers ℝ n K d
  after : Transfers ℝ n K d

/-- Costs are compared for the centres and sizes of the labelling, and a transfer lowers the scatter of
all clusters. -/
structure Visit.Sound (data : Samples ℝ n d) (v : Visit n K d) : Prop where
  centres : ∀ l, v.compared.centres.get l = centroid data.point (members v.compared.first l)
  sizes : ∀ l, v.compared.sizes.get l = (members v.compared.first l).card
  removal : v.compared.sizes.get (v.compared.first.get v.sample) ≠ 1 →
    v.compared.removal.get v.sample =
      (data.point v.sample).sqDist (v.compared.centres.get (v.compared.first.get v.sample)) *
        (v.compared.sizes.get (v.compared.first.get v.sample) /
          (v.compared.sizes.get (v.compared.first.get v.sample) - 1))
  improves : Improves data v.sample v.compared v.after

/-- The visits are sound, each finds the labelling that the one before left, and the last one leaves
the labelling `last`. -/
def Leads (data : Samples ℝ n d) :
    Vector (Fin K) n → List (Visit n K d) → (last : Vector (Fin K) n) → Prop
  | labels, [], last => labels = last
  | labels, v :: rest, last =>
    v.compared.first = labels ∧ v.Sound data ∧ Leads data v.after.first rest last

theorem Leads.append {labels middle last : Vector (Fin K) n} {us vs : List (Visit n K d)}
    (hus : Leads data labels us middle) (hvs : Leads data middle vs last) :
    Leads data labels (us ++ vs) last := by
  induction us generalizing labels with
  | nil =>
    obtain rfl : labels = middle := hus
    exact hvs
  | cons u us ih =>
    obtain ⟨hfirst, hsound, hrest⟩ := hus
    exact ⟨hfirst, hsound, ih hrest⟩

/-- The labellings of a run: the first one, and that after each transfer. -/
def labellings (initial : Vector (Fin K) n) (vs : List (Visit n K d)) : List (Vector (Fin K) n) :=
  initial :: (vs.filter fun v => v.after.first ≠ v.compared.first).map (·.after.first)

theorem Leads.sound {labels last : Vector (Fin K) n} {vs : List (Visit n K d)}
    (h : Leads data labels vs last) : ∀ v ∈ vs, v.Sound data := by
  induction vs generalizing labels with
  | nil => simp
  | cons u vs ih =>
    obtain ⟨-, hsound, hrest⟩ := h
    intro v hv
    obtain rfl | hv := List.mem_cons.1 hv
    · exact hsound
    · exact ih hrest v hv

/-- The scatter of the clusters falls from labelling to labelling. -/
theorem Leads.descends {labels last : Vector (Fin K) n} {vs : List (Visit n K d)}
    (h : Leads data labels vs last) :
    (labellings labels vs).Pairwise (fun u w => within data.point w < within data.point u) ∧
      (labellings labels vs).getLast? = some last := by
  induction vs generalizing labels with
  | nil =>
    obtain rfl : labels = last := h
    exact ⟨List.pairwise_singleton _ _, rfl⟩
  | cons v vs ih =>
    obtain ⟨rfl, hsound, hrest⟩ := h
    obtain ⟨hfirst, -⟩ | ⟨b, hb, hfirst, hlt⟩ := hsound.improves
    · have hskip : labellings v.compared.first (v :: vs) = labellings v.after.first vs := by
        simp [labellings, hfirst]
      rw [hskip]
      exact ih hrest
    · have hne : v.after.first ≠ v.compared.first := fun h => hlt.ne (by rw [h])
      have hkeep : labellings v.compared.first (v :: vs) =
          v.compared.first :: labellings v.after.first vs := by
        simp [labellings, hne]
      obtain ⟨hpairwise, hlast⟩ := ih hrest
      rw [hkeep]
      refine ⟨List.pairwise_cons.2 ⟨fun w hw => ?_, hpairwise⟩, ?_⟩
      · obtain rfl | hw := List.mem_cons.1 hw
        · exact hlt
        · exact ((List.pairwise_cons.1 hpairwise).1 w hw).trans hlt
      · rw [List.getLast?_cons, hlast]
        rfl

theorem Leads.within_le {labels last : Vector (Fin K) n} {vs : List (Visit n K d)}
    (h : Leads data labels vs last) : within data.point last ≤ within data.point labels := by
  obtain ⟨hpairwise, hlast⟩ := h.descends
  obtain rfl | hmem := List.mem_cons.1 (List.mem_of_getLast? hlast)
  · exact le_rfl
  · exact ((List.pairwise_cons.1 hpairwise).1 last hmem).le

/-! ## The first assignment -/

section Apart

variable {α : Type} [Add α] [Sub α] [Mul α] [LT α] [LE α] [DecidableLT α] [DecidableLE α] [Scalar α]

theorem foldl_consider_ne (x : Point α d) (centres : Matrix α K d) :
    ∀ (l : List (Fin K)) (t : TwoNearest α K), l.Nodup → t.second ≠ t.first →
      (∀ j ∈ l, j ≠ t.first ∧ j ≠ t.second) →
      (l.foldl (TwoNearest.consider x centres) t).second ≠
        (l.foldl (TwoNearest.consider x centres) t).first
  | [], t, _, ht, _ => ht
  | j :: l, t, hl, ht, hnew => by
    rw [List.nodup_cons] at hl
    have hj := hnew j List.mem_cons_self
    have hrest : ∀ k ∈ l, k ≠ t.first ∧ k ≠ t.second := fun k hk => hnew k (List.mem_cons_of_mem _ hk)
    have hne : ∀ k ∈ l, k ≠ j := fun k hk h => hl.1 (h ▸ hk)
    rw [List.foldl_cons]
    refine foldl_consider_ne x centres l _ hl.2 ?_ ?_
    · unfold TwoNearest.consider
      split
      · exact ht
      · split
        · exact hj.1.symm
        · exact hj.1
    · unfold TwoNearest.consider
      split
      · exact hrest
      · split
        · exact fun k hk => ⟨hne k hk, (hrest k hk).1⟩
        · exact fun k hk => ⟨(hrest k hk).1, hne k hk⟩

/-- Whatever the distances are, the two nearest centres are two. -/
theorem twoNearest_ne (hK : 1 < K) (x : Point α d) (centres : Matrix α K d) :
    (twoNearest hK x centres).second ≠ (twoNearest hK x centres).first := by
  have h01 : (⟨0, Nat.lt_trans Nat.zero_lt_one hK⟩ : Fin K) ≠ ⟨1, hK⟩ := by simp
  refine foldl_consider_ne x centres _ _ ((List.nodup_finRange K).sublist (List.drop_sublist _ _)) ?_ ?_
  · unfold TwoNearest.start
    dsimp only
    split
    · exact h01
    · exact h01.symm
  · intro j hj
    obtain ⟨k, hk, rfl⟩ := List.mem_drop_iff_getElem.1 hj
    have h0 : (List.finRange K)[2 + k] ≠ ⟨0, Nat.lt_trans Nat.zero_lt_one hK⟩ := by
      rw [List.getElem_finRange, Ne, Fin.ext_iff]
      simp
    have h1 : (List.finRange K)[2 + k] ≠ ⟨1, hK⟩ := by
      rw [List.getElem_finRange, Ne, Fin.ext_iff]
      show ¬ 2 + k = 1
      omega
    unfold TwoNearest.start
    dsimp only
    split
    · exact ⟨h1, h0⟩
    · exact ⟨h0, h1⟩

end Apart

variable [RealFormat]

/-- The state after the first assignment, where no cluster is empty. -/
theorem assignFirst_inv (hK : 1 < K) (data : Samples ℝ n d) (centres : Matrix ℝ K d)
    (h : ∀ l, (assignFirst hK data centres).sizes.get l ≠ 0) :
    RoundInv data (assignFirst hK data centres) := by
  have touched (l : Fin K) : (assignFirst hK data centres).touched.get l = true :=
    Vector.get_replicate _ _ _
  have changed (l : Fin K) : (assignFirst hK data centres).changed.get l = -1 :=
    Vector.get_replicate _ _ _
  refine ⟨⟨⟨?_, ?_, h, ?_, ?_, ?_⟩, ?_, ?_, ?_⟩, ?_, ?_⟩
  · exact means_fst data _
  · exact means_snd data _
  · exact fun l => Vector.get_map _ _ _
  · exact fun l => Vector.get_map _ _ _
  · intro i
    have := twoNearest_ne hK (data.point i) centres
    simpa [assignFirst] using this
  · intro j l _ hown
    rw [touched] at hown
    exact absurd hown Bool.noConfusion
  · intro l
    have : (assignFirst hK data centres).live.get l = 0 := Vector.get_replicate _ _ _
    rw [this]
    show (0 : ℤ) + ((0 : ℕ) : ℤ) ≤ _
    omega
  · exact fun l _ => rfl
  · intro l
    rw [changed]
    decide
  · intro j hj
    rw [changed] at hj
    exact absurd hj (by decide)

/-! ## The visits of a run -/

/-- The visit of an optimal step. -/
def optimalVisit (data : Samples ℝ n d) (s : Transfers ℝ n K d) (i : Fin n) : Visit n K d where
  sample := i
  compared :=
    if s.sizes.get (s.first.get i) = 1 then s
    else refreshOptimal { s with quiet := s.quiet + 1 } data i
  after := optimalStep data s i

/-- The visit of a quick step. -/
def quickVisit (data : Samples ℝ n d) (s : Transfers ℝ n K d) (step : ℤ) (i : Fin n) :
    Visit n K d where
  sample := i
  compared := if s.sizes.get (s.first.get i) = 1 then s else s.refreshQuick data step i
  after := (quickStep data s step i).1

/-- The visits of an optimal stage. -/
def optimalVisits (data : Samples ℝ n d) : List (Fin n) → Transfers ℝ n K d → List (Visit n K d)
  | [], _ => []
  | i :: rest, s =>
    optimalVisit data s i ::
      if (optimalStep data s i).quiet = n then []
      else optimalVisits data rest (optimalStep data s i)

/-- The visits of a quick stage. -/
def quickVisits (data : Samples ℝ n d) (hn : 0 < n) :
    (left done still : ℕ) → Transfers ℝ n K d → List (Visit n K d)
  | 0, _, _, _ => []
  | left + 1, done, still, s =>
    let i : Fin n := ⟨done % n, Nat.mod_lt _ hn⟩
    let p := quickStep data s (done + 1 : ℕ) i
    let still := if p.2 then 0 else still + 1
    quickVisit data s (done + 1 : ℕ) i ::
      if still = n then [] else quickVisits data hn left (done + 1) still p.1

/-- The visits of all rounds. -/
def roundVisits (data : Samples ℝ n d) (hn : 0 < n) : (left : ℕ) → Transfers ℝ n K d → List (Visit n K d)
  | 0, _ => []
  | left + 1, s =>
    let p := optimalStage data s
    optimalVisits data (List.finRange n) s.openOptimal ++
      if p.2 then []
      else
        let q := quickStage data hn p.1
        quickVisits data hn (quickStepsPerSample * n - 1) 0 0 p.1 ++
          if !q.2 || K = 2 then []
          else roundVisits data hn left { q.1 with changed := Vector.replicate K 0 }

/-- The visits of a run. -/
def visits (hK : 1 < K) (data : Samples ℝ n d) (centres : Matrix ℝ K d) (limit : ℕ) :
    List (Visit n K d) :=
  let s := assignFirst hK data centres
  if hn : 0 < n ∧ s.sizes.all (· ≠ 0) then roundVisits data hn.1 limit s else []

theorem sound_of_coherent {v : Visit n K d} (h : v.compared.Coherent data)
    (hfresh : v.compared.Fresh data v.sample)
    (himproves : Improves data v.sample v.compared v.after) : v.Sound data := by
  refine ⟨h.centres, h.sizes, fun hne => ?_, himproves⟩
  rw [hfresh hne, leavingCost, distance_eq, h.leave, leaveFactor_of_ne_one (h.occupied _) hne]

theorem OptimalInv.visit_sound (hd : 0 < d) {i : Fin n} (h : OptimalInv data i.val s) :
    (optimalVisit data s i).compared.first = s.first ∧ (optimalVisit data s i).Sound data := by
  have himproves := (h.step hd).2
  unfold optimalVisit
  by_cases hone : s.sizes.get (s.first.get i) = 1
  · simp only [if_pos hone]
    exact ⟨trivial, sound_of_coherent h.coherent (fun hne => absurd hone hne) himproves⟩
  · simp only [if_neg hone, refreshOptimal_eq]
    exact ⟨trivial, sound_of_coherent h.coherent.counters (fun _ => h.removal_eq hone) himproves⟩

theorem QuickInv.visit_sound (hd : 0 < d) {done still : ℕ} {i : Fin n}
    (h : QuickInv data done still s) (hi : done % n = i.val) :
    (quickVisit data s (done + 1 : ℕ) i).compared.first = s.first ∧
      (quickVisit data s (done + 1 : ℕ) i).Sound data := by
  have himproves := (h.step hi hd).2
  unfold quickVisit
  by_cases hone : s.sizes.get (s.first.get i) = 1
  · simp only [if_pos hone]
    exact ⟨trivial, sound_of_coherent h.carried.coherent (fun hne => absurd hone hne) himproves⟩
  · simp only [if_neg hone, refreshQuick_eq]
    exact ⟨trivial, sound_of_coherent h.carried.coherent.counters (fun _ => h.removal_eq hi hone)
      himproves⟩

/-! ## The loops -/

omit [RealFormat] in
/-- The samples from the `p`-th on begin with that one. -/
theorem of_drop_finRange {p : ℕ} {i : Fin n} {rest : List (Fin n)}
    (h : (List.finRange n).drop p = i :: rest) :
    i.val = p ∧ (List.finRange n).drop (p + 1) = rest := by
  have hlt : p < n := by
    have hlen : n - p = rest.length + 1 := by simpa using congrArg List.length h
    omega
  rw [List.drop_eq_getElem_cons (by simpa using hlt), List.getElem_finRange] at h
  obtain ⟨hi, hrest⟩ := List.cons.inj h
  exact ⟨by rw [← hi]; rfl, hrest⟩

theorem optimalSteps_spec (hd : 0 < d) :
    ∀ (rest : List (Fin n)) (p : ℕ) (s : Transfers ℝ n K d), p ≤ n →
      (List.finRange n).drop p = rest → OptimalInv data p s →
      let q := optimalSteps data rest s
      (if q.2 then ∃ p' ≤ n, OptimalInv data p' q.1 ∧ q.1.quiet = n else OptimalInv data n q.1) ∧
        Leads data s.first (optimalVisits data rest s) q.1.first := by
  intro rest
  induction rest with
  | nil =>
    intro p s hp hrest h
    have hlen : n - p = 0 := by simpa using congrArg List.length hrest
    obtain rfl : p = n := by omega
    exact ⟨h, rfl⟩
  | cons i rest ih =>
    intro p s hp hrest h
    obtain ⟨rfl, hrest⟩ := of_drop_finRange hrest
    obtain ⟨hstep, -⟩ := h.step hd
    obtain ⟨hfirst, hsound⟩ := h.visit_sound hd
    rw [optimalSteps, optimalVisits]
    by_cases hquiet : (optimalStep data s i).quiet = n
    · simp only [if_pos hquiet]
      exact ⟨⟨_, i.isLt, hstep, hquiet⟩, hfirst, hsound, rfl⟩
    · simp only [if_neg hquiet]
      obtain ⟨hinv, hleads⟩ := ih (i.val + 1) _ i.isLt hrest hstep
      exact ⟨hinv, hfirst, hsound, hleads⟩

theorem quickSteps_spec (hd : 0 < d) (hn : 0 < n) :
    ∀ (left done still : ℕ) (s : Transfers ℝ n K d), QuickInv data done still s →
      let q := quickSteps data hn left done still s
      (∃ done' still', QuickInv data done' still' q.1 ∧ (q.2 = true → still' = n)) ∧
        Leads data s.first (quickVisits data hn left done still s) q.1.first := by
  intro left
  induction left with
  | zero =>
    intro done still s h
    exact ⟨⟨done, still, h, fun hfalse => absurd hfalse Bool.noConfusion⟩, rfl⟩
  | succ left ih =>
    intro done still s h
    set i : Fin n := ⟨done % n, Nat.mod_lt _ hn⟩ with hi
    obtain ⟨hstep, -⟩ := h.step (i := i) rfl hd
    obtain ⟨hfirst, hsound⟩ := h.visit_sound hd (i := i) rfl
    rw [quickSteps, quickVisits]
    by_cases hstill : (if (quickStep data s (done + 1 : ℕ) i).2 then 0 else still + 1) = n
    · simp only [← hi, if_pos hstill]
      exact ⟨⟨_, _, hstep, fun _ => hstill⟩, hfirst, hsound, rfl⟩
    · simp only [← hi, if_neg hstill]
      obtain ⟨hinv, hleads⟩ := ih (done + 1) _ _ hstep
      exact ⟨hinv, hfirst, hsound, hleads⟩

theorem optimalStage_spec (hd : 0 < d) (h : RoundInv data s) :
    let p := optimalStage data s
    (if p.2 then p.1.Coherent data ∧ ∀ j l, l ≠ p.1.first.get j → p.1.Content data j l
      else QuickInv data 0 0 p.1) ∧
      Leads data s.first (optimalVisits data (List.finRange n) s.openOptimal) p.1.first := by
  obtain ⟨hinv, hleads⟩ :=
    optimalSteps_spec hd (List.finRange n) 0 s.openOptimal (Nat.zero_le n) rfl h.opened
  unfold optimalStage
  by_cases hsettled : (optimalSteps data (List.finRange n) s.openOptimal).2
  · simp only [if_pos hsettled] at hinv ⊢
    obtain ⟨p', hp', hinv, hquiet⟩ := hinv
    exact ⟨⟨hinv.coherent, fun j l => hinv.content_of_quiet hp' hquiet j⟩, hleads⟩
  · simp only [if_neg hsettled] at hinv ⊢
    exact ⟨hinv.closed, hleads⟩

/-- The rounds end in a coherent state, in which all samples are content if the transfers settled. -/
theorem rounds_spec (hd : 0 < d) (hn : 0 < n) :
    ∀ (left done : ℕ) (s : Transfers ℝ n K d), RoundInv data s →
      let q := rounds data hn left done s
      q.1.Coherent data ∧
        (q.2.2 = true → ∀ j l, l ≠ q.1.first.get j → q.1.Content data j l) ∧
        Leads data s.first (roundVisits data hn left s) q.1.first := by
  intro left
  induction left with
  | zero =>
    intro done s h
    exact ⟨h.carried.coherent, fun hfalse => absurd hfalse Bool.noConfusion, rfl⟩
  | succ left ih =>
    intro done s h
    obtain ⟨hstage, hvisits⟩ := optimalStage_spec hd h
    rw [rounds, roundVisits]
    by_cases hsettled : (optimalStage data s).2
    · simp only [if_pos hsettled] at hstage ⊢
      exact ⟨hstage.1, fun _ => hstage.2, hvisits.append rfl⟩
    · simp only [if_neg hsettled] at hstage ⊢
      obtain ⟨⟨done', still', hinv, hstill⟩, hquick⟩ :=
        quickSteps_spec hd hn (quickStepsPerSample * n - 1) 0 0 _ hstage
      rw [← quickStage] at hinv hstill hquick
      generalize quickStage data hn (optimalStage data s).1 = q at hinv hstill hquick ⊢
      obtain ⟨q, quiet⟩ := q
      cases quiet with
      | false => exact ⟨hinv.carried.coherent, fun hfalse => absurd hfalse Bool.noConfusion,
          hvisits.append (hquick.append rfl)⟩
      | true =>
        rw [hstill rfl] at hinv
        by_cases hK : K = 2
        · simp only [hK, decide_true, Bool.or_true, Bool.not_true, Bool.false_eq_true, if_true,
            if_false]
          refine ⟨hinv.carried.coherent, fun _ j l hl => ?_, hvisits.append (hquick.append rfl)⟩
          -- of two clusters, the one that is not the first is the second
          have hsecond : q.second.get j ≠ q.first.get j := hinv.carried.coherent.second j
          obtain rfl : l = q.second.get j := by omega
          exact hinv.content_of_still j
        · simp only [hK, decide_false, Bool.or_false, Bool.not_true, Bool.false_eq_true, if_false]
          obtain ⟨hcoherent, hcontent, hrest⟩ := ih (done + 1) _ hinv.settled
          exact ⟨hcoherent, hcontent, hvisits.append (hquick.append hrest)⟩

/-! ## Runs -/

theorem occupied_all (hK : 1 < K) (data : Samples ℝ n d) (centres : Matrix ℝ K d)
    (h : ∀ l, (assignFirst hK data centres).sizes.get l ≠ 0) :
    0 < n ∧ (assignFirst hK data centres).sizes.all (· ≠ 0) = true := by
  have hn : 0 < n := by
    by_contra hn
    obtain rfl : n = 0 := by omega
    refine h ⟨1, hK⟩ ?_
    rw [(assignFirst_inv hK data centres h).carried.coherent.sizes]
    exact Finset.card_eq_zero.2 (Finset.eq_empty_of_isEmpty _)
  refine ⟨hn, Vector.all_eq_true.2 fun i hi => ?_⟩
  exact decide_eq_true (h ⟨i, hi⟩)

/-- A run in which no cluster is empty after the first assignment makes the visits and ends in a
coherent state. -/
theorem hartiganWong_spec (hd : 0 < d) (hK : 1 < K) (data : Samples ℝ n d) (centres : Matrix ℝ K d)
    (limit : ℕ) (h : ∀ l, (assignFirst hK data centres).sizes.get l ≠ 0) :
    ∃ s : Transfers ℝ n K d, s.Coherent data ∧
      (hartiganWong hK data centres limit).labels = s.first ∧
      ((hartiganWong hK data centres limit).converged = true →
        ∀ j l, l ≠ s.first.get j → s.Content data j l) ∧
      Leads data (assignFirst hK data centres).first (visits hK data centres limit) s.first := by
  have hinv := assignFirst_inv hK data centres h
  have hall := occupied_all hK data centres h
  obtain ⟨hcoherent, hcontent, hleads⟩ := rounds_spec hd hall.1 limit 0 _ hinv
  refine ⟨_, hcoherent, ?_, ?_, ?_⟩
  · rw [hartiganWong]
    simp only [dif_pos hall]
  · rw [hartiganWong]
    simp only [dif_pos hall]
    exact hcontent
  · rw [visits]
    simp only [dif_pos hall]
    exact hleads

theorem hartiganWong_centres (hK : 1 < K) (data : Samples ℝ n d) (centres : Matrix ℝ K d)
    (limit : ℕ) (l : Fin K) :
    (hartiganWong hK data centres limit).centres.get l =
      centroid data.point (members (hartiganWong hK data centres limit).labels l) :=
  means_fst data _ l

/-! ## Runs that reach an optimum -/

omit [RealFormat] in
/-- The only member of a cluster lowers the scatter of all clusters nowhere. -/
theorem within_le_put_of_alone {point : Fin n → Point ℝ d} {labels : Vector (Fin K) n} {i : Fin n}
    {b : Fin K} (h : (members labels (labels.get i)).card = 1) (hb : b ≠ labels.get i) :
    within point labels ≤ within point (labels.put i b) := by
  have hi : i ∈ members labels (labels.get i) := mem_members.2 rfl
  have hnot : i ∉ members labels b := fun hmem => hb (mem_members.1 hmem).symm
  obtain ⟨j, hj⟩ := Finset.card_eq_one.1 h
  obtain rfl : i = j := by rwa [hj, Finset.mem_singleton] at hi
  have halone : scatter point {i} = 0 := by
    rw [scatter, Finset.sum_singleton, centroid_singleton]
    simp [Point.sqDist]
  have hnone : scatter point (Finset.erase {i} i) = 0 := by
    rw [Finset.erase_singleton, scatter, Finset.sum_empty]
  have hjoined : scatter point (members labels b) ≤ scatter point (insert i (members labels b)) := by
    rw [scatter_insert hnot]
    have := Point.sqDist_nonneg (point i) (centroid point (members labels b))
    have : (0 : ℝ) ≤ (members labels b).card / ((members labels b).card + 1) := by positivity
    nlinarith
  rw [within_put_eq hb.symm, hj, halone, hnone]
  linarith

/-- A visit in the optimal stage leaves a sample in its cluster only if no transfer of it lowers the
scatter of all clusters, and otherwise makes one that does. -/
theorem OptimalInv.step_first (hd : 0 < d) {i : Fin n} (h : OptimalInv data i.val s) :
    (optimalStep data s i).first = s.first ∧ (∀ b, b ≠ s.first.get i →
        within data.point s.first ≤ within data.point (s.first.put i b)) ∨
      ∃ b, b ≠ s.first.get i ∧ (optimalStep data s i).first = s.first.put i b ∧
        within data.point (s.first.put i b) < within data.point s.first := by
  obtain ⟨hone, hstep⟩ | ⟨hone, b, -, hle, hstep⟩ | ⟨b, hm, hgain, -, hstep⟩ :=
    optimalStep_cases hd h.coherent i
  · rw [h.coherent.sizes] at hone
    exact Or.inl ⟨by rw [hstep], fun b => within_le_put_of_alone hone⟩
  · refine Or.inl ⟨by rw [hstep]; rfl, fun b hb => ?_⟩
    have hcost : s.leavingCost data i ≤ s.joiningCost data i b := by
      by_cases hc : s.Considered (i.val + 1) i b
      · rw [← h.removal_eq hone]
        exact hle b hc
      · exact h.content_of_not_considered hone hb hc
    have hchange := transfer_within (b := b) ⟨rfl, hb, hone⟩ h.coherent
    show _ ≤ within data.point (s.transfer data i (s.first.get i) b).first
    linarith
  · rw [comparedOptimal, h.removal_eq hm.others] at hgain
    exact Or.inr ⟨b, hm.ne, by rw [hstep]; rfl, transfer_within_lt hm h.coherent hgain⟩

/-- Between two clusters a visit moves a sample exactly if that lowers the scatter. -/
theorem OptimalInv.step_first_two (hd : 0 < d) {s : Transfers ℝ n 2 d} {i : Fin n}
    (h : OptimalInv data i.val s) {b : Fin 2} (hb : b ≠ s.first.get i) :
    (optimalStep data s i).first =
      if within data.point (s.first.put i b) < within data.point s.first then s.first.put i b
      else s.first := by
  obtain ⟨hfirst, hle⟩ | ⟨b', hb', hfirst, hlt⟩ := h.step_first hd
  · rw [hfirst, if_neg (not_lt.2 (hle b hb))]
  · obtain rfl : b' = b := by omega
    rw [hfirst, if_pos hlt]

omit [RealFormat] in
/-- A step of the optimal stage adds at most one to the quiet steps, whatever is compared. -/
theorem optimalStep_quiet_le {α : Type} [Add α] [Sub α] [Mul α] [Div α] [LT α] [LE α] [DecidableLT α]
    [DecidableLE α] [Scalar α] (data : Samples α n d) (s : Transfers α n K d) (i : Fin n) :
    (optimalStep data s i).quiet ≤ s.quiet + 1 := by
  have hrefresh : (refreshOptimal { s with quiet := s.quiet + 1 } data i).quiet = s.quiet + 1 := by
    unfold refreshOptimal
    split <;> rfl
  unfold optimalStep
  dsimp only
  split
  · exact le_rfl
  · split
    · exact hrefresh.le
    · exact Nat.zero_le _

/-- A stage that no quiet steps come before visits all samples. -/
theorem optimalSteps_eq_foldl (data : Samples ℝ n d) :
    ∀ (rest : List (Fin n)) (p : ℕ) (s : Transfers ℝ n K d),
      (List.finRange n).drop p = rest → s.quiet ≤ p →
      (optimalSteps data rest s).1 = rest.foldl (optimalStep data) s := by
  intro rest
  induction rest with
  | nil => exact fun _ _ _ _ => rfl
  | cons i rest ih =>
    intro p s hrest hquiet
    obtain ⟨rfl, hrest⟩ := of_drop_finRange hrest
    have hnext : (optimalStep data s i).quiet ≤ i.val + 1 :=
      (optimalStep_quiet_le data s i).trans (Nat.succ_le_succ hquiet)
    rw [optimalSteps, List.foldl_cons]
    split
    next hsettled =>
      have hnil : rest = [] := by rw [← hrest, List.drop_eq_nil_iff, List.length_finRange]; omega
      rw [hnil]
      rfl
    next => exact ih (i.val + 1) _ hrest hnext

/-- The labels that such a stage leaves are those after all visits. -/
theorem optimalStage_first (h : s.quiet = 0) :
    (optimalStage data s).1.first =
      ((List.finRange n).foldl (optimalStep data) s.openOptimal).first := by
  have hquiet : s.openOptimal.quiet ≤ 0 := h.le
  rw [← optimalSteps_eq_foldl data (List.finRange n) 0 s.openOptimal rfl hquiet]
  unfold optimalStage
  dsimp only
  split <;> rfl

/-- A quick stage that finds a labelling which no transfer improves makes none and settles. -/
theorem quickSteps_of_optimal (hd : 0 < d) (hn : 0 < n) :
    ∀ (left done still : ℕ) (s : Transfers ℝ n K d), QuickInv data done still s → still < n →
      n ≤ still + left →
      (∀ i b, within data.point s.first ≤ within data.point (s.first.put i b)) →
      (quickSteps data hn left done still s).2 = true ∧
        (quickSteps data hn left done still s).1.first = s.first := by
  intro left
  induction left with
  | zero =>
    intro done still s _ hstill hleft
    omega
  | succ left ih =>
    intro done still s h hstill hleft hmin
    set i : Fin n := ⟨done % n, Nat.mod_lt _ hn⟩ with hi
    obtain ⟨hinv, himproves⟩ := h.step (i := i) rfl hd
    have hquiet : (quickStep data s (done + 1 : ℕ) i).2 = false ∧
        (quickStep data s (done + 1 : ℕ) i).1.first = s.first := by
      obtain ⟨-, hstep⟩ | ⟨-, -, hstep⟩ | ⟨hm, hgain, -⟩ :=
        quickStep_cases hd h.carried.coherent (done + 1 : ℕ) i
      · rw [hstep]
        exact ⟨rfl, rfl⟩
      · rw [hstep]
        exact ⟨rfl, rfl⟩
      · rw [comparedQuick, h.removal_eq (i := i) rfl hm.others] at hgain
        exact absurd (transfer_within_lt hm h.carried.coherent hgain) (not_lt.2 (hmin i _))
    rw [quickSteps]
    simp only [← hi, hquiet.1, Bool.false_eq_true, if_false] at hinv ⊢
    by_cases hlast : still + 1 = n
    · rw [if_pos hlast]
      exact ⟨rfl, hquiet.2⟩
    · rw [if_neg hlast]
      have hrest := ih (done + 1) (still + 1) _ hinv (by omega) (by omega)
        (by rw [hquiet.2]; exact hmin)
      rwa [hquiet.2] at hrest

/-- Between two clusters a run converges whose first stage ends at a labelling that no transfer
improves. -/
theorem converged_of_optimal (hd : 0 < d) (data : Samples ℝ n d) (centres : Matrix ℝ 2 d) {limit : ℕ}
    (hlimit : 0 < limit) (h : ∀ l, (assignFirst one_lt_two data centres).sizes.get l ≠ 0)
    (hmin : ∀ i b,
      within data.point (optimalStage data (assignFirst one_lt_two data centres)).1.first ≤
        within data.point
          ((optimalStage data (assignFirst one_lt_two data centres)).1.first.put i b)) :
    (hartiganWong one_lt_two data centres limit).converged = true ∧
      (hartiganWong one_lt_two data centres limit).labels =
        (optimalStage data (assignFirst one_lt_two data centres)).1.first := by
  have hinv := assignFirst_inv one_lt_two data centres h
  have hall := occupied_all one_lt_two data centres h
  obtain ⟨limit, rfl⟩ := Nat.exists_eq_succ_of_ne_zero hlimit.ne'
  obtain ⟨hstage, -⟩ := optimalStage_spec hd hinv
  rw [hartiganWong]
  simp only [dif_pos hall, rounds]
  by_cases hsettled : (optimalStage data (assignFirst one_lt_two data centres)).2
  · simp only [if_pos hsettled]
    exact ⟨trivial, trivial⟩
  · simp only [if_neg hsettled] at hstage ⊢
    obtain ⟨hquick, hfirst⟩ := quickSteps_of_optimal hd hall.1 (quickStepsPerSample * n - 1) 0 0 _
      hstage hall.1 (by unfold quickStepsPerSample; omega) hmin
    rw [← quickStage] at hquick hfirst
    simp only [hquick, Bool.not_true, Bool.false_eq_true, if_false, if_true]
    exact ⟨trivial, hfirst⟩

/-! ## All runs -/

/-- Three samples, of which the last two are close. -/
def threeSamples : Samples ℝ 3 1 := ⟨#v[1, 3, 4]⟩

/-- Centres to which the first two samples are assigned together. -/
def outerCentres : Matrix ℝ 2 1 := #v[#v[1], #v[6]]

theorem threeSamples_first :
    (assignFirst one_lt_two threeSamples outerCentres).first = #v[0, 0, 1] := by
  have nearest (x : Point ℝ 1) : (twoNearest one_lt_two x outerCentres).first =
      if (x.get 0 - 6) ^ 2 < (x.get 0 - 1) ^ 2 then 1 else 0 := by
    have h0 : x.sqDist (outerCentres.get 0) = (x.get 0 - 1) ^ 2 := Fin.sum_univ_one _
    have h1 : x.sqDist (outerCentres.get 1) = (x.get 0 - 6) ^ 2 := Fin.sum_univ_one _
    rw [← h0, ← h1, ← squared_eq, ← squared_eq]
    show (if Metric.squared x (outerCentres.get 1) < Metric.squared x (outerCentres.get 0) then _
      else _ : TwoNearest ℝ 2).first = _
    split <;> rfl
  refine Vector.ext_get fun i => ?_
  rw [assignFirst, Vector.get_map, Vector.get_ofFn, nearest]
  fin_cases i
  · exact if_neg (by show ¬ ((1 : ℝ) - 6) ^ 2 < (1 - 1) ^ 2; norm_num)
  · exact if_neg (by show ¬ ((3 : ℝ) - 6) ^ 2 < (3 - 1) ^ 2; norm_num)
  · exact if_pos (by show ((4 : ℝ) - 6) ^ 2 < (4 - 1) ^ 2; norm_num)

theorem threeSamples_sizes (l : Fin 2) :
    (assignFirst one_lt_two threeSamples outerCentres).sizes.get l ≠ 0 := by
  have : (assignFirst one_lt_two threeSamples outerCentres).sizes.get l =
      (members (assignFirst one_lt_two threeSamples outerCentres).first l).card := means_snd _ _ l
  rw [this, threeSamples_first]
  fin_cases l <;> decide

omit [RealFormat] in
theorem threeSamples_within (labels : Vector (Fin 2) 3) :
    within threeSamples.point labels =
      if labels.get 0 = labels.get 1 then if labels.get 1 = labels.get 2 then 14 / 3 else 2
      else if labels.get 1 = labels.get 2 then 1 / 2 else 9 / 2 := by
  have x0 : (threeSamples.point 0).get 0 = 1 := rfl
  have x1 : (threeSamples.point 1).get 0 = 3 := rfl
  have x2 : (threeSamples.point 2).get 0 = 4 := rfl
  have two (l : Fin 2) : l = 0 ∨ l = 1 := by omega
  simp only [within, Fin.sum_univ_two, scatter_eq, members, Fin.sum_univ_one, Finset.sum_filter,
    Finset.card_filter, Fin.sum_univ_three, x0, x1, x2]
  rcases two (labels.get 0) with h0 | h0 <;> rcases two (labels.get 1) with h1 | h1 <;>
    rcases two (labels.get 2) with h2 | h2 <;> rw [h0, h1, h2] <;> norm_num

/-- The first stage moves the second sample, and no other. -/
theorem threeSamples_stage :
    (optimalStage threeSamples (assignFirst one_lt_two threeSamples outerCentres)).1.first =
      #v[0, 1, 1] := by
  have hfar : within (K := 2) threeSamples.point #v[1, 0, 1] = 9 / 2 := by
    rw [threeSamples_within, if_neg (by decide), if_neg (by decide)]
  have hstart : within (K := 2) threeSamples.point #v[0, 0, 1] = 2 := by
    rw [threeSamples_within, if_pos (by decide), if_neg (by decide)]
  have hmoved : within (K := 2) threeSamples.point #v[0, 1, 1] = 1 / 2 := by
    rw [threeSamples_within, if_neg (by decide), if_pos (by decide)]
  have hback : within (K := 2) threeSamples.point #v[0, 1, 0] = 9 / 2 := by
    rw [threeSamples_within, if_neg (by decide), if_neg (by decide)]
  set s := (assignFirst one_lt_two threeSamples outerCentres).openOptimal with hs
  have hinv : OptimalInv threeSamples 0 s :=
    (assignFirst_inv one_lt_two threeSamples outerCentres threeSamples_sizes).opened
  have h : s.first = #v[0, 0, 1] := threeSamples_first
  have h0 : (optimalStep threeSamples s 0).first = #v[0, 0, 1] := by
    rw [hinv.step_first_two (i := 0) (b := 1) Nat.one_pos (by rw [h]; decide), h]
    refine if_neg ?_
    show ¬ within (K := 2) threeSamples.point #v[1, 0, 1] < _
    rw [hfar, hstart]
    norm_num
  have hinv := (hinv.step (i := 0) Nat.one_pos).1
  have h1 : (optimalStep threeSamples (optimalStep threeSamples s 0) 1).first = #v[0, 1, 1] := by
    rw [hinv.step_first_two (i := 1) (b := 1) Nat.one_pos (by rw [h0]; decide), h0]
    refine if_pos ?_
    show within (K := 2) threeSamples.point #v[0, 1, 1] < _
    rw [hmoved, hstart]
    norm_num
  have hinv := (hinv.step (i := 1) Nat.one_pos).1
  have h2 : (optimalStep threeSamples (optimalStep threeSamples (optimalStep threeSamples s 0) 1)
      2).first = #v[0, 1, 1] := by
    rw [hinv.step_first_two (i := 2) (b := 0) Nat.one_pos (by rw [h1]; decide), h1]
    refine if_neg ?_
    show ¬ within (K := 2) threeSamples.point #v[0, 1, 0] < _
    rw [hback, hmoved]
    norm_num
  have hquiet : (assignFirst one_lt_two threeSamples outerCentres).quiet = 0 := rfl
  have hall : List.finRange 3 = [0, 1, 2] := by decide
  rw [optimalStage_first hquiet, ← hs, hall]
  simp only [List.foldl_cons, List.foldl_nil]
  exact h2

/-- The run transfers the second sample, and converges. -/
theorem threeSamples_run {limit : ℕ} (hlimit : 0 < limit) :
    (hartiganWong one_lt_two threeSamples outerCentres limit).converged = true ∧
      (hartiganWong one_lt_two threeSamples outerCentres limit).labels = #v[0, 1, 1] := by
  have hleast (labels : Vector (Fin 2) 3) : 1 / 2 ≤ within threeSamples.point labels := by
    rw [threeSamples_within]
    split_ifs <;> norm_num
  have hmin : within (K := 2) threeSamples.point #v[0, 1, 1] = 1 / 2 := by
    rw [threeSamples_within, if_neg (by decide), if_pos (by decide)]
  have hrun := converged_of_optimal Nat.one_pos threeSamples outerCentres hlimit threeSamples_sizes
    fun i b => by
      rw [threeSamples_stage, hmin]
      exact hleast _
  rwa [threeSamples_stage] at hrun

/-- **Every transfer improves.** In both stages costs of leaving are compared for the centres, which are
the means of the clusters, and the sizes as they are, and a transfer lowers the scatter of all
clusters. So no labelling comes back, and the inertia of the run, the sum of squares of its labels
about its centres, is not above the scatter of the first assignment. -/
theorem transfers_improve (hd : 0 < d) (hK : 1 < K) (data : Samples ℝ n d) (centres : Matrix ℝ K d)
    (limit : ℕ) (h : ∀ l, (assignFirst hK data centres).sizes.get l ≠ 0) :
    let initial := (assignFirst hK data centres).first
    let vs := visits hK data centres limit
    let run := hartiganWong hK data centres limit
    (∀ v ∈ vs, v.Sound data) ∧ Leads data initial vs run.labels ∧
      (labellings initial vs).Nodup ∧ (labellings initial vs).getLast? = some run.labels ∧
      run.inertia = ∑ i, (data.point i).sqDist (run.centres.get (run.labels.get i)) ∧
      run.inertia ≤ within data.point initial := by
  intro initial vs run
  obtain ⟨s, -, hlabels, -, hleads⟩ := hartiganWong_spec hd hK data centres limit h
  rw [← hlabels] at hleads
  obtain ⟨hpairwise, hlast⟩ := hleads.descends
  refine ⟨hleads.sound, hleads, ?_, hlast, sumOfSquares_eq data _ _, ?_⟩
  · exact hpairwise.imp fun hlt heq => hlt.ne (by rw [heq])
  · have : run.inertia = within data.point run.labels := sumOfSquares_means data _
    rw [this]
    exact hleads.within_le

omit [RealFormat] in
/-- Three samples and two centres: the run transfers the second sample. -/
theorem transfers_improve_three_samples :
    let _ := RealFormat.plain
    let initial := (assignFirst one_lt_two threeSamples outerCentres).first
    let vs := visits one_lt_two threeSamples outerCentres 2
    let run := hartiganWong one_lt_two threeSamples outerCentres 2
    (0 < 1 ∧ 1 < 2 ∧ ∀ l, (assignFirst one_lt_two threeSamples outerCentres).sizes.get l ≠ 0) ∧
      initial = #v[0, 0, 1] ∧ run.labels = #v[0, 1, 1] ∧ (∀ v ∈ vs, v.Sound threeSamples) ∧
      (labellings initial vs).Nodup ∧ run.inertia ≤ within threeSamples.point initial := by
  intro _ initial vs run
  obtain ⟨hsound, -, hnodup, -, -, hle⟩ :=
    transfers_improve Nat.one_pos one_lt_two threeSamples outerCentres 2 threeSamples_sizes
  exact ⟨⟨Nat.one_pos, one_lt_two, threeSamples_sizes⟩, threeSamples_first,
    (threeSamples_run two_pos).2, hsound, hnodup, hle⟩

/-- **Runs that converge are local optima.** No sample that shares its cluster gains by a transfer, so
that no transfer lowers the scatter of all clusters, and every sample has a nearest centre. -/
theorem converged_optimal (hd : 0 < d) (hK : 1 < K) (data : Samples ℝ n d) (centres : Matrix ℝ K d)
    (limit : ℕ) (h : ∀ l, (assignFirst hK data centres).sizes.get l ≠ 0)
    (hconverged : (hartiganWong hK data centres limit).converged = true) :
    let run := hartiganWong hK data centres limit
    (∀ l, run.centres.get l = centroid data.point (members run.labels l)) ∧
      NoGain data.point run.labels run.centres ∧
      (∀ i b, 2 ≤ (members run.labels (run.labels.get i)).card → b ≠ run.labels.get i →
        within data.point run.labels ≤ within data.point (run.labels.put i b)) ∧
      ∀ i, Nearest (data.point i) run.centres (run.labels.get i) := by
  intro run
  obtain ⟨s, hs, hlabels, hcontent, -⟩ := hartiganWong_spec hd hK data centres limit h
  have hcentres := hartiganWong_centres hK data centres limit
  have hoptimal : NoGain data.point run.labels run.centres := by
    intro i b hi hb
    have hcost := hcontent hconverged i b (hlabels ▸ hb)
    have hne : s.sizes.get (s.first.get i) ≠ 1 := by
      rw [hs.sizes, ← hlabels]
      show (members run.labels (run.labels.get i)).card ≠ 1
      omega
    have := hcost hne
    rw [hs.leavingCost_eq hne, hs.joiningCost_eq, ← hlabels, mul_comm, mul_comm _ (_ / _)] at this
    rw [hcentres, hcentres]
    exact this
  exact ⟨hcentres, hoptimal, fun i b => hoptimal.within_le hcentres, hoptimal.nearest hcentres⟩

omit [RealFormat] in
/-- Three samples and two centres: the run converges after it has transferred the second sample. -/
theorem converged_optimal_three_samples :
    let _ := RealFormat.plain
    let run := hartiganWong one_lt_two threeSamples outerCentres 1
    (0 < 1 ∧ 1 < 2 ∧ (∀ l, (assignFirst one_lt_two threeSamples outerCentres).sizes.get l ≠ 0) ∧
        run.converged = true) ∧
      (assignFirst one_lt_two threeSamples outerCentres).first = #v[0, 0, 1] ∧
      run.labels = #v[0, 1, 1] ∧ NoGain threeSamples.point run.labels run.centres := by
  intro _ run
  obtain ⟨hconverged, hlabels⟩ := threeSamples_run Nat.one_pos
  obtain ⟨-, hoptimal, -⟩ := converged_optimal Nat.one_pos one_lt_two threeSamples outerCentres 1
    threeSamples_sizes hconverged
  exact ⟨⟨Nat.one_pos, one_lt_two, threeSamples_sizes, hconverged⟩, threeSamples_first, hlabels,
    hoptimal⟩

end

end Proximity.Transfers
