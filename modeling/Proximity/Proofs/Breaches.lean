import Proximity.Clustering.Model
import Proximity.Proofs.Counters
import Proximity.Random.Weighted

/-!
# Breaches of a fit

A fit that has enough samples and given centres of the right shape either has a result or reports an
error. It breaks off in two places only: where the sampler of the greedy seeding gets weights without a
finite total, and where the half distances of Elkan's method are more than a buffer holds.

1. `BreaksOnly`: the breaches of an outcome are allowed ones, with a lemma for every way in which
   outcomes are put together.
2. `Plan.Tolerates`: the breaches that a fit may meet, and from the room for bounds to a whole fit the
   lemmas that it meets no others (`Plan.fitGrid_breaksOnly`).
3. `Model.Fits` and `Plan.fitGrid_fits`: the model of a fit fits the data.
-/

namespace Proximity

/-! ## Outcomes -/

section Outcomes

variable {β γ : Type} {allowed : Breach → Prop}

/-- An outcome that breaks off does so with an allowed breach. -/
def BreaksOnly (allowed : Breach → Prop) (x : Outcome β) : Prop :=
  ∀ b, x = .error (.breach b) → allowed b

theorem breaksOnly_ok (a : β) : BreaksOnly allowed (.ok a) := by
  intro b hb
  cases hb

theorem breaksOnly_error (e : Error) : BreaksOnly allowed (.error (.error e) : Outcome β) := by
  intro b hb
  cases hb

theorem breaksOnly_ofChecked (x : Checked β) : BreaksOnly allowed (Outcome.ofChecked x) := by
  cases x with
  | error e => exact breaksOnly_error e
  | ok a => exact breaksOnly_ok a

theorem BreaksOnly.bind {x : Outcome β} {f : β → Outcome γ} (hx : BreaksOnly allowed x)
    (hf : ∀ a, x = .ok a → BreaksOnly allowed (f a)) : BreaksOnly allowed (x >>= f) := by
  intro b hb
  cases x with
  | error e =>
    obtain rfl : e = .breach b := Except.error.inj hb
    exact hx b rfl
  | ok a => exact hf a rfl b hb

theorem BreaksOnly.map {x : Outcome β} (hx : BreaksOnly allowed x) (f : β → γ) :
    BreaksOnly allowed (x.map f) := by
  intro b hb
  cases x with
  | error e =>
    obtain rfl : e = .breach b := Except.error.inj hb
    exact hx b rfl
  | ok a => cases hb

theorem BreaksOnly.foldlM {f : γ → β → Outcome γ} (h : ∀ acc x, BreaksOnly allowed (f acc x))
    (xs : List β) (acc : γ) : BreaksOnly allowed (xs.foldlM f acc) := by
  induction xs generalizing acc with
  | nil => exact breaksOnly_ok acc
  | cons x xs ih => exact (h acc x).bind fun next _ => ih next

theorem ofChecked_eq_ok {x : Checked β} {a : β} (h : Outcome.ofChecked x = .ok a) : x = .ok a := by
  cases x with
  | error e => cases h
  | ok a' =>
    obtain rfl : a' = a := Except.ok.inj h
    rfl

/-- A result of two steps is the result of the second on a result of the first. -/
theorem bind_eq_ok {ε : Type} {x : Except ε β} {f : β → Except ε γ} {c : γ} (h : x >>= f = .ok c) :
    ∃ a, x = .ok a ∧ f a = .ok c := by
  cases x with
  | error e => cases h
  | ok a => exact ⟨a, rfl, h⟩

theorem map_eq_ok {ε : Type} {x : Except ε β} {f : β → γ} {c : γ} (h : x.map f = .ok c) :
    ∃ a, x = .ok a ∧ f a = c := by
  cases x with
  | error e => cases h
  | ok a => exact ⟨a, rfl, Except.ok.inj h⟩

end Outcomes

variable {α σ : Type} {n K d : ℕ}

/-! ## Room for bounds -/

/-- The breaches that a fit may meet. -/
inductive Plan.Tolerates [Machine] [Scalar α] (plan : Plan α) (n K : ℕ) : Breach → Prop
  /-- The weights of the greedy seeding have no finite total. -/
  | weights (seeding : plan.seeding = .plusPlus) : plan.Tolerates n K .unboundedWeights
  /-- The half distances of Elkan's method are more than a buffer holds. There is room for its lower
  bounds nevertheless, since their number is no 64-bit word. -/
  | halfDistances (algorithm : plan.algorithm = .elkan)
      (words : UInt64.size ≤ n * (K + (Lanes.boundWidth (Scalar.bytes α) K plan.width).padding
        (Scalar.bytes α))) : plan.Tolerates n K .capacity

/-- Where there is room for the lower bounds of at least as many samples as centres there is room for
the half distances, unless the number of lower bounds is no word. -/
theorem Bounds.reserve_breaksOnly [Machine] (hK : K ≤ n) (bytes pad : ℕ) :
    BreaksOnly (fun b => b = .capacity ∧ UInt64.size ≤ n * (K + pad)) (reserve bytes n K pad) := by
  refine (breaksOnly_ofChecked _).bind fun _ _ => (breaksOnly_ofChecked _).bind fun _ hlower => ?_
  refine BreaksOnly.bind ?_ fun _ _ => (breaksOnly_ofChecked _).bind fun _ _ => breaksOnly_ofChecked _
  have hfits := Memory.reserve_eq_ok.1 (ofChecked_eq_ok hlower)
  intro b hb
  unfold Memory.demand at hb
  split at hb
  next => cases hb
  next hroom =>
    cases hb
    refine ⟨rfl, ?_⟩
    by_contra hword
    rw [Memory.wrap_of_lt (not_le.1 hword)] at hfits
    have hle : K * K ≤ n * (K + pad) := Nat.mul_le_mul hK (Nat.le_add_right K pad)
    exact hroom ((Nat.mul_le_mul_right bytes hle).trans hfits)

/-- The breaches that the making of a method may meet. -/
theorem Method.fresh_breaksOnly [Machine] [Scalar α] (hK : K ≤ n) (plan : Plan α) (d : ℕ) :
    BreaksOnly (plan.Tolerates n K)
      (Method.fresh plan.algorithm n K d plan.width : Outcome (Option (Method α n K))) := by
  unfold Method.fresh
  cases halgorithm : plan.algorithm with
  | lloyd => exact breaksOnly_ok _
  | elkan =>
    refine BreaksOnly.map (BreaksOnly.map ?_ _) _
    intro b hb
    obtain ⟨rfl, hwords⟩ := Bounds.reserve_breaksOnly hK _ _ b hb
    exact .halfDistances halgorithm hwords
  | macQueen => exact breaksOnly_ok _
  | hartiganWong => exact breaksOnly_ok _

/-- Only transfers have no method of rounds. -/
theorem Method.fresh_eq_none [Machine] [Scalar α] {algorithm : Algorithm} {pinned : Option Lanes.Width}
    (h : Method.fresh algorithm n K d pinned = .ok (none : Option (Method α n K))) :
    algorithm = .hartiganWong := by
  cases algorithm with
  | lloyd => cases h
  | elkan =>
    have hmap : (Elkan.fresh n K d pinned).map (some ∘ Method.elkan) =
      .ok (none : Option (Method α n K)) := h
    cases hfresh : (Elkan.fresh n K d pinned : Outcome (Elkan α n K)) with
    | error f =>
      rw [hfresh] at hmap
      cases hmap
    | ok e =>
      rw [hfresh] at hmap
      cases hmap
  | macQueen => cases h
  | hartiganWong => rfl

/-! ## Seeding -/

/-- Weights are refused for one reason only. -/
def Sampler.RefusesUnbounded (S : Sampler σ α) : Prop :=
  ∀ {n : ℕ} [Positive n] (w : Vector α n) (b : Breach),
    S.weighted w = .error b → b = .unboundedWeights

theorem refusal_eq {β : Type} {p q : Prop} [Decidable p] [Decidable q] {draw : β} {b : Breach}
    (h : (if p then .ok none else if q then .ok (some draw) else .error .unboundedWeights :
      Except Breach (Option β)) = .error b) : b = .unboundedWeights := by
  split at h
  next => cases h
  next =>
    split at h
    next => cases h
    next => exact (Except.error.inj h).symm

theorem Keystream.sampler_refusesUnbounded (α : Type) [Scalar α] :
    (Keystream.sampler α).RefusesUnbounded := by
  intro n _ w b hb
  -- Opening the sampler here would make the literals of its draws part of the proof.
  exact refusal_eq hb

/-- Supplied centres have the shape of the centres of a fit. -/
def Plan.Supplies (plan : Plan α) (supplied : Option (Grid α)) (K d : ℕ) : Prop :=
  plan.seeding = .supplied → ∀ g, supplied = some g → g.rows = K ∧ g.cols = d

theorem Grid.exists_spread?_eq {g : Grid α} {r c : ℕ} (hr : g.rows = r) (hc : g.cols = c) :
    ∃ M, g.spread? r c = some M := by
  rw [Grid.spread?, dif_pos ⟨Or.inl hr, Or.inl hc⟩]
  exact ⟨_, rfl⟩

/-! ## Models -/

/-- A model of some data: every sample has the number of a centre, there is a centre and there are no
more centres than samples, and the centres have the features of the data. -/
structure Model.Fits (m : Model α) (g : Grid α) : Prop where
  labels_size : m.labels.size = g.rows
  labels_lt : ∀ l ∈ m.labels, l < m.centres.rows
  centres_pos : 1 ≤ m.centres.rows
  centres_le : m.centres.rows ≤ g.rows
  features : m.centres.cols = g.cols

theorem Run.toModel_fits {g : Grid α} (hpos : 0 < K) (hK : K ≤ g.rows) (run : Run α g.rows K g.cols) :
    run.toModel.Fits g where
  labels_size := Vector.size_toArray _
  labels_lt l hl := by
    obtain ⟨i, hi, rfl⟩ := Array.mem_iff_getElem.1 hl
    simp [Run.toModel, labelNumbers, Grid.ofMatrix]
  centres_pos := hpos
  centres_le := hK
  features := rfl

/-! ## Seeds and runs -/

variable [Add α] [Sub α] [Mul α] [Div α] [Neg α] [LT α] [LE α] [DecidableLT α] [DecidableLE α]
  [BEq α] [Scalar α] {plan : Plan α} {S : Sampler σ α} {data : Samples α n d}
  {supplied : Option (Grid α)}

omit [Sub α] [Div α] [BEq α] in
theorem PlusPlus.seed_breaksOnly [Positive n] [Positive K] (hS : S.RefusesUnbounded)
    (data : Samples α n d) (centres : Matrix α K d) (g : σ) :
    BreaksOnly (· = .unboundedWeights) (PlusPlus.seed S data centres g) := by
  have hcandidates (closest : Vector α n) (g : σ) :
      BreaksOnly (· = .unboundedWeights) (PlusPlus.candidates S K closest g) := by
    intro b hb
    unfold PlusPlus.candidates at hb
    split at hb
    next b' hw =>
      cases hb
      exact hS _ _ hw
    next => cases hb
    next => cases hb
  have hchoose (M : Matrix α n d) (norms : Vector α n) (acc : Matrix α K d × Vector α n × σ)
      (l : Fin K) : BreaksOnly (· = .unboundedWeights) (PlusPlus.choose S data M norms acc l) := by
    unfold PlusPlus.choose
    refine (hcandidates _ _).bind fun drawn _ => ?_
    dsimp only
    split
    · exact breaksOnly_ok _
    · exact breaksOnly_ok _
  unfold PlusPlus.seed
  dsimp only
  split
  · exact breaksOnly_ok _
  · exact (BreaksOnly.foldlM (hchoose _ _) _ _).bind fun _ _ => breaksOnly_ok _

omit [Sub α] [BEq α] in
theorem Plan.seeded_breaksOnly [Machine] [Positive K] (data : Samples α n d)
    (hS : S.RefusesUnbounded) (hK : K ≤ n) (hsupplied : plan.Supplies supplied K d) (g : σ) :
    BreaksOnly (plan.Tolerates n K) (plan.seeded (K := K) S data supplied g) := by
  refine (breaksOnly_ofChecked _).bind fun s _ => ?_
  unfold Seeding.start
  cases hseeding : plan.seeding with
  | randomSamples =>
    dsimp only
    rw [if_pos hK]
    exact breaksOnly_ok _
  | randomPartitions => exact breaksOnly_ok _
  | plusPlus =>
    have hn : Positive n := ⟨(Positive.pos (n := K)).trans_le hK⟩
    dsimp only
    rw [dif_pos hn]
    refine BreaksOnly.map ?_ _
    intro b hb
    obtain rfl := PlusPlus.seed_breaksOnly hS data _ _ b hb
    exact .weights hseeding
  | supplied =>
    dsimp only
    split
    · exact breaksOnly_error _
    · obtain ⟨hrows, hcols⟩ := hsupplied hseeding _ rfl
      obtain ⟨M, hM⟩ := Grid.exists_spread?_eq hrows hcols
      rw [hM]
      exact breaksOnly_ok _

/-! ## Runs -/

/-- A run has a result: its method can be used for points with coordinates, and transfers have two
clusters to go between. -/
theorem Plan.run_isOk [Positive K] (hd : 0 < d) (plan : Plan α) (data : Samples α n d)
    {m : Option (Method α n K)} (hm : m = none → 1 < K) (s : RunState α n K d) :
    ∃ run m', plan.run data m s = .ok (run, m') ∧ (m' = none → 1 < K) := by
  cases m with
  | none =>
    have hK := hm rfl
    refine ⟨(hartiganWong hK data s.centres.current plan.limit).toRun, none, ?_, fun _ => hK⟩
    rw [Plan.run, transfersFrom, dif_pos hK]
    rfl
  | some m =>
    have hadmits : m.admits d plan.limit = true := by
      cases m with
      | lloyd w => rfl
      | elkan e => simp [Method.admits, Positive.pos (n := K)]
      | macQueen w => simp [Method.admits, hd]
    refine ⟨(m.improve data plan.tolerance plan.limit s).1,
      some (m.improve data plan.tolerance plan.limit s).2, ?_,
      fun h => absurd h (Option.some_ne_none _)⟩
    rw [Plan.run, if_pos hadmits]

theorem Plan.restarts_breaksOnly [Machine] [Positive K] (hS : S.RefusesUnbounded) (hK : K ≤ n)
    (hd : 0 < d) (hsupplied : plan.Supplies supplied K d) (left : ℕ) (r : Restart α σ n K d)
    (hr : r.method = none → 1 < K) :
    BreaksOnly (plan.Tolerates n K) (plan.restarts S data supplied left r) := by
  induction left generalizing r with
  | zero => exact breaksOnly_ok r
  | succ left ih =>
    rw [Plan.restarts, Plan.restart_eq]
    refine BreaksOnly.bind ?_ fun next hnext => ?_
    · refine (Plan.seeded_breaksOnly data hS hK hsupplied r.source).bind fun seed _ => ?_
      obtain ⟨run, m, hrun, -⟩ := plan.run_isOk hd data hr seed.1
      rw [hrun]
      exact breaksOnly_ok _
    · obtain ⟨seed, -, hseed⟩ := bind_eq_ok hnext
      obtain ⟨run, m, hrun, hm⟩ := plan.run_isOk hd data hr seed.1
      rw [hrun] at hseed
      obtain rfl := Except.ok.inj hseed
      exact ih _ hm

/-- A single run has a result once there are a method and a seed for it. -/
theorem Plan.exists_fit_once [Machine] [Positive K] (hd : 0 < d) {m : Option (Method α n K)}
    (hfresh : Method.fresh plan.algorithm n K d plan.width = .ok m) (hm : m = none → 1 < K) {g : σ}
    {seed : RunState α n K d × σ} (hseed : plan.seeded S data supplied g = .ok seed) :
    ∃ run, plan.fit (K := K) S data supplied 1 g = .ok run := by
  obtain ⟨run, m', hrun, -⟩ := plan.run_isOk hd data hm seed.1
  refine ⟨run, ?_⟩
  rw [Plan.fit, hfresh]
  show (plan.restarts S data supplied 1 ⟨m, g, none⟩).bind _ = _
  rw [Plan.restarts_of_run hseed hrun]
  rfl

theorem Plan.fit_breaksOnly [Machine] [Positive K] (hS : S.RefusesUnbounded) (hK : K ≤ n) (hd : 0 < d)
    (hsupplied : plan.Supplies supplied K d) (htransfers : plan.algorithm = .hartiganWong → 1 < K)
    (runs : ℕ) (g : σ) :
    BreaksOnly (plan.Tolerates n K) (plan.fit (K := K) S data supplied runs g) := by
  refine (Method.fresh_breaksOnly hK plan d).bind fun m hm => ?_
  refine BreaksOnly.bind (Plan.restarts_breaksOnly hS hK hd hsupplied runs _ ?_) fun r _ => ?_
  · rintro rfl
    exact htransfers (Method.fresh_eq_none hm)
  · split
    · exact breaksOnly_ok _
    · exact breaksOnly_error _

/-! ## Fits of grids -/

variable {g : Grid α}

/-- With a cluster for the samples a fit of a grid is one of its samples. -/
theorem Plan.fitGrid_eq [Machine] (plan : Plan α) (S : Sampler σ α) (g : Grid α)
    [hc : Clustered g.rows K] (supplied : Option (Grid α)) (runs : ℕ) (source : σ) :
    plan.fitGrid S g K supplied runs source =
      (Outcome.ofChecked (Samples.ofGrid g)).bind fun samples =>
        (plan.fit (K := K) S samples supplied runs source).map Run.toModel := by
  unfold Plan.fitGrid
  cases Outcome.ofChecked (Samples.ofGrid g) with
  | error f => rfl
  | ok samples => exact dif_pos hc

/-- A fit of a grid breaks off only in the two places named. -/
theorem Plan.fitGrid_breaksOnly [Machine] [Positive K] (hS : S.RefusesUnbounded) (hK : K ≤ g.rows)
    (hcols : 0 < g.cols) (hsupplied : plan.Supplies supplied K g.cols)
    (htransfers : plan.algorithm = .hartiganWong → 1 < K) (runs : ℕ) (source : σ) :
    BreaksOnly (plan.Tolerates g.rows K) (plan.fitGrid S g K supplied runs source) := by
  rw [Plan.fitGrid_eq]
  exact (breaksOnly_ofChecked _).bind fun samples _ =>
    (Plan.fit_breaksOnly hS hK hcols hsupplied htransfers runs source).map _

/-- The model of a fit fits the grid. -/
theorem Plan.fitGrid_fits [Machine] [hpos : Positive K] (hK : K ≤ g.rows) {runs : ℕ} {source : σ}
    {model : Model α} (h : plan.fitGrid S g K supplied runs source = .ok model) : model.Fits g := by
  rw [Plan.fitGrid_eq] at h
  obtain ⟨samples, -, hfit⟩ := bind_eq_ok h
  obtain ⟨run, -, rfl⟩ := map_eq_ok hfit
  exact run.toModel_fits hpos.pos hK

end Proximity
