import Proximity.Proofs.Agreement
import Proximity.Proofs.TreeArena

/-!
# Restarts

The runs of a fit share one method, and with it Elkan's bounds, and one source of randomness. Of what
an earlier run leaves behind, a later one sees the source only: it has the result of a run by a method
that has just been made, from a state that has just been seeded.

1. `Method.Used`: a method before and after some runs. Before the first round all bounds but the shift
   are written anew (`Elkan.start_refilled`), and the first round writes the shift of the clusters
   (`Elkan.step_refilled`). Only the padding of the shift is never written.
2. `Method.Used.improve_eq`: a run does not tell whether its method has been used.
3. `Plan.isolatedRuns`: runs by themselves, and `Plan.restarts_isolated`: a fit is made of them.
4. `Run.IsBest`: the first run of least inertia, which a fit keeps.
5. `Plan.fit_isolated`.
-/

namespace Proximity

variable {α σ : Type} {n K d pad : ℕ}

/-! ## Used methods -/

/-- Bounds whose shifts agree in the columns past the clusters. -/
def Bounds.SamePadding (b b' : Bounds α n K pad) : Prop :=
  ∀ c : Fin (K + pad), K ≤ c.val → b.shift.get c = b'.shift.get c

namespace Method

variable [Scalar α]

/-- A method before and after it has been used: its kernels stay as they are, and its bounds may hold
anything but for the padding of the shift. -/
inductive Used : Method α n K → Method α n K → Prop
  | lloyd (w : Lanes.Width) : Used (.lloyd w) (.lloyd w)
  | elkan (e : Elkan α n K) (b : Bounds α n K (e.boundWidth.padding (Scalar.bytes α)))
      (h : e.bounds.SamePadding b) : Used (.elkan e) (.elkan { e with bounds := b })
  | macQueen (w : Lanes.Width) : Used (.macQueen w) (.macQueen w)

theorem Used.refl (m : Method α n K) : m.Used m := by
  cases m with
  | lloyd w => exact .lloyd w
  | elkan e => exact .elkan e e.bounds fun _ _ => rfl
  | macQueen w => exact .macQueen w

theorem Used.rel_refl : (m : Option (Method α n K)) → Option.Rel Used m m
  | none => .none
  | some m => .some (.refl m)

theorem Used.admits {m m' : Method α n K} (h : m.Used m') (d rounds : ℕ) :
    m'.admits d rounds = m.admits d rounds := by
  cases h <;> rfl

end Method

section Rounds

variable [Add α] [Sub α] [Mul α] [Div α] [Neg α] [Scalar α]

namespace Elkan

/-- The shift after a move: in the columns of the clusters it is that of the state. -/
theorem move_shift (e : Elkan α n K) (s : RunState α n K d)
    (c : Fin (K + e.boundWidth.padding (Scalar.bytes α))) :
    (e.move s).bounds.shift.get c =
      if h : c.val < K then Scalar.sqrt (s.centres.previous.get ⟨c.val, h⟩).squaredNorm
      else e.bounds.shift.get c := Vector.get_ofFn _ _

/-- A move does not depend on the shift of the clusters that it finds. -/
theorem move_refilled (e : Elkan α n K)
    {shift : Vector α (K + e.boundWidth.padding (Scalar.bytes α))}
    (h : ∀ c, K ≤ c.val → e.bounds.shift.get c = shift.get c) (s : RunState α n K d) :
    ({ e with bounds.shift := shift } : Elkan α n K).move s = e.move s := by
  have hshift (c : Fin (K + e.boundWidth.padding (Scalar.bytes α))) :
      (if h : c.val < K then Scalar.sqrt (s.centres.previous.get ⟨c.val, h⟩).squaredNorm
        else shift.get c) =
      if h : c.val < K then Scalar.sqrt (s.centres.previous.get ⟨c.val, h⟩).squaredNorm
        else e.bounds.shift.get c := by
    split
    · rfl
    · rw [h c (Nat.le_of_not_lt ‹_›)]
  unfold Elkan.move
  simp only [hshift]

variable [LT α] [DecidableLT α]

/-- The start of a run writes all bounds but the shift. -/
theorem start_refilled [Clustered n K] (e : Elkan α n K)
    (b : Bounds α n K (e.boundWidth.padding (Scalar.bytes α))) (data : Samples α n d)
    (s : RunState α n K d) :
    ({ e with bounds := b } : Elkan α n K).start data s =
      ({ (e.start data s).1 with bounds.shift := b.shift }, (e.start data s).2) := rfl

/-- A round that moves the centres does not depend on the shift of the clusters that it finds. -/
theorem step_refilled [LE α] [DecidableLE α] (e : Elkan α n K)
    {shift : Vector α (K + e.boundWidth.padding (Scalar.bytes α))}
    (h : ∀ c, K ≤ c.val → e.bounds.shift.get c = shift.get c) (data : Samples α n d)
    (s : RunState α n K d) :
    ({ e with bounds.shift := shift } : Elkan α n K).step data true s = e.step data true s := by
  -- the search reads no shift and writes none
  have hsearch : ({ e with bounds.shift := shift } : Elkan α n K).step data false s =
      ({ (e.step data false s).1 with bounds.shift := shift }, (e.step data false s).2) := rfl
  rw [step_true, step_true, hsearch]
  dsimp only
  rw [move_refilled (e.step data false s).1 h]

end Elkan

namespace Method

variable [LT α] [DecidableLT α] [BEq α] [Clustered n K] {m m' : Method α n K}

theorem Used.start (h : m.Used m') (data : Samples α n d) (s : RunState α n K d) :
    m.Used (m'.start data s).1 := by
  cases h with
  | lloyd w => exact .lloyd w
  | elkan e b h => exact .elkan e _ h
  | macQueen w => exact .macQueen w

theorem Used.start_state (h : m.Used m') (data : Samples α n d) (s : RunState α n K d) :
    (m'.start data s).2 = (m.start data s).2 := by
  cases h <;> rfl

variable [LE α] [DecidableLE α]

theorem Used.step (h : m.Used m') (data : Samples α n d) (update : Bool) (s : RunState α n K d) :
    m.Used (m'.step data update s).1 := by
  cases h with
  | lloyd w => exact .lloyd w
  | macQueen w => exact .macQueen w
  | elkan e b h =>
    cases update with
    | false => exact .elkan e _ h
    | true =>
      -- past the clusters the shift is that from before the round
      let searched := (({ e with bounds := b } : Elkan α n K).step data false s).1
      refine .elkan e _ fun c hc => (h c hc).trans ?_
      exact ((searched.move_shift _ c).trans (dif_neg (Nat.not_lt.2 hc))).symm

/-! ### Runs -/

theorem Used.rounds (data : Samples α n d) (tol : α) (left iteration : ℕ) (h : m.Used m')
    (s : RunState α n K d) : m.Used (Method.rounds data tol left iteration m' s).method := by
  induction left generalizing iteration m' s with
  | zero => exact h
  | succ left ih =>
    have hstep := h.step data true s.swap
    rcases hr : m'.round data s with ⟨p, t⟩
    rw [show m'.step data true s.swap = (p, t) from hr] at hstep
    by_cases hc : t.convergence iteration tol = .notConverged
    · rw [rounds_next hr hc]
      exact ih (iteration + 1) hstep t
    · rw [rounds_end hr rfl hc]
      exact hstep

/-- A run hands on the method that it has used. -/
theorem Used.improve (h : m.Used m') (data : Samples α n d) (tol : α) (limit : ℕ)
    (s : RunState α n K d) : m.Used (m'.improve data tol limit s).2 := by
  have hrounds := Used.rounds data tol limit 0 (h.start data s) (m'.start data s).2
  rw [Method.improve_eq]
  dsimp only
  unfold Progress.finish
  split
  · exact hrounds.step data false _
  · exact hrounds

/-- The first round after a start is that of a method that has not been used. -/
theorem Used.first_round (h : m.Used m') (data : Samples α n d) (s t : RunState α n K d) :
    (m'.start data s).1.round data t = (m.start data s).1.round data t := by
  cases h with
  | lloyd w => rfl
  | macQueen w => rfl
  | elkan e b h =>
    have hstep := Elkan.step_refilled (e.start data s).1 h data t.swap
    simp only [Method.start, Method.round, Method.step, Elkan.start_refilled e b, hstep]

/-- A run by a used method has the result of one by a method that has not been used, and if it makes
any round it leaves the same method behind. -/
theorem Used.improve_eq (h : m.Used m') (data : Samples α n d) (tol : α) (limit : ℕ)
    (s : RunState α n K d) :
    (m'.improve data tol limit s).1 = (m.improve data tol limit s).1 ∧
      (0 < limit → m'.improve data tol limit s = m.improve data tol limit s) := by
  rw [Method.improve_eq, Method.improve_eq, h.start_state]
  cases limit with
  | zero => exact ⟨rfl, fun hlimit => absurd hlimit (Nat.lt_irrefl 0)⟩
  | succ limit =>
    -- from the first round on both methods are the same
    rw [Method.rounds, Method.rounds, h.first_round]
    exact ⟨rfl, fun _ => rfl⟩

end Method

end Rounds

/-! ## Runs by themselves -/

namespace Plan

variable [Add α] [Sub α] [Mul α] [Div α] [Neg α] [LT α] [LE α] [DecidableLT α] [DecidableLE α]
  [BEq α] [Scalar α] [Clustered n K]

/-- The source of randomness that a number of seedings leave. -/
def sourceAfter [Machine] (plan : Plan α) (S : Sampler σ α) (data : Samples α n d) (K : ℕ)
    [Clustered n K] (supplied : Option (Grid α)) : (seedings : ℕ) → σ → Outcome σ
  | 0, g => .ok g
  | seedings + 1, g =>
    (plan.seeded (K := K) S data supplied g).bind fun p =>
      plan.sourceAfter S data K supplied seedings p.2

/-- Run `r` of a fit by itself: by a method that has just been made, from a state that has just been
made and seeded from the source that the `r` seedings before it leave. -/
def isolatedRun [Machine] (plan : Plan α) (S : Sampler σ α) (data : Samples α n d)
    (supplied : Option (Grid α)) (g : σ) (r : ℕ) : Outcome (Run α n K d) := do
  let g ← plan.sourceAfter S data K supplied r g
  let m ← Method.fresh plan.algorithm n K d plan.width
  let (s, _) ← plan.seeded S data supplied g
  let (run, _) ← plan.run data m s
  return run

/-- The first runs of a fit, each by itself. -/
def isolatedRuns [Machine] (plan : Plan α) (S : Sampler σ α) (data : Samples α n d)
    (supplied : Option (Grid α)) (g : σ) (runs : ℕ) : Outcome (List (Run α n K d)) :=
  (List.range runs).mapM (plan.isolatedRun S data supplied g)

variable {plan : Plan α} {S : Sampler σ α} {data : Samples α n d} {supplied : Option (Grid α)}
  {g : σ} {m m' : Option (Method α n K)}

/-- A run by a used method fails as one by a method that has not been used does, or has the same
result. If it makes any round it leaves the same method behind. -/
theorem run_used (plan : Plan α) (h : Option.Rel Method.Used m m') (data : Samples α n d)
    (s : RunState α n K d) :
    (plan.run data m' s).map Prod.fst = (plan.run data m s).map Prod.fst ∧
      (0 < plan.limit → plan.run data m' s = plan.run data m s) := by
  cases h with
  | none => exact ⟨rfl, fun _ => rfl⟩
  | some h =>
    obtain ⟨hrun, hall⟩ := h.improve_eq data plan.tolerance plan.limit s
    unfold Plan.run
    dsimp only
    rw [h.admits]
    split
    · exact ⟨congrArg Except.ok hrun, fun hlimit => by rw [hall hlimit]⟩
    · exact ⟨rfl, fun _ => rfl⟩

/-- A run hands on the method that it has used. -/
theorem run_hands_on (h : Option.Rel Method.Used m m') {s : RunState α n K d} {run : Run α n K d}
    {q : Option (Method α n K)} (hrun : plan.run data m' s = .ok (run, q)) :
    Option.Rel Method.Used m q := by
  cases h with
  | none =>
    unfold Plan.run at hrun
    rcases ht : transfersFrom data s.centres.current (Point.beyond d) plan.limit with b | t
    · rw [ht] at hrun
      cases hrun
    · rw [ht] at hrun
      obtain ⟨-, rfl⟩ := Prod.mk.inj (Except.ok.inj hrun)
      exact .none
  | some h =>
    unfold Plan.run at hrun
    dsimp only at hrun
    split at hrun
    · obtain ⟨-, rfl⟩ := Prod.mk.inj (Except.ok.inj hrun)
      exact .some (h.improve data plan.tolerance plan.limit s)
    · cases hrun

/-! ### From run to run -/

variable [Machine]

theorem isolatedRun_eq (hfresh : Method.fresh plan.algorithm n K d plan.width = .ok m) (r : ℕ) :
    plan.isolatedRun S data supplied g r =
      (plan.sourceAfter S data K supplied r g).bind fun g =>
        (plan.seeded S data supplied g).bind fun p => (plan.run data m p.1).map Prod.fst := by
  have hrun (s : RunState α n K d) :
      (plan.run data m s).map Prod.fst = plan.run data m s >>= fun p => pure p.1 := by
    cases plan.run data m s <;> rfl
  unfold isolatedRun
  simp only [hrun, hfresh]
  rfl

theorem isolatedRuns_of_error {b : Failure}
    (hfresh : Method.fresh plan.algorithm n K d plan.width = .ok m)
    (h : plan.seeded (K := K) S data supplied g = .error b) (left : ℕ) :
    plan.isolatedRuns (K := K) S data supplied g (left + 1) = .error b := by
  rw [isolatedRuns, List.range_succ_eq_map, List.mapM_cons, isolatedRun_eq hfresh, sourceAfter,
    Except.bind, h]
  rfl

theorem isolatedRuns_of_seeded {s : RunState α n K d} {g' : σ}
    (hfresh : Method.fresh plan.algorithm n K d plan.width = .ok m)
    (h : plan.seeded S data supplied g = .ok (s, g')) (left : ℕ) :
    plan.isolatedRuns S data supplied g (left + 1) =
      ((plan.run data m s).map Prod.fst).bind fun run =>
        (plan.isolatedRuns S data supplied g' left).map (run :: ·) := by
  have hlater : plan.isolatedRun (K := K) S data supplied g ∘ Nat.succ =
      plan.isolatedRun S data supplied g' := by
    funext r
    rw [Function.comp, isolatedRun_eq hfresh, isolatedRun_eq hfresh, sourceAfter, h]
    rfl
  rw [isolatedRuns, List.range_succ_eq_map, List.mapM_cons, List.mapM_map, hlater,
    isolatedRun_eq hfresh, sourceAfter, Except.bind, h]
  rfl

/-- The runs of a fit that starts with a used method keep the best of as many runs by themselves. -/
theorem restarts_isolated {m₀ : Option (Method α n K)}
    (hfresh : Method.fresh plan.algorithm n K d plan.width = .ok m₀) (left : ℕ) (g : σ)
    (h : Option.Rel Method.Used m₀ m) (best : Option (Run α n K d)) :
    (plan.restarts S data supplied left ⟨m, g, best⟩).map (·.best) =
      (plan.isolatedRuns S data supplied g left).map
        (List.foldl (fun best run => some (Run.better best run)) best) := by
  induction left generalizing g m best with
  | zero => rfl
  | succ left ih =>
    rcases hseed : plan.seeded (K := K) S data supplied g with b | ⟨s, g'⟩
    · rw [restarts_of_error hseed, isolatedRuns_of_error hfresh hseed]
      rfl
    · rw [isolatedRuns_of_seeded hfresh hseed, ← (plan.run_used h data s).1]
      rcases hrun : plan.run data m s with b | ⟨run, q⟩
      · rw [restarts_of_failed_run hseed hrun]
        rfl
      · rw [restarts_of_run hseed hrun, ih g' (run_hands_on h hrun)]
        show _ = ((plan.isolatedRuns S data supplied g' left).map (run :: ·)).map _
        cases plan.isolatedRuns (K := K) S data supplied g' left <;> rfl

/-- The method that the runs of a fit hand on is the first one, used. -/
theorem restarts_used {m₀ : Option (Method α n K)} (left : ℕ) {r r' : Restart α σ n K d}
    (h : Option.Rel Method.Used m₀ r.method)
    (hrun : plan.restarts S data supplied left r = .ok r') :
    Option.Rel Method.Used m₀ r'.method := by
  induction left generalizing r with
  | zero => exact Except.ok.inj hrun ▸ h
  | succ left ih =>
    obtain ⟨m, g, best⟩ := r
    rcases hseed : plan.seeded (K := K) S data supplied g with b | ⟨s, g'⟩
    · rw [restarts_of_error hseed] at hrun
      cases hrun
    · rcases hone : plan.run data m s with b | ⟨run, q⟩
      · rw [restarts_of_failed_run hseed hone] at hrun
        cases hrun
      · rw [restarts_of_run hseed hone] at hrun
        exact ih (r := ⟨q, g', _⟩) (run_hands_on h hone) hrun

end Plan

/-! ## The best run -/

namespace Run

variable [LT α] {P : α → Prop}

/-- The first of some runs that none of them has less inertia than. -/
def IsBest (runs : List (Run α n K d)) (run : Run α n K d) : Prop :=
  ∃ before after, runs = before ++ run :: after ∧ (∀ r ∈ before, run.inertia < r.inertia) ∧
    ∀ r ∈ after, ¬ r.inertia < run.inertia

variable {runs : List (Run α n K d)} {b run : Run α n K d}

theorem IsBest.mem (h : b.IsBest runs) : b ∈ runs := by
  obtain ⟨before, after, rfl, -, -⟩ := h
  exact List.mem_append_right _ List.mem_cons_self

theorem IsBest.not_lt (hP : TotallyOrdered P) (hruns : ∀ r ∈ runs, P r.inertia)
    (h : b.IsBest runs) {r : Run α n K d} (hr : r ∈ runs) : ¬ r.inertia < b.inertia := by
  have hb := hruns b h.mem
  obtain ⟨before, after, rfl, hbefore, hafter⟩ := h
  rcases List.mem_append.1 hr with hmem | hmem
  · exact hP.asymm _ _ hb (hruns r hr) (hbefore r hmem)
  · rcases List.mem_cons.1 hmem with rfl | hmem
    · exact hP.irrefl _ hb
    · exact hafter r hmem

/-- One more run: it is kept only if it is better than the best one before. -/
theorem IsBest.snoc [DecidableLT α] (hP : TotallyOrdered P)
    (hruns : ∀ r ∈ runs ++ [run], P r.inertia) (h : b.IsBest runs) :
    (Run.better (some b) run).IsBest (runs ++ [run]) := by
  have hbefore (r) (hr : r ∈ runs) : P r.inertia := hruns r (List.mem_append_left _ hr)
  unfold Run.better
  dsimp only
  split
  case isTrue hlt =>
    refine ⟨runs, [], rfl, fun r hr => ?_, nofun⟩
    have hle : ¬ r.inertia < b.inertia := h.not_lt hP hbefore hr
    by_contra hge
    exact hP.trans b.inertia r.inertia run.inertia (hbefore b h.mem) (hbefore r hr)
      (hruns run (List.mem_append_right _ List.mem_cons_self)) hle hge hlt
  case isFalse hle =>
    obtain ⟨before, after, rfl, hfirst, hleast⟩ := h
    refine ⟨before, after ++ [run], by rw [List.append_assoc, List.cons_append], hfirst, ?_⟩
    intro r hr
    rcases List.mem_append.1 hr with hmem | hmem
    · exact hleast r hmem
    · rwa [List.mem_singleton.1 hmem]

theorem IsBest.append [DecidableLT α] (hP : TotallyOrdered P) (more : List (Run α n K d))
    (hruns : ∀ r ∈ runs ++ more, P r.inertia) (h : b.IsBest runs) :
    ∃ best, more.foldl (fun best run => some (Run.better best run)) (some b) = some best ∧
      best.IsBest (runs ++ more) := by
  induction more generalizing runs b with
  | nil => exact ⟨b, rfl, by rwa [List.append_nil]⟩
  | cons run more ih =>
    rw [List.append_cons] at hruns ⊢
    exact ih hruns (h.snoc hP fun r hr => hruns r (List.mem_append_left _ hr))

theorem exists_best [DecidableLT α] (hP : TotallyOrdered P) (hne : runs ≠ [])
    (hruns : ∀ r ∈ runs, P r.inertia) :
    ∃ best, runs.foldl (fun best run => some (Run.better best run)) none = some best ∧
      best.IsBest runs := by
  obtain ⟨first, more, rfl⟩ := List.exists_cons_of_ne_nil hne
  have hfirst : IsBest [first] first := ⟨[], [], rfl, nofun, nofun⟩
  exact IsBest.append hP more hruns hfirst

end Run

/-! ## Fits -/

/-- A loop that stops at the first failure has results where all its steps have. -/
theorem mapM_eq_ok {ι β ε : Type} {f : ι → Except ε β} {is : List ι} {ys : List β} :
    is.mapM f = .ok ys ↔ List.Forall₂ (fun i y => f i = .ok y) is ys := by
  induction is generalizing ys with
  | nil =>
    rw [List.mapM_nil, List.forall₂_nil_left_iff]
    exact ⟨fun h => (Except.ok.inj h).symm, fun h => congrArg Except.ok h.symm⟩
  | cons i is ih =>
    rw [List.mapM_cons, List.forall₂_cons_left_iff]
    constructor
    · intro h
      rcases hi : f i with b | y
      · rw [hi] at h
        cases h
      · rcases his : is.mapM f with b | rest
        · rw [hi, his] at h
          cases h
        · rw [hi, his] at h
          exact ⟨y, rest, rfl, ih.1 his, (Except.ok.inj h).symm⟩
    · rintro ⟨y, rest, hi, hrest, rfl⟩
      rw [hi, ih.2 hrest]
      rfl

section Fits

variable [Machine] [Add α] [Sub α] [Mul α] [Div α] [Neg α] [LT α] [LE α] [DecidableLT α]
  [DecidableLE α] [BEq α] [Scalar α] [Clustered n K]

namespace Plan

variable {plan : Plan α} {S : Sampler σ α} {data : Samples α n d} {supplied : Option (Grid α)}
  {g : σ} {m m' : ℕ} {runs : List (Run α n K d)}

/-- Of runs by themselves that all have a result, the first ones have. -/
theorem isolatedRuns_take (hle : m ≤ m') (h : plan.isolatedRuns S data supplied g m' = .ok runs) :
    plan.isolatedRuns S data supplied g m = .ok (runs.take m) := by
  have htake := List.forall₂_take m (mapM_eq_ok.1 h)
  rw [List.take_range, Nat.min_eq_left hle] at htake
  exact mapM_eq_ok.2 htake

/-- The inertias of the first runs of a fit, each by itself. -/
def IsInertia (plan : Plan α) (S : Sampler σ α) (data : Samples α n d) (K : ℕ) [Clustered n K]
    (supplied : Option (Grid α)) (g : σ) (m : ℕ) (x : α) : Prop :=
  ∃ r < m, ∃ run : Run α n K d, plan.isolatedRun S data supplied g r = .ok run ∧ run.inertia = x

/-- Each of some runs by themselves is the run of some number. -/
theorem exists_isolatedRun (h : plan.isolatedRuns S data supplied g m = .ok runs)
    {run : Run α n K d} (hrun : run ∈ runs) :
    ∃ r < m, plan.isolatedRun S data supplied g r = .ok run := by
  have hruns := mapM_eq_ok.1 h
  obtain ⟨i, hi, rfl⟩ := List.mem_iff_getElem.1 hrun
  have hlen : i < (List.range m).length := hruns.length_eq ▸ hi
  refine ⟨i, by rwa [List.length_range] at hlen, ?_⟩
  simpa using hruns.get hlen hi

theorem isolatedRuns_inertia (h : plan.isolatedRuns S data supplied g m = .ok runs)
    {run : Run α n K d} (hrun : run ∈ runs) : plan.IsInertia S data K supplied g m run.inertia := by
  obtain ⟨r, hr, hisolated⟩ := exists_isolatedRun h hrun
  exact ⟨r, hr, run, hisolated, rfl⟩

/-- A fit fails as one of its runs does by itself, or keeps the best of them. -/
theorem fit_best (hm : 1 ≤ m) (horder : TotallyOrdered (plan.IsInertia S data K supplied g m)) :
    (∃ b, plan.isolatedRuns (K := K) S data supplied g m = .error b ∧
      plan.fit (K := K) S data supplied m g = .error b) ∨
    ∃ runs : List (Run α n K d), plan.isolatedRuns S data supplied g m = .ok runs ∧
      runs.length = m ∧
      ∃ run, plan.fit S data supplied m g = .ok run ∧ run.IsBest runs := by
  rcases hfresh : Method.fresh (α := α) plan.algorithm n K d plan.width with b | m₀
  · -- without a method neither the fit nor its first run gets anywhere
    refine Or.inl ⟨b, ?_, ?_⟩
    · obtain ⟨m, rfl⟩ := Nat.exists_eq_add_of_le' hm
      rw [isolatedRuns, List.range_succ_eq_map, List.mapM_cons, isolatedRun, hfresh]
      rfl
    · rw [Plan.fit, hfresh]
      rfl
  · have hfit := fit_of_fresh hfresh S data supplied m g
    rw [restarts_isolated hfresh m g (Method.Used.rel_refl m₀) none] at hfit
    rcases hruns : plan.isolatedRuns (K := K) S data supplied g m with b | runs
    · rw [hruns] at hfit
      exact Or.inl ⟨b, rfl, hfit⟩
    · have hlen : runs.length = m := by
        rw [← (mapM_eq_ok.1 hruns).length_eq, List.length_range]
      have hne : runs ≠ [] := List.ne_nil_of_length_pos (hlen ▸ hm)
      obtain ⟨best, hbest, his⟩ :=
        Run.exists_best horder hne fun r hr => isolatedRuns_inertia hruns hr
      rw [hruns] at hfit
      refine Or.inr ⟨runs, rfl, hlen, best, hfit.trans ?_, his⟩
      exact congrArg Run.chosen hbest

theorem IsInertia.mono (hle : m ≤ m') (x : α) (h : plan.IsInertia S data K supplied g m x) :
    plan.IsInertia S data K supplied g m' x := by
  obtain ⟨r, hr, h⟩ := h
  exact ⟨r, hr.trans_le hle, h⟩

/-- **Restarts are isolated, and the best one is kept.** A fit of some runs whose inertias can be
compared keeps the first one of least inertia, where each of them is the run that a method that has
just been made would do, from a state that has just been made and seeded from the source that the
seedings before have left; it fails only as such a run does. With more runs the inertia is not larger.
The method that is handed on does the same as a new one, and where there are rounds it is itself handed
on as a new one is; of Elkan's method this holds whatever the bounds are that it finds, with the padding
of the shift as it was. -/
theorem fit_isolated (plan : Plan α) (S : Sampler σ α) (data : Samples α n d)
    (supplied : Option (Grid α)) (g : σ) (hm : 1 ≤ m) (hle : m ≤ m')
    (horder : TotallyOrdered (plan.IsInertia S data K supplied g m')) :
    ((∃ b, plan.isolatedRuns (K := K) S data supplied g m = .error b ∧
        plan.fit (K := K) S data supplied m g = .error b) ∨
      ∃ runs : List (Run α n K d), plan.isolatedRuns S data supplied g m = .ok runs ∧
        runs.length = m ∧
        ∃ run, plan.fit S data supplied m g = .ok run ∧ run.IsBest runs) ∧
    (∀ run' : Run α n K d, plan.fit S data supplied m' g = .ok run' →
      ∃ run : Run α n K d, plan.fit S data supplied m g = .ok run ∧
        ¬ run.inertia < run'.inertia) ∧
    (∀ (m₀ : Option (Method α n K)) (left : ℕ) (r : Restart α σ n K d),
      Method.fresh plan.algorithm n K d plan.width = .ok m₀ →
      plan.restarts S data supplied left ⟨m₀, g, none⟩ = .ok r →
      ∀ s, (plan.run data r.method s).map Prod.fst = (plan.run data m₀ s).map Prod.fst ∧
        (0 < plan.limit → plan.run data r.method s = plan.run data m₀ s)) ∧
    ∀ (e : Elkan α n K) (b : Bounds α n K (e.boundWidth.padding (Scalar.bytes α))),
      e.bounds.SamePadding b → ∀ s,
        (plan.run data (some (.elkan { e with bounds := b })) s).map Prod.fst =
            (plan.run data (some (.elkan e)) s).map Prod.fst ∧
          (0 < plan.limit → plan.run data (some (.elkan { e with bounds := b })) s =
            plan.run data (some (.elkan e)) s) := by
  have hfew := fit_best hm (horder.mono (IsInertia.mono hle))
  refine ⟨hfew, fun run' hrun' => ?_, fun m₀ left r hfresh hr s => ?_, fun e b hb s => ?_⟩
  · rcases fit_best (hm.trans hle) horder with ⟨b, -, hmany⟩ | ⟨runs', hruns', -, best', hmany, hbest'⟩
    · cases hmany.symm.trans hrun'
    · obtain rfl : best' = run' := Except.ok.inj (hmany.symm.trans hrun')
      have htake := isolatedRuns_take hle hruns'
      rcases hfew with ⟨b, herror, -⟩ | ⟨runs, hruns, -, best, hfit, hbest⟩
      · cases herror.symm.trans htake
      · obtain rfl : runs = runs'.take m := Except.ok.inj (hruns.symm.trans htake)
        refine ⟨best, hfit, ?_⟩
        exact hbest'.not_lt horder (fun r hr => isolatedRuns_inertia hruns' hr)
          (List.mem_of_mem_take hbest.mem)
  · exact run_used plan (restarts_used left (Method.Used.rel_refl m₀) hr) data s
  · exact run_used plan (.some (.elkan e b hb)) data s

omit [Machine] in
/-- Two samples, each of them a centre: the best of two runs of Elkan's method, against three. -/
theorem fit_isolated_two_samples :
    letI := RealFormat.plain
    letI := Machine.standard
    let plan : Plan ℝ := ⟨.elkan, .randomSamples, 1, 0, some .avx2⟩
    let data : Samples ℝ 2 1 := ⟨#v[0, 10]⟩
    (1 ≤ 2 ∧ 2 ≤ 3 ∧ TotallyOrdered (plan.IsInertia firstChoices data 2 none () 3)) ∧
      ∃ runs : List (Run ℝ 2 2 1), plan.isolatedRuns firstChoices data none () 2 = .ok runs ∧
        runs.length = 2 ∧
        ∃ run, plan.fit firstChoices data none 2 () = .ok run ∧ run.IsBest runs := by
  let _ := RealFormat.plain
  let _ := Machine.standard
  intro plan data
  have horder : TotallyOrdered (plan.IsInertia firstChoices data 2 none () 3) :=
    { asymm := fun _ _ _ _ => lt_asymm
      trans := fun _ _ _ _ _ _ hxy hyz => not_lt.2 ((not_lt.1 hxy).trans (not_lt.1 hyz)) }
  have hm : 1 ≤ 2 := by decide
  have hle : 2 ≤ 3 := by decide
  refine ⟨⟨hm, hle, horder⟩, ?_⟩
  obtain ⟨hbest, -⟩ := fit_isolated plan firstChoices data none () hm hle horder
  refine hbest.resolve_left ?_
  rintro ⟨b, hb, -⟩
  obtain ⟨s, hseed⟩ : ∃ s : RunState ℝ 2 2 1,
      plan.seeded firstChoices data none () = .ok (s, ()) := ⟨_, rfl⟩
  let e : Elkan ℝ 2 2 :=
    { boundWidth := Lanes.boundWidth (Scalar.bytes ℝ) 2 (some .avx2)
      distanceWidth := Lanes.distanceWidth (Scalar.bytes ℝ) 1 (some .avx2)
      bounds := Bounds.blank 2 2 _ }
  have hroom : plan.room 2 2 = .ok () := by
    show Bounds.reserve 8 2 2 ((Lanes.boundWidth 8 2 (some .avx2)).padding 8) = .ok ()
    decide
  have hfresh : Method.fresh plan.algorithm 2 2 1 plan.width = .ok (some (.elkan e)) := by
    rw [Method.fresh, Elkan.fresh, show Bounds.reserve _ _ _ _ = _ from hroom]
    rfl
  obtain ⟨p, hrun⟩ : ∃ p, plan.run data (some (.elkan e)) s = .ok p :=
    ⟨_, if_pos (elkan_admits e 1 plan.limit)⟩
  rw [isolatedRuns_of_seeded hfresh hseed, hrun, isolatedRuns_of_seeded hfresh hseed, hrun] at hb
  cases hb

end Plan

end Fits

end Proximity
