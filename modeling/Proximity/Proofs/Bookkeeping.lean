import Proximity.Proofs.Counters
import Proximity.Proofs.TransferRuns

/-!
# The bookkeeping of the transfers

Labels, sizes and factors of the transfers, whatever the outcomes of comparisons are: no law of the
numbers is used but, where factors are concerned, that counts are converted and divided exactly.

1. `Consistent` and `Factored`: a state whose bookkeeping belongs to its labels.
2. `Step`: all that a step can do to the bookkeeping, `optimalStep_step` and `quickStep_step`.
3. `Moment.next`: the transfers as a machine, one step after another. `Consistent` and `Factored`
   hold in all its moments, the rounds end in one of them (`rounds_after`), and a quick stage ends
   (`quick_ends`).
-/

namespace Proximity.Transfers

variable {n K d : ℕ} {α : Type} [Add α] [Sub α] [Mul α] [Div α] [LT α] [LE α] [DecidableLT α]
  [DecidableLE α] [Scalar α] {s t u : Transfers α n K d}

/-! ## Bookkeeping -/

/-- Labels, sizes and factors of two states are the same. -/
structure SameBooks (s t : Transfers α n K d) : Prop where
  first : t.first = s.first
  second : t.second = s.second
  sizes : t.sizes = s.sizes
  join : t.join = s.join
  leave : t.leave = s.leave

omit [Add α] [Sub α] [Mul α] [Div α] [LT α] [LE α] [DecidableLT α] [DecidableLE α] [Scalar α] in
theorem SameBooks.trans (h : SameBooks s t) (h' : SameBooks t u) : SameBooks s u :=
  ⟨h'.first.trans h.first, h'.second.trans h.second, h'.sizes.trans h.sizes, h'.join.trans h.join,
    h'.leave.trans h.leave⟩

/-- Every sample has a second cluster, and the sizes are those of the clusters, none of which is
empty. -/
structure Consistent (s : Transfers α n K d) : Prop where
  apart : ∀ i, s.second.get i ≠ s.first.get i
  tallied : ∀ l, s.sizes.get l = (members s.first l).card
  occupied : ∀ l, 1 ≤ s.sizes.get l

omit [Add α] [Sub α] [Mul α] [Div α] [LT α] [LE α] [DecidableLT α] [DecidableLE α] [Scalar α] in
theorem Consistent.congr (h : s.Consistent) (hbooks : SameBooks s t) : t.Consistent := by
  refine ⟨fun i => ?_, fun l => ?_, fun l => ?_⟩
  · rw [hbooks.second, hbooks.first]
    exact h.apart i
  · rw [hbooks.sizes, hbooks.first]
    exact h.tallied l
  · rw [hbooks.sizes]
    exact h.occupied l

omit [Add α] [Sub α] [Mul α] [Div α] [LT α] [LE α] [DecidableLT α] [DecidableLE α] [Scalar α] in
theorem Consistent.size_le (h : s.Consistent) (l : Fin K) : s.sizes.get l ≤ n := by
  rw [h.tallied]
  exact (Finset.card_le_univ _).trans_eq (Fintype.card_fin n)

/-- Counts up to `n` are converted exactly: so are their neighbours, their comparison with one, and
none but zero is zero. -/
structure ExactCounts (α : Type) [Add α] [Sub α] [LT α] [Scalar α] (n : ℕ) : Prop where
  pred {m : ℕ} : 0 < m → m ≤ n → (Scalar.ofNat m - Scalar.one : α) = Scalar.ofNat (m - 1)
  succ {m : ℕ} : m ≤ n → (Scalar.ofNat m + Scalar.one : α) = Scalar.ofNat (m + 1)
  one_lt_iff {m : ℕ} : m ≤ n → ((Scalar.one : α) < Scalar.ofNat m ↔ 1 < m)
  ne_zero {m : ℕ} : 0 < m → m ≤ n + 1 → (Scalar.ofNat m : α) ≠ Scalar.zero

theorem ExactCounts.real [RealFormat] (n : ℕ) : ExactCounts ℝ n where
  pred hpos _ := by simp [Nat.cast_pred hpos]
  succ _ := by simp
  one_lt_iff _ := by simp
  ne_zero hpos _ := by simpa using hpos.ne'

/-- The factors are those of the sizes. -/
structure Factored (s : Transfers α n K d) : Prop where
  join : ∀ l, s.join.get l = Scalar.ofNat (s.sizes.get l) / Scalar.ofNat (s.sizes.get l + 1)
  leave : ∀ l, s.leave.get l =
    if 1 < s.sizes.get l then Scalar.ofNat (s.sizes.get l) / Scalar.ofNat (s.sizes.get l - 1)
    else prohibitive

omit [Add α] [Sub α] [Mul α] [LT α] [LE α] [DecidableLT α] [DecidableLE α] in
theorem Factored.congr (h : s.Factored) (hbooks : SameBooks s t) : t.Factored := by
  refine ⟨fun l => ?_, fun l => ?_⟩
  · rw [hbooks.join, hbooks.sizes]
    exact h.join l
  · rw [hbooks.leave, hbooks.sizes]
    exact h.leave l

omit [Mul α] [LE α] [DecidableLT α] [DecidableLE α] in
theorem ExactCounts.joinFactor_eq (exact : ExactCounts α n) {m : ℕ} (hm : m ≤ n) :
    joinFactor (Scalar.ofNat m : α) = Scalar.ofNat m / Scalar.ofNat (m + 1) := by
  rw [joinFactor, exact.succ hm]

omit [Mul α] [LE α] [DecidableLE α] in
theorem ExactCounts.leaveFactor_eq (exact : ExactCounts α n) {m : ℕ} (hm : m ≤ n) :
    leaveFactor (Scalar.ofNat m : α) =
      if 1 < m then Scalar.ofNat m / Scalar.ofNat (m - 1) else prohibitive := by
  unfold leaveFactor
  by_cases h : 1 < m
  · rw [if_pos ((exact.one_lt_iff hm).2 h), if_pos h, exact.pred (by omega) hm]
  · rw [if_neg (mt (exact.one_lt_iff hm).1 h), if_neg h]

theorem assignFirst_consistent (hK : 1 < K) (data : Samples α n d) (centres : Matrix α K d)
    (h : ∀ l, (assignFirst hK data centres).sizes.get l ≠ 0) :
    (assignFirst hK data centres).Consistent where
  apart i := by simpa [assignFirst] using twoNearest_ne hK (data.point i) centres
  tallied := assignFirst_tallied hK data centres
  occupied l := Nat.one_le_iff_ne_zero.2 (h l)

theorem assignFirst_factored (exact : ExactCounts α n) (hK : 1 < K) (data : Samples α n d)
    (centres : Matrix α K d) (h : ∀ l, (assignFirst hK data centres).sizes.get l ≠ 0) :
    (assignFirst hK data centres).Factored := by
  have hsize := (assignFirst_consistent hK data centres h).size_le
  refine ⟨fun l => ?_, fun l => ?_⟩
  · rw [← exact.joinFactor_eq (hsize l)]
    exact Vector.get_map _ _ _
  · rw [← exact.leaveFactor_eq (hsize l)]
    exact Vector.get_map _ _ _

/-! ## Transfers -/

/-- Sample `i` shares cluster `a` with others and can be transferred to another cluster `b` that is
not empty. -/
structure Transferable (s : Transfers α n K d) (i : Fin n) (a b : Fin K) : Prop where
  source : s.first.get i = a
  ne : b ≠ a
  shared : 2 ≤ s.sizes.get a
  joined : 1 ≤ s.sizes.get b

/-- What a transfer from cluster `a` to cluster `b` divides by. -/
def divisors (s : Transfers α n K d) (a b : Fin K) : List α :=
  let na : α := Scalar.ofNat (s.sizes.get a)
  let nb : α := Scalar.ofNat (s.sizes.get b)
  let less := na - Scalar.one
  let more := nb + Scalar.one
  [less, more, na, more + Scalar.one, nb] ++ if Scalar.one < less then [less - Scalar.one] else []

section Transfer

variable {data : Samples α n d} {i : Fin n} {a b : Fin K}

omit [Add α] [Sub α] [Mul α] [Div α] [LT α] [LE α] [DecidableLT α] [DecidableLE α] [Scalar α] in
theorem get_put_put {β : Type} (v : Vector β K) (a b l : Fin K) (x y : β) :
    ((v.put a x).put b y).get l = if b = l then y else if a = l then x else v.get l := by
  rw [Vector.get_put, Vector.get_put]

omit [LE α] [DecidableLE α] in
theorem transfer_size (ht : s.Transferable i a b) (l : Fin K) :
    (s.transfer data i a b).sizes.get l =
      if b = l then s.sizes.get b + 1 else if a = l then s.sizes.get a - 1 else s.sizes.get l := by
  have hb : (s.sizes.put a (s.sizes.get a - 1)).get b = s.sizes.get b :=
    Vector.get_put_of_ne _ _ ht.ne.symm
  show ((s.sizes.put a (s.sizes.get a - 1)).put b
    ((s.sizes.put a (s.sizes.get a - 1)).get b + 1)).get l = _
  rw [hb, get_put_put]

omit [LE α] [DecidableLE α] in
/-- A transfer of a sample that is not alone empties no cluster. -/
theorem Consistent.transfer (h : s.Consistent) (ht : s.Transferable i a b) :
    (s.transfer data i a b).Consistent := by
  refine ⟨fun j => ?_, Tallied.transfer h.tallied data ht.source b, fun l => ?_⟩
  · show (s.second.put i a).get j ≠ (s.first.put i b).get j
    rw [Vector.get_put, Vector.get_put]
    split
    · exact ht.ne.symm
    · exact h.apart j
  · have hshared := ht.shared
    have hl := h.occupied l
    rw [transfer_size ht]
    split
    · omega
    · split <;> omega

omit [Add α] [Sub α] [Mul α] [Div α] [LT α] [LE α] [DecidableLT α] [DecidableLE α] [Scalar α] in
/-- The sample that is transferred is not in the cluster that it joins. -/
theorem Consistent.room (h : s.Consistent) (ht : s.Transferable i a b) : s.sizes.get b + 1 ≤ n := by
  have hi : i ∉ members s.first b := fun hmem => ht.ne ((mem_members.1 hmem).symm.trans ht.source)
  calc s.sizes.get b + 1 = (insert i (members s.first b)).card := by
        rw [Finset.card_insert_of_notMem hi, h.tallied]
    _ ≤ n := (Finset.card_le_univ _).trans_eq (Fintype.card_fin n)

/-- The counts that a transfer computes are those after it. -/
structure Recounted (s : Transfers α n K d) (a b : Fin K) : Prop where
  less : (Scalar.ofNat (s.sizes.get a) - Scalar.one : α) = Scalar.ofNat (s.sizes.get a - 1)
  more : (Scalar.ofNat (s.sizes.get b) + Scalar.one : α) = Scalar.ofNat (s.sizes.get b + 1)
  next : (Scalar.ofNat (s.sizes.get b + 1) + Scalar.one : α) = Scalar.ofNat (s.sizes.get b + 1 + 1)

omit [Mul α] [Div α] [LE α] [DecidableLT α] [DecidableLE α] in
theorem Consistent.recounted (exact : ExactCounts α n) (h : s.Consistent)
    (ht : s.Transferable i a b) : s.Recounted a b where
  less := exact.pred (h.occupied a) (h.size_le a)
  more := exact.succ (h.size_le b)
  next := exact.succ (h.room ht)

omit [LE α] [DecidableLE α] in
theorem transfer_factored (exact : ExactCounts α n) (h : s.Consistent) (hf : s.Factored)
    (ht : s.Transferable i a b) : (s.transfer data i a b).Factored := by
  have counts := h.recounted exact ht
  have hshared := ht.shared
  have hjoined := ht.joined
  have ha := h.size_le a
  refine ⟨fun l => ?_, fun l => ?_⟩
  · show ((s.join.put a _).put b _).get l = _
    rw [get_put_put, transfer_size ht, counts.less, counts.more, counts.next]
    split
    · rfl
    · split
      · rw [Nat.sub_add_cancel (by omega)]
      · exact hf.join l
  · show ((s.leave.put a _).put b _).get l = _
    rw [get_put_put, transfer_size ht, counts.less, counts.more, exact.leaveFactor_eq (by omega)]
    split
    · rw [if_pos (by omega), Nat.add_sub_cancel]
    · split
      · rfl
      · exact hf.leave l

omit [Mul α] [Div α] [LE α] [DecidableLE α] in
/-- A transfer divides by no zero. -/
theorem divisors_ne_zero (exact : ExactCounts α n) (h : s.Consistent) (ht : s.Transferable i a b) :
    ∀ x ∈ s.divisors a b, x ≠ Scalar.zero := by
  have counts := h.recounted exact ht
  have hshared := ht.shared
  have hjoined := ht.joined
  have ha := h.size_le a
  have hroom := h.room ht
  have ne_zero {m : ℕ} (hpos : 0 < m) (hle : m ≤ n + 1) : (Scalar.ofNat m : α) ≠ Scalar.zero :=
    exact.ne_zero hpos hle
  unfold divisors
  dsimp only
  rw [counts.less, counts.more, counts.next]
  simp only [List.forall_mem_append, List.forall_mem_cons]
  refine ⟨⟨ne_zero (by omega) (by omega), ne_zero (by omega) (by omega), ne_zero (by omega) (by omega),
    ne_zero (by omega) (by omega), ne_zero (by omega) (by omega), by simp⟩, ?_⟩
  split
  next hlt =>
    have := (exact.one_lt_iff (by omega)).1 hlt
    rw [exact.pred (by omega) (by omega)]
    simpa using ne_zero (by omega) (by omega)
  next => simp

end Transfer

/-! ## Steps -/

/-- What a step at sample `i` does to the bookkeeping: nothing, another second cluster for the sample,
or a transfer. -/
inductive Step (data : Samples α n d) (s : Transfers α n K d) (i : Fin n) : Transfers α n K d → Prop
  | stays {t : Transfers α n K d} (books : SameBooks s t) : Step data s i t
  | retargets {t : Transfers α n K d} (b : Fin K) (ne : b ≠ s.first.get i)
      (books : SameBooks { s with second := s.second.put i b } t) : Step data s i t
  | moves {u : Transfers α n K d} (b : Fin K) (books : SameBooks s u)
      (transferable : u.Transferable i (s.first.get i) b) :
      Step data s i (u.transfer data i (s.first.get i) b)

namespace Step

variable {data : Samples α n d} {i : Fin n}

omit [LE α] [DecidableLE α] in
theorem consistent (step : Step data s i t) (h : s.Consistent) : t.Consistent := by
  cases step with
  | stays books => exact h.congr books
  | retargets b ne books =>
    have hsecond : ({ s with second := s.second.put i b } : Transfers α n K d).Consistent := by
      refine ⟨fun j => ?_, h.tallied, h.occupied⟩
      rw [Vector.get_put]
      split
      next hij => exact hij ▸ ne
      next => exact h.apart j
    exact hsecond.congr books
  | moves b books transferable => exact (h.congr books).transfer transferable

omit [LE α] [DecidableLE α] in
theorem factored (step : Step data s i t) (exact : ExactCounts α n) (h : s.Consistent)
    (hf : s.Factored) : t.Factored := by
  cases step with
  | stays books => exact hf.congr books
  | retargets b ne books =>
    have hsecond : ({ s with second := s.second.put i b } : Transfers α n K d).Factored :=
      ⟨hf.join, hf.leave⟩
    exact hsecond.congr books
  | moves b books transferable =>
    exact transfer_factored exact (h.congr books) (hf.congr books) transferable

end Step

section Steps

variable (data : Samples α n d)

omit [Div α] [LT α] [LE α] [DecidableLT α] [DecidableLE α] in
theorem refreshOptimal_books (s : Transfers α n K d) (i : Fin n) :
    SameBooks s (s.refreshOptimal data i) := by
  unfold refreshOptimal
  split <;> exact ⟨rfl, rfl, rfl, rfl, rfl⟩

omit [Div α] [LT α] [LE α] [DecidableLT α] [DecidableLE α] in
theorem refreshQuick_books (s : Transfers α n K d) (step : ℤ) (i : Fin n) :
    SameBooks s (s.refreshQuick data step i) := by
  unfold refreshQuick
  split <;> exact ⟨rfl, rfl, rfl, rfl, rfl⟩

omit [LT α] [DecidableLT α] in
/-- The best target is not the cluster that the sample is in. -/
theorem bestTarget_ne (h : s.Consistent) (step : ℤ) (i : Fin n) :
    (s.bestTarget data step i).cluster ≠ s.first.get i := by
  refine List.foldlRecOn (motive := fun t : Target α K => t.cluster ≠ s.first.get i) _ _ (h.apart i)
    fun t ht l _ => ?_
  unfold Target.consider
  dsimp only
  split
  next => exact ht
  next hskip =>
    split
    · exact fun hl => hskip (Or.inr (Or.inl hl))
    · exact ht

theorem optimalStep_step (h : s.Consistent) (i : Fin n) : Step data s i (optimalStep data s i) := by
  unfold optimalStep
  dsimp only
  split
  next => exact .stays ⟨rfl, rfl, rfl, rfl, rfl⟩
  next hsize =>
    have hquiet : SameBooks s { s with quiet := s.quiet + 1 } := ⟨rfl, rfl, rfl, rfl, rfl⟩
    have books := hquiet.trans (refreshOptimal_books data _ i)
    have hne := bestTarget_ne data (h.congr books) (i.val + 1) i
    rw [books.first] at hne
    split
    next =>
      refine .retargets _ hne ⟨books.first, ?_, books.sizes, books.join, books.leave⟩
      show (refreshOptimal _ data i).second.put i _ = _
      rw [books.second]
    next =>
      refine .moves _ (books.trans ⟨rfl, rfl, rfl, rfl, rfl⟩) ⟨?_, hne, ?_, ?_⟩
      · exact congrArg (Vector.get · i) books.first
      · show 2 ≤ (refreshOptimal _ data i).sizes.get _
        have := h.occupied (s.first.get i)
        rw [books.sizes]
        omega
      · exact (h.congr books).occupied _

theorem quickStep_step (h : s.Consistent) (step : ℤ) (i : Fin n) :
    Step data s i (quickStep data s step i).1 := by
  unfold quickStep
  dsimp only
  split
  next => exact .stays ⟨rfl, rfl, rfl, rfl, rfl⟩
  next hsize =>
    have books := refreshQuick_books data s step i
    split
    next =>
      refine .moves _ (books.trans ⟨rfl, rfl, rfl, rfl, rfl⟩) ⟨?_, h.apart i, ?_, ?_⟩
      · exact congrArg (Vector.get · i) books.first
      · show 2 ≤ (s.refreshQuick data step i).sizes.get _
        have := h.occupied (s.first.get i)
        rw [books.sizes]
        omega
      · exact (h.congr books).occupied _
    next => exact .stays books

theorem quickStep_quiet_le (s : Transfers α n K d) (step : ℤ) (i : Fin n) :
    (quickStep data s step i).1.quiet ≤ s.quiet := by
  have hrefresh : (s.refreshQuick data step i).quiet = s.quiet := by
    unfold refreshQuick
    split <;> rfl
  unfold quickStep
  dsimp only
  split
  · exact le_rfl
  · split
    · exact Nat.zero_le _
    · exact hrefresh.le

end Steps

/-! ## The transfers as a machine -/

/-- What the transfers do next. -/
inductive Phase where
  /-- An optimal stage begins. -/
  | turn
  /-- Some samples of an optimal stage have been visited. -/
  | optimal (visited : ℕ)
  /-- Some steps of a quick stage have been made, the last of them quiet. -/
  | quick (done still : ℕ)
  | ended
  deriving DecidableEq

/-- A state of the transfers and what comes next. -/
structure Moment (α : Type) (n K d : ℕ) where
  phase : Phase
  state : Transfers α n K d

namespace Moment

variable (data : Samples α n d) (hn : 0 < n)

/-- The next moment: a step of a stage, or the way from one stage to the other. -/
def next (r : Moment α n K d) : Moment α n K d :=
  match r.phase with
  | .turn => ⟨.optimal 0, r.state.openOptimal⟩
  | .optimal p =>
    if hp : p < n then
      let s := optimalStep data r.state ⟨p, hp⟩
      ⟨if s.quiet = n then .ended else .optimal (p + 1), s⟩
    else ⟨.quick 0 0, r.state.closeOptimal⟩
  | .quick done still =>
    if done < quickStepsPerSample * n - 1 then
      let p := quickStep data r.state (done + 1 : ℕ) ⟨done % n, Nat.mod_lt _ hn⟩
      let still := if p.2 then 0 else still + 1
      if still = n then
        if K = 2 then ⟨.ended, p.1⟩ else ⟨.turn, { p.1 with changed := Vector.replicate K 0 }⟩
      else ⟨.quick (done + 1) still, p.1⟩
    else ⟨.ended, r.state⟩
  | .ended => r

/-- The moment after `k` steps. -/
def after (k : ℕ) (r : Moment α n K d) : Moment α n K d := (next data hn)^[k] r

/-- The bookkeeping changes in the steps of a stage alone. -/
theorem next_cases {r : Moment α n K d} (h : r.state.Consistent) :
    SameBooks r.state (r.next data hn).state ∨
      ∃ i t, Step data r.state i t ∧ SameBooks t (r.next data hn).state := by
  obtain ⟨phase, s⟩ := r
  cases phase with
  | turn => exact Or.inl ⟨rfl, rfl, rfl, rfl, rfl⟩
  | optimal p =>
    unfold next
    dsimp only
    split
    next hp => exact Or.inr ⟨⟨p, hp⟩, _, optimalStep_step data h _, ⟨rfl, rfl, rfl, rfl, rfl⟩⟩
    next => exact Or.inl ⟨rfl, rfl, rfl, rfl, rfl⟩
  | quick done still =>
    unfold next
    dsimp only
    split
    next =>
      refine Or.inr ⟨_, _, quickStep_step data h (done + 1 : ℕ) ⟨done % n, Nat.mod_lt _ hn⟩, ?_⟩
      generalize (if (quickStep data s _ _).2 = true then 0 else still + 1) = still'
      split
      · split <;> exact ⟨rfl, rfl, rfl, rfl, rfl⟩
      · exact ⟨rfl, rfl, rfl, rfl, rfl⟩
    next => exact Or.inl ⟨rfl, rfl, rfl, rfl, rfl⟩
  | ended => exact Or.inl ⟨rfl, rfl, rfl, rfl, rfl⟩

/-- Fewer than `n` steps have been quiet while the transfers go on, and a quick stage has made fewer
steps than it may. -/
structure Bounded (r : Moment α n K d) : Prop where
  quiet : r.state.quiet ≤ n
  running : r.phase ≠ .ended → r.state.quiet < n
  steps : ∀ done still, r.phase = .quick done still → done < quickStepsPerSample * n

theorem Bounded.next {r : Moment α n K d} (h : r.Bounded) : (r.next data hn).Bounded := by
  have hsteps : 0 < quickStepsPerSample * n := Nat.mul_pos (by decide) hn
  obtain ⟨phase, s⟩ := r
  cases phase with
  | turn =>
    have hlt : s.quiet < n := h.running nofun
    exact ⟨hlt.le, fun _ => hlt, nofun⟩
  | optimal p =>
    have hlt : s.quiet < n := h.running nofun
    unfold Moment.next
    dsimp only
    split
    next hp =>
      have hle := (optimalStep_quiet_le data s ⟨p, hp⟩).trans hlt
      split
      next hquiet => exact ⟨hle, fun hended => absurd rfl hended, nofun⟩
      next hquiet => exact ⟨hle, fun _ => lt_of_le_of_ne hle hquiet, nofun⟩
    next =>
      refine ⟨hlt.le, fun _ => hlt, fun done still hphase => ?_⟩
      cases hphase
      exact hsteps
  | quick done still =>
    have hlt : s.quiet < n := h.running nofun
    unfold Moment.next
    dsimp only
    split
    next hdone =>
      have hlt' := (quickStep_quiet_le data s (done + 1 : ℕ) ⟨done % n, Nat.mod_lt _ hn⟩).trans_lt hlt
      generalize (if (quickStep data s _ _).2 = true then 0 else still + 1) = still'
      split
      · split <;> exact ⟨hlt'.le, fun _ => hlt', nofun⟩
      · refine ⟨hlt'.le, fun _ => hlt', fun done' still' hphase => ?_⟩
        cases hphase
        omega
    next => exact ⟨hlt.le, fun _ => hlt, nofun⟩
  | ended => exact h

theorem consistent_next {r : Moment α n K d} (h : r.state.Consistent) :
    (r.next data hn).state.Consistent := by
  rcases next_cases data hn h with books | ⟨i, t, step, books⟩
  · exact h.congr books
  · exact (step.consistent h).congr books

theorem factored_next {r : Moment α n K d} (exact : ExactCounts α n) (h : r.state.Consistent)
    (hf : r.state.Factored) : (r.next data hn).state.Factored := by
  rcases next_cases data hn h with books | ⟨i, t, step, books⟩
  · exact hf.congr books
  · exact (step.factored exact h hf).congr books

/-- What one step keeps holds of every moment. -/
theorem after_invariant (P : Moment α n K d → Prop) (step : ∀ r, P r → P (r.next data hn))
    {r : Moment α n K d} (h : P r) (k : ℕ) : P (r.after data hn k) := by
  induction k with
  | zero => exact h
  | succ k ih =>
    rw [after, Function.iterate_succ_apply']
    exact step _ ih

theorem after_succ (r : Moment α n K d) (k : ℕ) :
    r.after data hn (k + 1) = (r.next data hn).after data hn k := Function.iterate_succ_apply _ _ _

theorem after_add (r : Moment α n K d) (j k : ℕ) :
    r.after data hn (j + k) = (r.after data hn j).after data hn k := by
  rw [after, Nat.add_comm, Function.iterate_add_apply]
  rfl

/-! ### The quick stage -/

/-- A step of a quick stage that has steps left. -/
theorem next_quick (done still : ℕ) (s : Transfers α n K d)
    (hdone : done < quickStepsPerSample * n - 1) :
    next data hn ⟨.quick done still, s⟩ =
      let p := quickStep data s (done + 1 : ℕ) ⟨done % n, Nat.mod_lt _ hn⟩
      let still := if p.2 then 0 else still + 1
      if still = n then
        if K = 2 then ⟨.ended, p.1⟩ else ⟨.turn, { p.1 with changed := Vector.replicate K 0 }⟩
      else ⟨.quick (done + 1) still, p.1⟩ := by
  unfold next
  dsimp only
  rw [if_pos hdone]

theorem next_quick_last {done still : ℕ} (s : Transfers α n K d)
    (hdone : ¬ done < quickStepsPerSample * n - 1) :
    next data hn ⟨.quick done still, s⟩ = ⟨.ended, s⟩ := by
  unfold next
  dsimp only
  rw [if_neg hdone]

/-- A quick stage ends, at its last step if it does not settle before. -/
theorem quick_ends (left done still : ℕ) (s : Transfers α n K d)
    (h : quickStepsPerSample * n ≤ done + left + 1) :
    ∃ k ≤ left + 1, ∀ done' still', ((⟨.quick done still, s⟩ : Moment α n K d).after data hn k).phase ≠
      .quick done' still' := by
  induction left generalizing done still s with
  | zero =>
    refine ⟨1, le_rfl, fun done' still' => ?_⟩
    rw [after_succ, next_quick_last data hn s (by omega)]
    exact Phase.noConfusion
  | succ left ih =>
    by_cases hdone : done < quickStepsPerSample * n - 1
    · obtain ⟨k, hk, hquick⟩ : ∃ k ≤ left + 1, ∀ done' still',
          ((next data hn ⟨.quick done still, s⟩).after data hn k).phase ≠ .quick done' still' := by
        rw [next_quick data hn done still s hdone]
        dsimp only
        generalize (if (quickStep data s _ _).2 = true then 0 else still + 1) = still'
        split
        · refine ⟨0, Nat.zero_le _, fun done' still' => ?_⟩
          split <;> exact Phase.noConfusion
        · exact ih (done + 1) still' _ (by omega)
      exact ⟨k + 1, Nat.succ_le_succ hk, hquick⟩
    · refine ⟨1, by omega, fun done' still' => ?_⟩
      rw [after_succ, next_quick_last data hn s hdone]
      exact Phase.noConfusion

/-! ### Rounds -/

/-- The samples of an optimal stage from the `p`-th on. -/
theorem optimalSteps_after (rest : List (Fin n)) (p : ℕ) (s : Transfers α n K d)
    (hrest : (List.finRange n).drop p = rest) (hp : p ≤ n) :
    ∃ k, (⟨.optimal p, s⟩ : Moment α n K d).after data hn k =
      if (optimalSteps data rest s).2 then ⟨.ended, (optimalSteps data rest s).1⟩
      else ⟨.quick 0 0, (optimalSteps data rest s).1.closeOptimal⟩ := by
  induction rest generalizing p s with
  | nil =>
    have hnp : n ≤ p := by simpa using hrest
    refine ⟨1, ?_⟩
    rw [after_succ, next]
    dsimp only
    rw [dif_neg (not_lt.2 hnp)]
    rfl
  | cons i rest ih =>
    obtain ⟨hi, hrest⟩ := of_drop_finRange hrest
    have hnext : next data hn ⟨.optimal p, s⟩ =
        ⟨if (optimalStep data s i).quiet = n then .ended else .optimal (p + 1), optimalStep data s i⟩ := by
      subst hi
      unfold next
      dsimp only
      rw [dif_pos i.isLt]
    unfold optimalSteps
    dsimp only
    split
    next hquiet =>
      refine ⟨1, ?_⟩
      rw [after_succ, hnext, if_pos hquiet]
      rfl
    next hquiet =>
      obtain ⟨k, hk⟩ := ih (p + 1) (optimalStep data s i) hrest (by omega)
      refine ⟨k + 1, ?_⟩
      rw [after_succ, hnext, if_neg hquiet]
      exact hk

/-- The steps of a quick stage that are left. -/
theorem quickSteps_after (left done still : ℕ) (s : Transfers α n K d)
    (h : done + left = quickStepsPerSample * n - 1) :
    ∃ k, (⟨.quick done still, s⟩ : Moment α n K d).after data hn k =
      let p := quickSteps data hn left done still s
      if !p.2 ∨ K = 2 then ⟨.ended, p.1⟩
      else ⟨.turn, { p.1 with changed := Vector.replicate K 0 }⟩ := by
  induction left generalizing done still s with
  | zero =>
    refine ⟨1, ?_⟩
    rw [after_succ, next_quick_last data hn s (by omega)]
    rfl
  | succ left ih =>
    unfold quickSteps
    dsimp only
    have hnext := next_quick data hn done still s (by omega)
    dsimp only at hnext
    generalize (if (quickStep data s _ _).2 = true then 0 else still + 1) = still' at hnext ⊢
    split
    next hstill =>
      refine ⟨1, ?_⟩
      rw [after_succ, hnext, if_pos hstill]
      by_cases hK : K = 2
      · rw [if_pos hK, if_pos (Or.inr hK)]
        rfl
      · rw [if_neg hK, if_neg (by simp [hK])]
        rfl
    next hstill =>
      obtain ⟨k, hk⟩ := ih (done + 1) still'
        (quickStep data s (done + 1 : ℕ) ⟨done % n, Nat.mod_lt _ hn⟩).1 (by omega)
      refine ⟨k + 1, ?_⟩
      rw [after_succ, hnext, if_neg hstill]
      exact hk

theorem optimalStage_after (s : Transfers α n K d) :
    ∃ k, (⟨.turn, s⟩ : Moment α n K d).after data hn k =
      if (optimalStage data s).2 then ⟨.ended, (optimalStage data s).1⟩
      else ⟨.quick 0 0, (optimalStage data s).1⟩ := by
  obtain ⟨k, hk⟩ := optimalSteps_after data hn (List.finRange n) 0 s.openOptimal rfl
    (Nat.zero_le n)
  refine ⟨k + 1, ?_⟩
  rw [after_succ]
  refine hk.trans ?_
  unfold optimalStage
  dsimp only
  generalize optimalSteps data (List.finRange n) s.openOptimal = p
  by_cases hsettled : p.2
  · simp [hsettled]
  · simp [hsettled]

theorem quickStage_after (s : Transfers α n K d) :
    ∃ k, (⟨.quick 0 0, s⟩ : Moment α n K d).after data hn k =
      if !(quickStage data hn s).2 ∨ K = 2 then ⟨.ended, (quickStage data hn s).1⟩
      else ⟨.turn, { (quickStage data hn s).1 with changed := Vector.replicate K 0 }⟩ :=
  quickSteps_after data hn (quickStepsPerSample * n - 1) 0 0 s (Nat.zero_add _)

/-- The rounds end in a moment of the machine. -/
theorem rounds_after (left done : ℕ) (s : Transfers α n K d) :
    ∃ k, ((⟨.turn, s⟩ : Moment α n K d).after data hn k).state = (rounds data hn left done s).1 := by
  induction left generalizing done s with
  | zero => exact ⟨0, rfl⟩
  | succ left ih =>
    obtain ⟨k, hk⟩ := optimalStage_after data hn s
    unfold rounds
    dsimp only
    generalize optimalStage data s = p at hk ⊢
    split
    next hsettled =>
      rw [if_pos hsettled] at hk
      exact ⟨k, by rw [hk]⟩
    next hsettled =>
      rw [if_neg hsettled] at hk
      obtain ⟨j, hj⟩ := quickStage_after data hn p.1
      rw [← hk, ← after_add] at hj
      generalize quickStage data hn p.1 = q at hj ⊢
      split
      next hunsettled =>
        rw [if_pos (Or.inl hunsettled)] at hj
        exact ⟨k + j, by rw [hj]⟩
      next hunsettled =>
        split
        next hK =>
          rw [if_pos (Or.inr hK)] at hj
          exact ⟨k + j, by rw [hj]⟩
        next hK =>
          rw [if_neg (not_or.2 ⟨hunsettled, hK⟩)] at hj
          obtain ⟨m, hm⟩ := ih (done + 1) { q.1 with changed := Vector.replicate K 0 }
          exact ⟨k + j + m, by rw [after_add, hj]; exact hm⟩

end Moment

/-! ## Every moment of the transfers -/

/-- A sample has been transferred between two states: it shared its cluster, went to another one that was
not empty, and what was divided by was not zero if counts are exact. -/
def Transferred (data : Samples α n d) (s s' : Transfers α n K d) : Prop :=
  ∃ (i : Fin n) (b : Fin K) (u : Transfers α n K d), SameBooks s u ∧
    u.Transferable i (s.first.get i) b ∧ SameBooks (u.transfer data i (s.first.get i) b) s' ∧
      (ExactCounts α n → ∀ x ∈ u.divisors (s.first.get i) b, x ≠ Scalar.zero)

/-- Between two moments no sample moves, or one is transferred. -/
theorem Moment.next_transferred (data : Samples α n d) (hn : 0 < n) {r : Moment α n K d}
    (h : r.state.Consistent) :
    (r.next data hn).state.first = r.state.first ∧ (r.next data hn).state.sizes = r.state.sizes ∨
      r.state.Transferred data (r.next data hn).state := by
  rcases next_cases data hn h with books | ⟨i, t, step, after⟩
  · exact Or.inl ⟨books.first, books.sizes⟩
  · cases step with
    | stays books => exact Or.inl ⟨(books.trans after).first, (books.trans after).sizes⟩
    | retargets b ne books => exact Or.inl ⟨(books.trans after).first, (books.trans after).sizes⟩
    | @moves u b books transferable =>
      exact Or.inr ⟨i, b, u, books, transferable, after,
        fun exact => divisors_ne_zero exact (h.congr books) transferable⟩

/-- **The books are kept.** Where no cluster is empty after the first assignment, at every moment of the
transfers and whatever the outcomes of comparisons are: every sample has two clusters, the sizes are
those of the clusters, none is empty, and no more than `n` steps are counted as quiet. If counts are
converted exactly the factors are those of the sizes. No sample moves from one moment to the next, or one
that shares its cluster goes to another cluster that is not empty, with no division by zero. A quick
stage ends after fewer than `50 * n + 1` steps, and the rounds end at one of these moments. -/
theorem books_kept (hK : 1 < K) (hn : 0 < n) (data : Samples α n d) (centres : Matrix α K d)
    (hoccupied : ∀ l, (assignFirst hK data centres).sizes.get l ≠ 0) :
    let start : Moment α n K d := ⟨.turn, assignFirst hK data centres⟩
    (∀ k, let s := (start.after data hn k).state
      s.Consistent ∧ s.quiet ≤ n ∧ (ExactCounts α n → s.Factored) ∧
        let s' := (start.after data hn (k + 1)).state
        (s'.first = s.first ∧ s'.sizes = s.sizes ∨ s.Transferred data s')) ∧
      (∀ k, (start.after data hn k).phase = .quick 0 0 → ∃ j < 50 * n + 1, ∀ done still,
        (start.after data hn (k + j)).phase ≠ .quick done still) ∧
      ∀ limit, ∃ k, (start.after data hn k).state =
        (rounds data hn limit 0 (assignFirst hK data centres)).1 := by
  intro start
  have hstart := assignFirst_consistent hK data centres hoccupied
  have consistent (k : ℕ) : (start.after data hn k).state.Consistent :=
    Moment.after_invariant data hn (·.state.Consistent) (fun _ => Moment.consistent_next data hn)
      hstart k
  have bounded (k : ℕ) : (start.after data hn k).Bounded :=
    Moment.after_invariant data hn Moment.Bounded (fun _ => Moment.Bounded.next data hn)
      ⟨Nat.zero_le n, fun _ => hn, fun _ _ hphase => Phase.noConfusion hphase⟩ k
  refine ⟨fun k => ⟨consistent k, (bounded k).quiet, fun exact => ?_, ?_⟩, fun k hquick => ?_,
    fun limit => Moment.rounds_after data hn limit 0 _⟩
  · have both := Moment.after_invariant data hn (fun r => r.state.Consistent ∧ r.state.Factored)
      (fun r h => ⟨Moment.consistent_next data hn h.1, Moment.factored_next data hn exact h.1 h.2⟩)
      (r := start) ⟨hstart, assignFirst_factored exact hK data centres hoccupied⟩ k
    exact both.2
  · have hnext : start.after data hn (k + 1) = (start.after data hn k).next data hn :=
      Function.iterate_succ_apply' _ _ _
    rw [hnext]
    exact Moment.next_transferred data hn (consistent k)
  · have hmoment : start.after data hn k = ⟨.quick 0 0, (start.after data hn k).state⟩ := by
      rw [← hquick]
    obtain ⟨j, hj, hends⟩ := Moment.quick_ends data hn (quickStepsPerSample * n - 1) 0 0
      (start.after data hn k).state (by omega)
    have hsteps : 0 < quickStepsPerSample * n := Nat.mul_pos (by decide) hn
    have hfifty : quickStepsPerSample * n = 50 * n := rfl
    refine ⟨j, by omega, fun done still => ?_⟩
    rw [Moment.after_add, hmoment]
    exact hends done still

theorem exactCounts_float : ExactCounts Float 5 := by
  refine ⟨fun {m} h0 h => ?_, fun {m} h => ?_, fun {m} h => ?_, fun {m} h0 h => ?_⟩
  · revert h0
    revert h m
    decide +kernel
  · revert h m
    decide +kernel
  · revert h m
    decide +kernel
  · revert h0
    revert h m
    decide +kernel

/-- Five samples, one of them no number, so that comparisons move samples to and fro: the eighth step is
the first of a quick stage and leaves a cluster with one sample. -/
theorem books_kept_five_samples :
    let data : Samples Float 5 1 := ⟨#v[0, 1, 0 / 0, 10, 11]⟩
    let centres : Matrix Float 2 1 := #v[#v[0.5], #v[10]]
    let start : Moment Float 5 2 1 := ⟨.turn, assignFirst (by decide) data centres⟩
    let moment k := start.after data (by decide) k
    (∀ l, start.state.sizes.get l ≠ 0) ∧ ExactCounts Float 5 ∧
      (moment 7).phase = .quick 0 0 ∧ (moment 8).state.sizes = #v[4, 1] ∧
      (moment 8).state.Consistent ∧ (moment 8).state.Factored ∧
      (moment 7).state.Transferred data (moment 8).state ∧
      ∃ j < 251, ∀ done still, (moment (7 + j)).phase ≠ .quick done still := by
  intro data centres start moment
  have hoccupied : ∀ l, (assignFirst (by decide) data centres).sizes.get l ≠ 0 := by decide +kernel
  have hquick : (start.after data (by decide) 7).phase = .quick 0 0 := by decide +kernel
  have hbefore : (start.after data (by decide) 7).state.sizes = #v[3, 2] := by decide +kernel
  have hafter : (start.after data (by decide) 8).state.sizes = #v[4, 1] := by decide +kernel
  obtain ⟨kept, ends, -⟩ := books_kept (by decide) (by decide) data centres hoccupied
  refine ⟨hoccupied, exactCounts_float, hquick, hafter, (kept 8).1, (kept 8).2.2.1 exactCounts_float,
    (kept 7).2.2.2.resolve_left fun hsame => ?_, ends 7 hquick⟩
  have heq := hafter.symm.trans (hsame.2.trans hbefore)
  exact absurd heq (by decide)

end Proximity.Transfers
