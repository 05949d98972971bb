import Proximity.Proofs.BoundedHeap

/-!
# Sequences of inserts

What a bounded heap holds after entries were offered to it one after another. Distances may be rounded
numbers, of which two that differ can compare as equal, as long as they are totally ordered. A heap does
nothing with them but compare them, so it takes the same steps when every distance is replaced by its
rank (`ranked_insertAll`), and ranks are linearly ordered.

1. `Keeps.insertAll` and `insertAll_le`: a run of inserts from what one insert does, where distances are
   linearly ordered.
2. `ranked`: the same heap with ranks for distances.
3. `Retains`, and `inserts_keep_smallest` for every sequence of inserts.
-/

namespace Proximity.BoundedHeap

variable {ι α β : Type}

/-- The heap after some entries were offered to it, one after another. -/
def insertAll [LT α] [DecidableLT α] (h : BoundedHeap ι α) (xs : List (ι × α)) : BoundedHeap ι α :=
  xs.foldl (fun h x => h.insert x.1 x.2) h

section Run

variable [LT α] [DecidableLT α]

theorem insertAll_append (h : BoundedHeap ι α) (xs ys : List (ι × α)) :
    h.insertAll (xs ++ ys) = (h.insertAll xs).insertAll ys := List.foldl_append

theorem insertAll_capacity (h : BoundedHeap ι α) (xs : List (ι × α)) :
    (h.insertAll xs).capacity = h.capacity := by
  induction xs generalizing h with
  | nil => rfl
  | cons x xs ih => exact (ih _).trans (h.insert_capacity x.1 x.2)

/-- Every entry was there before or was offered. -/
theorem mem_insertAll {h : BoundedHeap ι α} {xs : List (ι × α)} {y : ι × α}
    (hy : y ∈ (h.insertAll xs).entries.toList) : y ∈ h.entries.toList ∨ y ∈ xs := by
  induction xs generalizing h with
  | nil => exact Or.inl hy
  | cons x xs ih =>
    rcases ih hy with hy | hy
    · rcases List.mem_cons.1 ((h.insert_subperm x.1 x.2).subset hy) with rfl | hy
      · exact Or.inr List.mem_cons_self
      · exact Or.inl hy
    · exact Or.inr (List.mem_cons_of_mem x hy)

theorem insertAll_isFull {h : BoundedHeap ι α} (hfull : h.isFull = true) (xs : List (ι × α)) :
    (h.insertAll xs).isFull = true := by
  induction xs generalizing h with
  | nil => exact hfull
  | cons x xs ih => exact ih (insert_isFull hfull x.1 x.2)

end Run

/-! ## Linearly ordered distances -/

section Linear

variable [LinearOrder α] {h : BoundedHeap ι α} {seen : List (ι × α)}

theorem Keeps.insertAll (hk : h.Keeps seen) (xs : List (ι × α)) :
    (h.insertAll xs).Keeps (seen ++ xs) := by
  induction xs generalizing h seen with
  | nil => rwa [List.append_nil]
  | cons x xs ih =>
    refine (ih (hk.insert x.1 x.2)).perm ?_
    exact List.perm_middle.symm

/-- No insert into a full heap adds an entry that is farther than all others. -/
theorem insert_le (hfull : h.isFull = true) {v : α} (hv : ∀ y ∈ h.entries.toList, y.2 ≤ v) (i : ι)
    (x : α) : ∀ y ∈ (h.insert i x).entries.toList, y.2 ≤ v := by
  unfold BoundedHeap.insert
  rw [if_pos hfull]
  split
  next top htop =>
    split
    next hx =>
      obtain ⟨rest, hrest, hset⟩ := exists_toList_set htop (i, x)
      intro y hy
      have hmem := (siftDown_perm _ 0).mem_iff.1 hy
      rw [hset] at hmem
      rw [hrest] at hv
      rcases List.mem_cons.1 hmem with rfl | hmem
      · exact hx.le.trans (hv top List.mem_cons_self)
      · exact hv y (List.mem_cons_of_mem top hmem)
    next => exact hv
  next => exact hv

theorem insertAll_le (hfull : h.isFull = true) {v : α} (hv : ∀ y ∈ h.entries.toList, y.2 ≤ v)
    (xs : List (ι × α)) : ∀ y ∈ (h.insertAll xs).entries.toList, y.2 ≤ v := by
  induction xs generalizing h with
  | nil => exact hv
  | cons x xs ih => exact ih (insert_isFull hfull x.1 x.2) (insert_le hfull hv x.1 x.2)

end Linear

/-! ## Ranks for distances -/

theorem map_swapIfInBounds {γ δ : Type} (f : γ → δ) (a : Array γ) (i j : ℕ) :
    (a.swapIfInBounds i j).map f = (a.map f).swapIfInBounds i j := by
  simp only [Array.swapIfInBounds, Array.size_map]
  split
  · split
    · refine Array.ext_getElem? fun k => ?_
      simp only [Array.getElem?_map, Array.getElem?_swap, Array.getElem_map]
      split
      · rfl
      · split <;> rfl
    · rfl
  · rfl

section Ranked

variable [LT α] [DecidableLT α] [LinearOrder β] {rank : α → β} {P : α → Prop}

/-- An entry that is its own index, with its rank as its distance. -/
def rankEntry (rank : α → β) (e : ι × α) : (ι × α) × β := (e, rank e.2)

/-- The heap of the same entries with their ranks as distances. -/
def ranked (rank : α → β) (h : BoundedHeap ι α) : BoundedHeap (ι × α) β where
  capacity := h.capacity
  entries := h.entries.map (rankEntry rank)

omit [LT α] [DecidableLT α] [LinearOrder β] in
theorem ranked_isFull (h : BoundedHeap ι α) : (h.ranked rank).isFull = h.isFull := by
  rw [isFull, isFull, ranked, Array.size_map]

omit [LT α] [DecidableLT α] [LinearOrder β] in
theorem ranked_toList (h : BoundedHeap ι α) :
    (h.ranked rank).entries.toList = h.entries.toList.map (rankEntry rank) := Array.toList_map

variable (hrank : ∀ x y, P x → P y → (x < y ↔ rank x < rank y))

include hrank

theorem farther_map {a : Array (ι × α)} (ha : ∀ e ∈ a.toList, P e.2) (i j : ℕ) :
    farther (a.map (rankEntry rank)) i j = farther a i j := by
  have holds {k : ℕ} {e : ι × α} (he : a[k]? = some e) : P e.2 :=
    ha e (Array.mem_toList_iff.2 (Array.mem_of_getElem? he))
  unfold farther
  rw [Array.getElem?_map, Array.getElem?_map]
  cases hi : a[i]? with
  | none => rfl
  | some x =>
    cases hj : a[j]? with
    | none => rfl
    | some y => exact decide_eq_decide.2 (hrank _ _ (holds hi) (holds hj)).symm

theorem farthestBelow_map {a : Array (ι × α)} (ha : ∀ e ∈ a.toList, P e.2) (i : ℕ) :
    farthestBelow (a.map (rankEntry rank)) i = farthestBelow a i := by
  simp only [farthestBelow, farther_map hrank ha]

theorem siftUp_map {a : Array (ι × α)} (ha : ∀ e ∈ a.toList, P e.2) (i : ℕ) :
    siftUp (a.map (rankEntry rank)) i = (siftUp a i).map (rankEntry rank) := by
  induction a, i using siftUp.induct with
  | case1 a i h ih =>
    rw [siftUp, farther_map hrank ha, if_pos h, ← map_swapIfInBounds]
    conv_rhs => rw [siftUp, if_pos h]
    exact ih fun e he => ha e ((swap_perm a _ _).mem_iff.1 he)
  | case2 a i h =>
    rw [siftUp, farther_map hrank ha, if_neg h]
    conv_rhs => rw [siftUp, if_neg h]

theorem siftDown_map {a : Array (ι × α)} (ha : ∀ e ∈ a.toList, P e.2) (i : ℕ) :
    siftDown (a.map (rankEntry rank)) i = (siftDown a i).map (rankEntry rank) := by
  induction a, i using siftDown.induct with
  | case1 a i h ih =>
    rw [siftDown, farthestBelow_map hrank ha, Array.size_map, if_pos h, ← map_swapIfInBounds]
    conv_rhs => rw [siftDown, if_pos h]
    exact ih fun e he => ha e ((swap_perm a _ _).mem_iff.1 he)
  | case2 a i h =>
    rw [siftDown, farthestBelow_map hrank ha, Array.size_map, if_neg h]
    conv_rhs => rw [siftDown, if_neg h]

/-- An insert takes the same steps in both heaps. -/
theorem ranked_insert {h : BoundedHeap ι α} (hh : ∀ e ∈ h.entries.toList, P e.2) (i : ι) {x : α}
    (hx : P x) : (h.insert i x).ranked rank = (h.ranked rank).insert (i, x) (rank x) := by
  have hfirst : (h.ranked rank).entries[0]? = h.entries[0]?.map (rankEntry rank) :=
    Array.getElem?_map
  unfold BoundedHeap.insert
  rw [ranked_isFull, hfirst]
  split
  · cases htop : h.entries[0]? with
    | none => rfl
    | some top =>
      have hP : P top.2 := hh top (Array.mem_toList_iff.2 (Array.mem_of_getElem? htop))
      have hlt := hrank x top.2 hx hP
      dsimp only [Option.map_some, rankEntry]
      by_cases hnear : x < top.2
      · rw [if_pos hnear, if_pos (hlt.1 hnear)]
        obtain ⟨rest, hrest, hset⟩ := exists_toList_set htop (i, x)
        have hall : ∀ e ∈ (h.entries.setIfInBounds 0 (i, x)).toList, P e.2 := by
          rw [hset]
          rw [hrest] at hh
          intro e he
          rcases List.mem_cons.1 he with rfl | he
          · exact hx
          · exact hh e (List.mem_cons_of_mem top he)
        have hsift := siftDown_map hrank hall 0
        rw [Array.map_setIfInBounds] at hsift
        exact congrArg (BoundedHeap.mk h.capacity) hsift.symm
      · rw [if_neg hnear, if_neg (mt hlt.2 hnear)]
  · have hall : ∀ e ∈ (h.entries.push (i, x)).toList, P e.2 := by
      intro e he
      rw [Array.toList_push] at he
      rcases List.mem_append.1 he with he | he
      · exact hh e he
      · obtain rfl := List.mem_singleton.1 he
        exact hx
    have hsift := siftUp_map hrank hall h.entries.size
    rw [Array.map_push] at hsift
    refine congrArg (BoundedHeap.mk h.capacity) (hsift.symm.trans ?_)
    rw [ranked, Array.size_map]
    rfl

/-- All inserts take the same steps in both heaps. -/
theorem ranked_insertAll {h : BoundedHeap ι α} (hh : ∀ e ∈ h.entries.toList, P e.2)
    {xs : List (ι × α)} (hxs : ∀ x ∈ xs, P x.2) :
    (h.insertAll xs).ranked rank = (h.ranked rank).insertAll (xs.map (rankEntry rank)) := by
  induction xs generalizing h with
  | nil => rfl
  | cons x xs ih =>
    rw [List.forall_mem_cons] at hxs
    have hnext : ∀ e ∈ (h.insert x.1 x.2).entries.toList, P e.2 := by
      intro e he
      rcases List.mem_cons.1 ((h.insert_subperm x.1 x.2).subset he) with rfl | he
      · exact hxs.1
      · exact hh e he
    exact (ih hnext hxs.2).trans (by rw [ranked_insert hrank hh x.1 hxs.1]; rfl)

end Ranked

/-! ## What is kept of all inserts -/

section Kept

variable [LT α] [DecidableLT α] {P : α → Prop} {h : BoundedHeap ι α} {seen : List (ι × α)}

/-- What a heap holds of the entries that it was offered, with distances that are totally ordered. -/
structure Retains (h : BoundedHeap ι α) (seen : List (ι × α)) : Prop where
  size : h.entries.size = min h.capacity seen.length
  /-- All entries were offered, and none that is not there is nearer than one that is. -/
  smallest : ∃ dropped, (h.entries.toList ++ dropped).Perm seen ∧
    ∀ x ∈ h.entries.toList, ∀ y ∈ dropped, ¬ y.2 < x.2
  /-- No entry is farther than the one above it. -/
  ordered : ∀ (i : ℕ) (_ : i < h.entries.size), 0 < i →
    ¬ h.entries[(i - 1) / 2].2 < h.entries[i].2
  sorted_perm : h.sorted.Perm h.entries.toList
  ascending : h.sorted.Pairwise fun x y => ¬ y.2 < x.2

theorem Retains.mem (hr : h.Retains seen) {x : ι × α} (hx : x ∈ h.entries.toList) : x ∈ seen := by
  obtain ⟨dropped, hperm, -⟩ := hr.smallest
  exact hperm.mem_iff.1 (List.mem_append_left dropped hx)

/-- A heap retains what the heap of its ranks keeps. -/
theorem Keeps.retains [LinearOrder β] {rank : α → β}
    (hrank : ∀ x y, P x → P y → (x < y ↔ rank x < rank y)) (hP : TotallyOrdered P)
    (hseen : ∀ x ∈ seen, P x.2) (hk : (h.ranked rank).Keeps (seen.map (rankEntry rank))) :
    h.Retains seen := by
  have notLt {x y : ι × α} (hx : x ∈ seen) (hy : y ∈ seen) (hle : rank x.2 ≤ rank y.2) :
      ¬ y.2 < x.2 := by
    rw [hrank _ _ (hseen y hy) (hseen x hx)]
    exact not_lt.2 hle
  obtain ⟨dropped, hperm, hle⟩ := hk.smallest
  rw [ranked_toList] at hperm hle
  have hkept : (h.entries.toList ++ dropped.map (·.1)).Perm seen := by
    have := hperm.map (·.1)
    simpa [rankEntry, Function.comp_def] using this
  have mem {x : ι × α} (hx : x ∈ h.entries.toList) : x ∈ seen :=
    hkept.mem_iff.1 (List.mem_append_left _ hx)
  refine ⟨?_, ⟨dropped.map (·.1), hkept, fun x hx y hy => ?_⟩, fun i hi hpos => ?_, ?_, ?_⟩
  · have hsize := hk.size
    rwa [List.length_map, ranked, Array.size_map] at hsize
  · obtain ⟨e, he, rfl⟩ := List.mem_map.1 hy
    obtain ⟨y, hseen, rfl⟩ := List.mem_map.1 (hperm.mem_iff.1 (List.mem_append_right _ he))
    exact notLt (mem hx) hseen (hle _ (List.mem_map_of_mem hx) _ he)
  · have hup : (i - 1) / 2 < h.entries.size := by omega
    have hi' : i < (h.ranked rank).entries.size := hi.trans_eq (Array.size_map ..).symm
    have hup' : (i - 1) / 2 < (h.ranked rank).entries.size := hup.trans_eq (Array.size_map ..).symm
    have hkey := hk.ordered i hpos
    rw [key_of_lt hi', key_of_lt hup', WithBot.coe_le_coe] at hkey
    simp only [ranked, Array.getElem_map, rankEntry] at hkey
    exact notLt (mem (Array.getElem_mem_toList hi)) (mem (Array.getElem_mem_toList hup)) hkey
  · exact StableSort.sort_perm _ _
  · exact StableSort.sort_notLt hP (fun x : ι × α => x.2) fun x hx => hseen x (mem hx)

/-- A heap with an entry on top of all others, and its bound. -/
theorem Retains.exists_top [Scalar α] (hr : h.Retains seen) (hP : TotallyOrdered P)
    (hseen : ∀ x ∈ seen, P x.2) (hfull : h.isFull = true) (hpos : 0 < h.entries.size) :
    ∃ top ∈ h.entries.toList, h.worst = some top.2 ∧ ∀ x ∈ h.entries.toList, ¬ top.2 < x.2 := by
  have hfirst : h.entries[0]? = some h.entries[0] := Array.getElem?_eq_getElem hpos
  refine ⟨h.entries[0], Array.getElem_mem_toList hpos, ?_, fun x hx => ?_⟩
  · rw [worst, if_pos hfull, hfirst]
    rfl
  · obtain ⟨i, hi, rfl⟩ := Array.mem_iff_getElem.1 (Array.mem_def.2 hx)
    have holds {j : ℕ} (hj : j < h.entries.size) : P h.entries[j].2 :=
      hseen _ (hr.mem (Array.getElem_mem_toList hj))
    clear hx
    induction i using Nat.strong_induction_on with
    | h i ih =>
      rcases Nat.eq_zero_or_pos i with rfl | hi0
      · exact hP.irrefl _ (holds hi)
      · have hup : (i - 1) / 2 < h.entries.size := by omega
        exact hP.trans _ _ _ (holds hi) (holds hup) (holds hpos) (hr.ordered i hi hi0)
          (ih _ (by omega) hup)

/-- From the empty heap on, ranks are kept as distances are. -/
theorem insertAll_ranked_keeps [LinearOrder β] {rank : α → β}
    (hrank : ∀ x y, P x → P y → (x < y ↔ rank x < rank y)) (c : ℕ) (hseen : ∀ x ∈ seen, P x.2) :
    (((empty c : BoundedHeap ι α).insertAll seen).ranked rank).Keeps (seen.map (rankEntry rank)) := by
  have hempty : (empty c : BoundedHeap ι α).ranked rank = empty c :=
    congrArg (BoundedHeap.mk c) Array.map_empty
  rw [ranked_insertAll hrank (fun e he => absurd he List.not_mem_nil) hseen, hempty]
  exact (empty_keeps c).insertAll _

theorem insertAll_retains (hP : TotallyOrdered P) (c : ℕ) (hseen : ∀ x ∈ seen, P x.2) :
    ((empty c : BoundedHeap ι α).insertAll seen).Retains seen := by
  obtain ⟨β, _, rank, hrank⟩ := hP.exists_rank
  exact (insertAll_ranked_keeps hrank c hseen).retains hrank hP hseen

/-- What no entry of a full heap is farther than, none is farther than after more inserts. -/
theorem insertAll_notLt (hP : TotallyOrdered P) (hh : ∀ x ∈ h.entries.toList, P x.2)
    (hfull : h.isFull = true) {v : α} (hv : P v) (hmax : ∀ x ∈ h.entries.toList, ¬ v < x.2)
    {later : List (ι × α)} (hlater : ∀ x ∈ later, P x.2) :
    ∀ x ∈ (h.insertAll later).entries.toList, ¬ v < x.2 := by
  obtain ⟨β, _, rank, hrank⟩ := hP.exists_rank
  have hranks : ∀ y ∈ (h.ranked rank).entries.toList, y.2 ≤ rank v := by
    intro y hy
    rw [ranked_toList] at hy
    obtain ⟨x, hx, rfl⟩ := List.mem_map.1 hy
    exact not_lt.1 (mt (hrank v x.2 hv (hh x hx)).2 (hmax x hx))
  have hle := insertAll_le ((ranked_isFull h).trans hfull) hranks (later.map (rankEntry rank))
  rw [← ranked_insertAll hrank hh hlater, ranked_toList] at hle
  intro x hx
  rw [hrank v x.2 hv ((mem_insertAll hx).elim (hh x) (hlater x))]
  exact not_lt.2 (hle _ (List.mem_map_of_mem hx))

/-- **The smallest distances are kept.** After any number of inserts into an empty heap, with distances
that are totally ordered, the heap holds as many of the entries as it has room for, none of them
farther than one that it does not hold, in heap order, and its answer is those by ascending distance.
Once it is full its bound is the distance of the farthest entry, and no further insert raises it. -/
theorem inserts_keep_smallest [Scalar α] (hP : TotallyOrdered P) (c : ℕ) (seen : List (ι × α))
    (hseen : ∀ x ∈ seen, P x.2) :
    let h := (empty c : BoundedHeap ι α).insertAll seen
    h.capacity = c ∧ h.Retains seen ∧ (h.isFull = true ↔ c ≤ seen.length) ∧
      (0 < c → h.isFull = true → ∃ top ∈ h.entries.toList, h.worst = some top.2 ∧
        (∀ x ∈ h.entries.toList, ¬ top.2 < x.2) ∧
        ∀ later, (∀ x ∈ later, P x.2) → ∃ top' ∈ (h.insertAll later).entries.toList,
          (h.insertAll later).worst = some top'.2 ∧ ¬ top.2 < top'.2) := by
  intro h
  have hcapacity : h.capacity = c := insertAll_capacity _ _
  have hr : h.Retains seen := insertAll_retains hP c hseen
  have hfullIff : h.isFull = true ↔ c ≤ seen.length := by
    rw [isFull, decide_eq_true_iff, hr.size, hcapacity]
    omega
  refine ⟨hcapacity, hr, hfullIff, fun hc hfull => ?_⟩
  have hpos : 0 < h.entries.size := by
    have := hfullIff.1 hfull
    rw [hr.size, hcapacity]
    omega
  obtain ⟨top, htop, hworst, hmax⟩ := hr.exists_top hP hseen hfull hpos
  refine ⟨top, htop, hworst, hmax, fun later hlater => ?_⟩
  have hall : ∀ x ∈ seen ++ later, P x.2 := List.forall_mem_append.2 ⟨hseen, hlater⟩
  have hr' : (h.insertAll later).Retains (seen ++ later) := by
    rw [← insertAll_append]
    exact insertAll_retains hP c hall
  have hfull' := insertAll_isFull hfull later
  have hpos' : 0 < (h.insertAll later).entries.size := by
    have hle : (h.insertAll later).capacity ≤ _ := of_decide_eq_true hfull'
    rw [insertAll_capacity, hcapacity] at hle
    omega
  obtain ⟨top', htop', hworst', -⟩ := hr'.exists_top hP hall hfull' hpos'
  have hh : ∀ x ∈ h.entries.toList, P x.2 := fun x hx => hseen x (hr.mem hx)
  exact ⟨top', htop', hworst', insertAll_notLt hP hh hfull (hh top htop) hmax hlater top' htop'⟩

/-- Room for two of five machine numbers, of which the two least compare as equal: whatever comes later
that is a number, the bound does not rise. -/
theorem inserts_keep_smallest_two_zeros :
    let seen : List (ℕ × Float) := [(0, 5), (1, 0), (2, 4), (3, -0.0), (4, 8)]
    let h := (empty 2 : BoundedHeap ℕ Float).insertAll seen
    (TotallyOrdered fun x : Float => x.isNaN = false) ∧ (∀ x ∈ seen, x.2.isNaN = false) ∧
      h.Retains seen ∧ h.sorted = [(3, -0.0), (1, 0)] ∧ h.worst = some (-0.0) ∧
        ∀ later, (∀ x ∈ later, x.2.isNaN = false) → ∃ top ∈ (h.insertAll later).entries.toList,
          (h.insertAll later).worst = some top.2 ∧ ¬ -0.0 < top.2 := by
  intro seen h
  have hseen : ∀ x ∈ seen, x.2.isNaN = false := by decide +kernel
  have hsorted : h.sorted = [(3, -0.0), (1, 0)] := by decide +kernel
  have hworst : h.worst = some (-0.0) := by decide +kernel
  obtain ⟨-, hr, hfull, htop⟩ := inserts_keep_smallest Float.totallyOrdered 2 seen hseen
  obtain ⟨top, -, hbound, -, hlater⟩ := htop (by decide) (hfull.2 (by decide))
  rw [Option.some.inj (hbound.symm.trans hworst)] at hlater
  exact ⟨Float.totallyOrdered, hseen, hr, hsorted, hworst, hlater⟩

end Kept

end Proximity.BoundedHeap
