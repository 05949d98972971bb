import Proximity.Neighbours.Heap
import Proximity.Proofs.Smallest

/-!
# The bounded heap keeps the smallest distances

Positions are compared by `key`, which is below all distances where there is no entry, so that heap
order is one condition on all positions. A sift starts from an array that is in order but for one place
and ends with one that is in order.

1. `siftUp_ordered` and `siftDown_ordered`, each from what its start leaves to do.
2. `Keeps`: the heap holds as many of the entries seen as it has room for, the smallest ones.
   `empty_keeps` and `Keeps.insert` give it for every sequence of inserts.
3. `Keeps.worst_lt` and `Keeps.sorted_smallest`: what the bound and the answer of such a heap are.
-/

namespace Proximity.BoundedHeap

variable {ι α : Type}

/-! ## Keys -/

/-- The distance of an entry; below all distances where there is none. -/
def key (a : Array (ι × α)) (i : ℕ) : WithBot α := (a[i]?).map (·.2)

theorem key_of_lt {a : Array (ι × α)} {i : ℕ} (h : i < a.size) : key a i = a[i].2 := by
  rw [key, Array.getElem?_eq_getElem h]
  rfl

theorem key_of_ge {a : Array (ι × α)} {i : ℕ} (h : a.size ≤ i) : key a i = ⊥ := by
  rw [key, Array.getElem?_eq_none h]
  rfl

theorem swap_perm (a : Array (ι × α)) (i j : ℕ) : (a.swapIfInBounds i j).toList.Perm a.toList := by
  unfold Array.swapIfInBounds
  split
  · split
    · exact Array.perm_iff_toList_perm.1 (Array.swap_perm _ _)
    · exact .refl _
  · exact .refl _

/-- Two entries swapped: the two positions exchange their keys, and no other position changes. -/
theorem key_swap {a : Array (ι × α)} {i j : ℕ} (hi : i < a.size) (hj : j < a.size) :
    key (a.swapIfInBounds i j) i = key a j ∧ key (a.swapIfInBounds i j) j = key a i ∧
      ∀ k, k ≠ i → k ≠ j → key (a.swapIfInBounds i j) k = key a k := by
  have hswap : a.swapIfInBounds i j = a.swap i j hi hj := by
    rw [Array.swapIfInBounds, dif_pos hi, dif_pos hj]
  simp only [hswap, key, Array.getElem?_swap]
  refine ⟨?_, ?_, fun k hki hkj => ?_⟩
  · split
    next h => subst h; rw [Array.getElem?_eq_getElem]
    next => rw [if_true, Array.getElem?_eq_getElem hj]
  · rw [if_true, Array.getElem?_eq_getElem hi]
  · rw [if_neg (Ne.symm hkj), if_neg (Ne.symm hki)]

/-! ## Contents -/

section Contents

variable [LT α] [DecidableLT α]

theorem siftUp_perm (a : Array (ι × α)) (i : ℕ) : (siftUp a i).toList.Perm a.toList := by
  induction a, i using siftUp.induct with
  | case1 a i h ih =>
    rw [siftUp, if_pos h]
    exact ih.trans (swap_perm a _ _)
  | case2 a i h =>
    rw [siftUp, if_neg h]

theorem siftDown_perm (a : Array (ι × α)) (i : ℕ) : (siftDown a i).toList.Perm a.toList := by
  induction a, i using siftDown.induct with
  | case1 a i h ih =>
    rw [siftDown, if_pos h]
    exact ih.trans (swap_perm a _ _)
  | case2 a i h =>
    rw [siftDown, if_neg h]

theorem insert_capacity (h : BoundedHeap ι α) (i : ι) (x : α) :
    (h.insert i x).capacity = h.capacity := by
  unfold BoundedHeap.insert
  split
  · split
    · split <;> rfl
    · rfl
  · rfl

omit [LT α] [DecidableLT α] in
/-- An array whose first entry is replaced has the other entries as before. -/
theorem exists_toList_set {a : Array (ι × α)} {top : ι × α} (htop : a[0]? = some top) (x : ι × α) :
    ∃ rest, a.toList = top :: rest ∧ (a.setIfInBounds 0 x).toList = x :: rest := by
  rw [← Array.getElem?_toList] at htop
  rw [Array.toList_setIfInBounds]
  cases hlist : a.toList with
  | nil => rw [hlist] at htop; cases htop
  | cons y rest =>
    rw [hlist] at htop
    exact ⟨rest, by rw [Option.some.inj htop], rfl⟩

theorem insert_size (h : BoundedHeap ι α) (i : ι) (x : α) :
    (h.insert i x).entries.size = if h.isFull then h.entries.size else h.entries.size + 1 := by
  unfold BoundedHeap.insert
  split
  · split
    next top htop =>
      split
      · have hlen := (siftDown_perm (h.entries.setIfInBounds 0 (i, x)) 0).length_eq
        rwa [Array.length_toList, Array.length_toList, Array.size_setIfInBounds] at hlen
      · rfl
    next => rfl
  · have hlen := (siftUp_perm (h.entries.push (i, x)) h.entries.size).length_eq
    rwa [Array.length_toList, Array.length_toList, Array.size_push] at hlen

theorem insert_isFull {h : BoundedHeap ι α} (hfull : h.isFull = true) (i : ι) (x : α) :
    (h.insert i x).isFull = true := by
  have hle : h.capacity ≤ h.entries.size := of_decide_eq_true hfull
  rw [isFull, insert_capacity, insert_size, if_pos hfull]
  exact decide_eq_true hle

/-- What a heap holds it held before, or it was offered. -/
theorem insert_subperm (h : BoundedHeap ι α) (i : ι) (x : α) :
    (h.insert i x).entries.toList.Subperm ((i, x) :: h.entries.toList) := by
  have unchanged : h.entries.toList.Subperm ((i, x) :: h.entries.toList) :=
    (List.sublist_cons_self _ _).subperm
  unfold BoundedHeap.insert
  split
  · split
    next top htop =>
      split
      · obtain ⟨rest, hrest, hset⟩ := exists_toList_set htop (i, x)
        have hsift := siftDown_perm (h.entries.setIfInBounds 0 (i, x)) 0
        rw [hset] at hsift
        rw [hrest]
        exact hsift.subperm.trans ((List.sublist_cons_self top rest).cons_cons (i, x)).subperm
      · exact unchanged
    next => exact unchanged
  · have hsift := siftUp_perm (h.entries.push (i, x)) h.entries.size
    rw [Array.toList_push] at hsift
    exact (hsift.trans (List.perm_append_singleton (i, x) _)).subperm

end Contents

variable [LinearOrder α]

theorem farther_iff {a : Array (ι × α)} {i j : ℕ} (h : i < a.size) :
    farther a i j = true ↔ key a i < key a j := by
  rw [farther, Array.getElem?_eq_getElem h, key_of_lt h]
  by_cases hj : j < a.size
  · rw [Array.getElem?_eq_getElem hj, key_of_lt hj, WithBot.coe_lt_coe]
    exact decide_eq_true_iff
  · rw [Array.getElem?_eq_none (not_lt.1 hj), key_of_ge (not_lt.1 hj)]
    exact iff_of_false Bool.false_ne_true not_lt_bot

/-! ## Order -/

/-- No entry is farther than the one above it. -/
def Ordered (a : Array (ι × α)) : Prop := ∀ i, 0 < i → key a i ≤ key a ((i - 1) / 2)

theorem Ordered.le_top {a : Array (ι × α)} (h : Ordered a) (i : ℕ) : key a i ≤ key a 0 := by
  induction i using Nat.strong_induction_on with
  | h i ih =>
    rcases Nat.eq_zero_or_pos i with rfl | hi
    · exact le_rfl
    · exact (h i hi).trans (ih _ (by omega))

/-- All is in order, except that entry `i` may be farther than the one above it. -/
structure UpOrdered (a : Array (ι × α)) (i : ℕ) : Prop where
  others : ∀ j, 0 < j → j ≠ i → key a j ≤ key a ((j - 1) / 2)
  below : 0 < i → ∀ j, 0 < j → (j - 1) / 2 = i → key a j ≤ key a ((i - 1) / 2)

/-- All is in order, except that entries below entry `i` may be farther than it. -/
structure DownOrdered (a : Array (ι × α)) (i : ℕ) : Prop where
  others : ∀ j, 0 < j → (j - 1) / 2 ≠ i → key a j ≤ key a ((j - 1) / 2)
  below : 0 < i → ∀ j, 0 < j → (j - 1) / 2 = i → key a j ≤ key a ((i - 1) / 2)

theorem UpOrdered.swap {a : Array (ι × α)} {i : ℕ} (h : UpOrdered a i) (hi : 0 < i)
    (hsize : i < a.size) (hfar : key a ((i - 1) / 2) < key a i) :
    UpOrdered (a.swapIfInBounds i ((i - 1) / 2)) ((i - 1) / 2) := by
  obtain ⟨hkeyI, hkeyUp, hkey⟩ := key_swap hsize (by omega : (i - 1) / 2 < a.size)
  constructor
  · intro j hj hne
    by_cases hji : j = i
    · rw [hji, hkeyI, hkeyUp]
      exact hfar.le
    · rw [hkey j hji hne]
      by_cases hup : (j - 1) / 2 = i
      · rw [hup, hkeyI]
        exact h.below hi j hj hup
      · have hle := h.others j hj hji
        by_cases hsibling : (j - 1) / 2 = (i - 1) / 2
        · rw [hsibling, hkeyUp]
          exact (hsibling ▸ hle).trans hfar.le
        · rwa [hkey _ hup hsibling]
  · intro hpos j hj hup
    have htop := h.others ((i - 1) / 2) hpos (by omega)
    rw [hkey (((i - 1) / 2 - 1) / 2) (by omega) (by omega)]
    by_cases hji : j = i
    · rwa [hji, hkeyI]
    · rw [hkey j hji (by omega)]
      have hle := h.others j hj hji
      exact (hup ▸ hle).trans htop

/-- A sift upwards puts all in order. -/
theorem siftUp_ordered {a : Array (ι × α)} {i : ℕ} (hsize : i < a.size) (h : UpOrdered a i) :
    Ordered (siftUp a i) := by
  induction a, i using siftUp.induct with
  | case1 a i hfar ih =>
    rw [siftUp, if_pos hfar]
    have hlt := (farther_iff (by omega : (i - 1) / 2 < a.size)).1 hfar.2
    refine ih ?_ (h.swap hfar.1 hsize hlt)
    rw [Array.size_swapIfInBounds]
    omega
  | case2 a i hnear =>
    rw [siftUp, if_neg hnear]
    intro j hj
    by_cases hji : j = i
    · subst hji
      have := mt (farther_iff (by omega : (j - 1) / 2 < a.size)).2 fun hfar => hnear ⟨hj, hfar⟩
      exact not_lt.1 this
    · exact h.others j hj hji

/-! ### Downwards -/

/-- Of two positions the one with the greater key. -/
theorem farther_choice {a : Array (ι × α)} {i j : ℕ} (hi : i < a.size) :
    let m := if farther a i j then j else i
    (m = i ∨ m = j) ∧ m < a.size ∧ key a i ≤ key a m ∧ key a j ≤ key a m := by
  by_cases h : farther a i j = true
  · have hlt := (farther_iff hi).1 h
    have hj : j < a.size := by
      by_contra hj
      rw [key_of_ge (not_lt.1 hj)] at hlt
      exact not_lt_bot hlt
    simp only [if_pos h]
    exact ⟨Or.inr trivial, hj, hlt.le, le_rfl⟩
  · simp only [if_neg h]
    exact ⟨Or.inl trivial, hi, le_rfl, not_lt.1 (mt (farther_iff hi).2 h)⟩

/-- The position chosen among an entry and the two below it has the greatest key of the three. -/
theorem farthestBelow_spec {a : Array (ι × α)} {i : ℕ} (hi : i < a.size) :
    let m := farthestBelow a i
    (m = i ∨ 0 < m ∧ (m - 1) / 2 = i) ∧ m < a.size ∧ key a i ≤ key a m ∧
      ∀ j, 0 < j → (j - 1) / 2 = i → key a j ≤ key a m := by
  obtain ⟨hleft, hleftSize, hiLeft, hleftMax⟩ := farther_choice (j := 2 * i + 1) hi
  obtain ⟨hright, hsize, hmono, hrightMax⟩ := farther_choice (j := 2 * i + 2) hleftSize
  refine ⟨?_, hsize, hiLeft.trans hmono, fun j hj hup => ?_⟩
  · rcases hright with h | h
    · rcases hleft with h' | h'
      · exact Or.inl (h.trans h')
      · exact Or.inr (by rw [farthestBelow]; omega)
    · exact Or.inr (by rw [farthestBelow]; omega)
  · obtain rfl | rfl : j = 2 * i + 1 ∨ j = 2 * i + 2 := by omega
    · exact hleftMax.trans hmono
    · exact hrightMax

theorem DownOrdered.swap {a : Array (ι × α)} {i c : ℕ} (h : DownOrdered a i) (hc : 0 < c)
    (hup : (c - 1) / 2 = i) (hsize : c < a.size) (hfar : key a i ≤ key a c)
    (hmax : ∀ j, 0 < j → (j - 1) / 2 = i → key a j ≤ key a c) :
    DownOrdered (a.swapIfInBounds i c) c := by
  obtain ⟨hkeyI, hkeyC, hkey⟩ := key_swap (by omega : i < a.size) hsize
  constructor
  · intro j hj hne
    by_cases hjc : j = c
    · rwa [hjc, hkeyC, hup, hkeyI]
    · by_cases hji : (j - 1) / 2 = i
      · rw [hji, hkeyI, hkey j (by omega) hjc]
        exact hmax j hj hji
      · rw [hkey _ hji hne]
        by_cases heq : j = i
        · subst heq
          rw [hkeyI]
          exact h.below hj c hc hup
        · rw [hkey j heq hjc]
          exact h.others j hj hji
  · intro _ j hj hjc
    rw [hup, hkeyI, hkey j (by omega) (by omega)]
    have hle := h.others j hj (by omega)
    rwa [hjc] at hle

/-- A sift downwards puts all in order. -/
theorem siftDown_ordered {a : Array (ι × α)} {i : ℕ} (hsize : i < a.size) (h : DownOrdered a i) :
    Ordered (siftDown a i) := by
  induction a, i using siftDown.induct with
  | case1 a i hlt ih =>
    obtain ⟨hchild, hbound, hfar, hmax⟩ := farthestBelow_spec hsize
    obtain ⟨hpos, hup⟩ := hchild.resolve_left hlt.1.ne'
    rw [siftDown, if_pos hlt]
    refine ih ?_ (h.swap hpos hup hbound hfar hmax)
    rwa [Array.size_swapIfInBounds]
  | case2 a i hstop =>
    rw [siftDown, if_neg hstop]
    obtain ⟨hchild, hbound, -, hmax⟩ := farthestBelow_spec hsize
    have heq : farthestBelow a i = i := by omega
    intro j hj
    by_cases hup : (j - 1) / 2 = i
    · rw [hup]
      exact heq ▸ hmax j hj hup
    · exact h.others j hj hup

/-! ## What is kept -/

/-- The heap holds as many of the entries seen as it has room for, and none that it holds is farther
than one that it does not. -/
structure Keeps (h : BoundedHeap ι α) (seen : List (ι × α)) : Prop where
  ordered : Ordered h.entries
  size : h.entries.size = min h.capacity seen.length
  smallest : ∃ dropped, (h.entries.toList ++ dropped).Perm seen ∧
    ∀ x ∈ h.entries.toList, ∀ y ∈ dropped, x.2 ≤ y.2

variable {h : BoundedHeap ι α} {seen : List (ι × α)}

theorem empty_keeps (capacity : ℕ) : (empty capacity : BoundedHeap ι α).Keeps [] where
  ordered i _ := by rw [key_of_ge (Nat.zero_le i)]; exact bot_le
  size := (Nat.min_zero _).symm
  smallest := ⟨[], .refl _, fun x hx => nomatch hx⟩

theorem Keeps.perm (hk : h.Keeps seen) {seen' : List (ι × α)} (hp : seen.Perm seen') :
    h.Keeps seen' where
  ordered := hk.ordered
  size := by rw [hk.size, hp.length_eq]
  smallest := hk.smallest.imp fun _ hd => ⟨hd.1.trans hp, hd.2⟩

/-- No entry is farther than the top. -/
theorem Ordered.le_first {a : Array (ι × α)} (ha : Ordered a) {top : ι × α} (htop : a[0]? = some top)
    {x : ι × α} (hx : x ∈ a.toList) : x.2 ≤ top.2 := by
  obtain ⟨i, hi, rfl⟩ := Array.mem_iff_getElem.1 (Array.mem_def.2 hx)
  have hle := ha.le_top i
  have hfirst : key a 0 = top.2 := by rw [key, htop]; rfl
  rwa [key_of_lt hi, hfirst, WithBot.coe_le_coe] at hle

/-- An entry that is no nearer than what a full heap holds makes no difference. -/
theorem Keeps.skip (hk : h.Keeps seen) (hfull : h.isFull = true) {x : ι × α}
    (hx : ∀ y ∈ h.entries.toList, y.2 ≤ x.2) : h.Keeps (x :: seen) where
  ordered := hk.ordered
  size := by
    have hle : h.capacity ≤ h.entries.size := of_decide_eq_true hfull
    have := hk.size
    rw [List.length_cons]
    omega
  smallest := by
    obtain ⟨dropped, hperm, hle⟩ := hk.smallest
    refine ⟨x :: dropped, List.perm_middle.trans (hperm.cons x), fun y hy z hz => ?_⟩
    rcases List.mem_cons.1 hz with rfl | hz
    · exact hx y hy
    · exact hle y hy z hz

theorem Keeps.skip_all (hk : h.Keeps seen) (hfull : h.isFull = true) {xs : List (ι × α)}
    (hxs : ∀ x ∈ xs, ∀ y ∈ h.entries.toList, y.2 ≤ x.2) : h.Keeps (xs ++ seen) := by
  induction xs with
  | nil => exact hk
  | cons x xs ih =>
    rw [List.forall_mem_cons] at hxs
    exact (ih hxs.2).skip hfull hxs.1

omit [LinearOrder α] in
theorem key_push {a : Array (ι × α)} (x : ι × α) {i : ℕ} (hi : i < a.size) :
    key (a.push x) i = key a i := by
  rw [key, Array.getElem?_push_lt hi, key_of_lt hi]
  rfl

omit [LinearOrder α] in
theorem key_set {a : Array (ι × α)} (x : ι × α) {i : ℕ} (hi : i ≠ 0) :
    key (a.setIfInBounds 0 x) i = key a i := by
  rw [key, Array.getElem?_setIfInBounds_ne hi.symm, key]

/-- One more entry in a heap with room. -/
theorem Keeps.push (hk : h.Keeps seen) (hroom : h.isFull = false) (x : ι × α) :
    ({ h with entries := siftUp (h.entries.push x) h.entries.size } : BoundedHeap ι α).Keeps
      (x :: seen) := by
  have hlt : h.entries.size < h.capacity := not_le.1 (of_decide_eq_false hroom)
  have hsize : h.entries.size = seen.length := by have := hk.size; omega
  have hsift := siftUp_perm (h.entries.push x) h.entries.size
  refine ⟨siftUp_ordered (by rw [Array.size_push]; omega) ⟨fun j hj hne => ?_, fun _ j _ hup => ?_⟩,
    ?_, [], ?_, fun _ _ y hy => nomatch hy⟩
  · by_cases hj' : j < h.entries.size
    · rw [key_push x hj', key_push x (by omega)]
      exact hk.ordered j hj
    · rw [key_of_ge (by rw [Array.size_push]; omega)]
      exact bot_le
  · rw [key_of_ge (by rw [Array.size_push]; omega)]
    exact bot_le
  · have hlen := hsift.length_eq
    rw [Array.length_toList, Array.length_toList, Array.size_push] at hlen
    show _ = min h.capacity (seen.length + 1)
    exact hlen.trans (by omega)
  · obtain ⟨dropped, hperm, -⟩ := hk.smallest
    have hlen := hperm.length_eq
    rw [List.length_append, Array.length_toList] at hlen
    obtain rfl : dropped = [] := List.eq_nil_of_length_eq_zero (by omega)
    rw [List.append_nil] at hperm ⊢
    rw [Array.toList_push] at hsift
    exact hsift.trans ((List.perm_append_singleton x _).trans (hperm.cons x))

/-- The farthest entry of a full heap replaced by a nearer one. -/
theorem Keeps.replace (hk : h.Keeps seen) (hfull : h.isFull = true) {top x : ι × α}
    (htop : h.entries[0]? = some top) (hx : x.2 < top.2) :
    ({ h with entries := siftDown (h.entries.setIfInBounds 0 x) 0 } : BoundedHeap ι α).Keeps
      (x :: seen) := by
  have hle : h.capacity ≤ h.entries.size := of_decide_eq_true hfull
  have hpos : 0 < h.entries.size := (Array.getElem?_eq_some_iff.1 htop).1
  have hsift := siftDown_perm (h.entries.setIfInBounds 0 x) 0
  obtain ⟨rest, hrest, hset⟩ := exists_toList_set htop x
  rw [hset] at hsift
  refine ⟨siftDown_ordered (by rwa [Array.size_setIfInBounds]) ⟨fun j hj hne => ?_, fun h0 => ?_⟩,
    ?_, ?_⟩
  · rw [key_set x hj.ne', key_set x hne]
    exact hk.ordered j hj
  · exact absurd h0 (lt_irrefl 0)
  · have hlen : _ = (top :: rest).length := hsift.length_eq
    rw [← hrest, Array.length_toList, Array.length_toList] at hlen
    have := hk.size
    show _ = min h.capacity (seen.length + 1)
    exact hlen.trans (by omega)
  · obtain ⟨dropped, hperm, hsmall⟩ := hk.smallest
    rw [hrest] at hperm hsmall
    refine ⟨top :: dropped, ?_, fun y hy z hz => ?_⟩
    · exact (hsift.append_right _).trans ((List.perm_middle.cons x).trans (hperm.cons x))
    · have hyTop : y.2 ≤ top.2 := by
        rcases List.mem_cons.1 (hsift.mem_iff.1 hy) with rfl | hy
        · exact hx.le
        · exact hk.ordered.le_first htop (hrest ▸ List.mem_cons_of_mem _ hy)
      rcases List.mem_cons.1 hz with rfl | hz
      · exact hyTop
      · exact hyTop.trans (hsmall top List.mem_cons_self z hz)

/-- After one more insert the heap keeps the smallest of one more entry. -/
theorem Keeps.insert (hk : h.Keeps seen) (i : ι) (x : α) : (h.insert i x).Keeps ((i, x) :: seen) := by
  unfold BoundedHeap.insert
  by_cases hfull : h.isFull = true
  · rw [if_pos hfull]
    cases htop : h.entries[0]? with
    | none =>
      have hempty : h.entries = #[] := by
        have := Array.getElem?_eq_none_iff.1 htop
        exact Array.eq_empty_of_size_eq_zero (by omega)
      exact hk.skip hfull fun y hy => by rw [hempty] at hy; cases hy
    | some top =>
      dsimp only
      split
      next hx => exact hk.replace hfull htop hx
      next hx => exact hk.skip hfull fun y hy => (hk.ordered.le_first htop hy).trans (not_lt.1 hx)
  · rw [if_neg hfull]
    exact hk.push (Bool.eq_false_of_not_eq_true hfull) (i, x)

/-! ## The bound and the answer -/

section Bound

variable [Scalar α]

/-- No entry of a full heap is farther than the bound. -/
theorem Keeps.le_worst (hk : h.Keeps seen) (hfull : h.isFull = true) {x : ι × α}
    (hx : x ∈ h.entries.toList) : x.2 ≤ h.worst.getD Scalar.largest := by
  have hpos : 0 < h.entries.size := Array.size_pos_of_mem (Array.mem_def.2 hx)
  have htop : h.entries[0]? = some h.entries[0] := Array.getElem?_eq_getElem hpos
  rw [worst, if_pos hfull, htop]
  exact hk.ordered.le_first htop hx

/-- Only a full heap has a bound below a number in range, and then all its entries are below it. -/
theorem Keeps.worst_lt (hk : h.Keeps seen) {v : α} (hv : h.worst.getD Scalar.largest < v)
    (hlargest : v ≤ Scalar.largest) : h.isFull = true ∧ ∀ x ∈ h.entries.toList, x.2 ≤ v := by
  have hfull : h.isFull = true := by
    by_contra hroom
    rw [worst, if_neg hroom] at hv
    exact hv.not_ge hlargest
  exact ⟨hfull, fun x hx => (hk.le_worst hfull hx).trans hv.le⟩

end Bound

/-- A heap that saw at least as many entries as it has room for answers with the smallest of them. -/
theorem Keeps.sorted_smallest (hk : h.Keeps seen) (hseen : h.capacity ≤ seen.length) :
    Smallest h.capacity seen h.sorted := by
  obtain ⟨dropped, hperm, hle⟩ := hk.smallest
  have hsorted : h.sorted.Perm h.entries.toList := StableSort.sort_perm _ _
  refine ⟨?_, StableSort.sort_ascending (fun x : ι × α => x.2) h.entries.toList, dropped, ?_, ?_⟩
  · rw [hsorted.length_eq, Array.length_toList, hk.size, min_eq_left hseen]
  · exact (hsorted.append_right dropped).trans hperm
  · intro x hx
    exact hle x (hsorted.mem_iff.1 hx)

end Proximity.BoundedHeap
