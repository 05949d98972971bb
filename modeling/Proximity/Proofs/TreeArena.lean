import Proximity.Proofs.Comparisons
import Proximity.Proofs.Trees

/-!
# Nodes in an array

A tree is built of every matrix with rows and columns, whatever its entries are, and its nodes have
their places: links lead to later nodes, every node but the root is linked to from one node only, and
every row of the matrix belongs to one leaf or is the point of one inner node. Where all entries are
finite numbers, the box of a node is that of the least and greatest coordinates below it.

1. `existsUnique_part`: an entry of a list without repetitions lies in one part of it.
2. `grow_links` and `grow_depth`: the links of a growth, and its depth.
3. `KdTree.Placed`: a growth within a tree, with what holds of each of its nodes (`Regular`,
   `Halves`). `grow_placed` gives it of all growths.
4. `FiniteNumbers`, `Box.Exact` and `Selection.Arranges`: boxes and sides of finite numbers.
5. `KdTree.WellFormed` and `KdTree.buildWith_wellFormed`.
-/

namespace Proximity

/-- An entry of a list without repetitions that is put together from parts lies in one part only. -/
theorem existsUnique_part {β γ : Type*} {parts : List β} {f : β → List γ} {x : γ}
    (hnodup : (parts.flatMap f).Nodup) (hx : x ∈ parts.flatMap f) :
    ∃! k : ℕ, ∃ b, parts[k]? = some b ∧ x ∈ f b := by
  obtain ⟨-, hdisjoint⟩ := List.nodup_flatMap.1 hnodup
  have apart {k k' : ℕ} {b b' : β} (hlt : k < k') (hb : parts[k]? = some b)
      (hb' : parts[k']? = some b') (hx : x ∈ f b) : x ∉ f b' := by
    obtain ⟨hk, rfl⟩ := List.getElem?_eq_some_iff.1 hb
    obtain ⟨hk', rfl⟩ := List.getElem?_eq_some_iff.1 hb'
    exact List.pairwise_iff_getElem.1 hdisjoint k k' hk hk' hlt hx
  obtain ⟨b, hb, hxb⟩ := List.mem_flatMap.1 hx
  obtain ⟨k, hk⟩ := List.mem_iff_getElem?.1 hb
  refine ⟨k, ⟨b, hk, hxb⟩, ?_⟩
  rintro k' ⟨b', hk', hxb'⟩
  rcases lt_trichotomy k k' with hlt | heq | hgt
  · exact absurd hxb' (apart hlt hk hk' hxb)
  · exact heq.symm
  · exact absurd hxb (apart hgt hk' hk hxb')

variable {α : Type} {n d : ℕ}

/-! ## Links -/

/-- The positions that a split links to. -/
def Split.links : Split n → List ℕ
  | leaf => []
  | inner _ left right => [left, right]

theorem Split.links_shift (s : Split n) (offset : ℕ) :
    (s.shift offset).links = s.links.map (· + offset) := by
  cases s <;> rfl

/-- The positions that the nodes of a growth link to, one node after another. -/
def Growth.links (g : Growth α n d) : List ℕ := g.nodes.toList.flatMap fun v => v.split.links

theorem Growth.join_flatMap {β : Type*} (f : Node α n d → List β) (v : ℕ → Node α n d)
    (point : Fin n) (L R : Growth α n d) :
    (Growth.join v point L R).nodes.toList.flatMap f =
      f (v (1 + L.nodes.size)) ++ L.nodes.toList.flatMap (fun u => f (u.shift 1)) ++
        R.nodes.toList.flatMap (fun u => f (u.shift (1 + L.nodes.size))) := by
  simp [Growth.join, List.flatMap_append, List.flatMap_map]

/-- A node of a join is its root or a node of one of the two parts. -/
theorem Growth.join_cases {v : ℕ → Node α n d} {point : Fin n} {L R : Growth α n d} {k : ℕ}
    {u : Node α n d} (h : (Growth.join v point L R).nodes[k]? = some u) :
    (k = 0 ∧ u = v (1 + L.nodes.size)) ∨
      (∃ k' u', k = 1 + k' ∧ L.nodes[k']? = some u' ∧ u = u'.shift 1) ∨
      ∃ k' u', k = 1 + L.nodes.size + k' ∧ R.nodes[k']? = some u' ∧
        u = u'.shift (1 + L.nodes.size) := by
  simp only [Growth.join, Array.getElem?_append, Array.size_append, Array.size_map,
    List.size_toArray, List.length_singleton, Array.getElem?_map] at h
  split at h
  next hleft =>
    split at h
    next hroot =>
      obtain rfl : k = 0 := by omega
      exact Or.inl ⟨rfl, (Option.some.inj h).symm⟩
    next hroot =>
      obtain ⟨u', hu', rfl⟩ := Option.map_eq_some_iff.1 h
      exact Or.inr (Or.inl ⟨k - 1, u', by omega, hu', rfl⟩)
  next hright =>
    obtain ⟨u', hu', rfl⟩ := Option.map_eq_some_iff.1 h
    exact Or.inr (Or.inr ⟨k - (1 + L.nodes.size), u', by omega, hu', rfl⟩)

theorem Growth.flatMap_links_shift (g : Growth α n d) (offset : ℕ) :
    g.nodes.toList.flatMap (fun u => (u.shift offset).split.links) =
      g.links.map (· + offset) := by
  simp only [Growth.links, Node.shift, Split.links_shift, List.map_flatMap]

section Grow

variable [Neg α] [Scalar α] {S : Selection (Fin n) α} {M : Matrix α n d}
  (hd : 0 < d) {leafSize : ℕ} (hleaf : 0 < leafSize) (hword : 2 * leafSize < UInt64.size)

include hleaf hword

/-- The nodes of a growth but its root are linked to, each of them once. -/
theorem grow_links (depth start : ℕ) {rows : List (Fin n)} (hrows : rows ≠ []) :
    let g := grow S M hd leafSize depth start rows
    0 < g.nodes.size ∧ g.links.Nodup ∧ ∀ k, k ∈ g.links ↔ 0 < k ∧ k < g.nodes.size := by
  refine grow_induction (P := fun _ _ _ g => 0 < g.nodes.size ∧ g.links.Nodup ∧
    ∀ k, k ∈ g.links ↔ 0 < k ∧ k < g.nodes.size) hleaf hword ?_ ?_ depth start rows hrows
  · intro depth start rows _ _
    refine ⟨Nat.one_pos, List.nodup_nil, fun k => ?_⟩
    simp only [Growth.links, Node.ofRange, List.flatMap_singleton, Split.links, List.not_mem_nil,
      List.size_toArray, List.length_singleton, false_iff]
    omega
  · intro depth start rows before point after L R _ _ _ _ _ _ hL hR
    obtain ⟨hposL, hnodupL, hmemL⟩ := hL
    obtain ⟨hposR, hnodupR, hmemR⟩ := hR
    have hlinksL (k : ℕ) : k ∈ L.links.map (· + 1) ↔ 1 < k ∧ k < 1 + L.nodes.size := by
      simp only [List.mem_map, hmemL]
      exact ⟨fun ⟨k', h, hk⟩ => by omega, fun h => ⟨k - 1, by omega, by omega⟩⟩
    have hlinksR (k : ℕ) : k ∈ R.links.map (· + (1 + L.nodes.size)) ↔
        1 + L.nodes.size < k ∧ k < 1 + L.nodes.size + R.nodes.size := by
      simp only [List.mem_map, hmemR]
      exact ⟨fun ⟨k', h, hk⟩ => by omega, fun h => ⟨k - (1 + L.nodes.size), by omega, by omega⟩⟩
    rw [Growth.join_size, Growth.links, Growth.join_flatMap, Growth.flatMap_links_shift,
      Growth.flatMap_links_shift]
    refine ⟨by omega, ?_, fun k => ?_⟩
    · simp only [Node.ofRange, Split.links, List.cons_append, List.nil_append, List.nodup_cons,
        List.nodup_append, List.mem_cons, List.mem_append, hlinksL, hlinksR]
      refine ⟨by omega, by omega, hnodupL.map (add_left_injective _),
        hnodupR.map (add_left_injective _), fun a ha b hb => by omega⟩
    · simp only [Node.ofRange, Split.links, List.cons_append, List.nil_append, List.mem_cons,
        List.mem_append, hlinksL, hlinksR]
      omega

/-- Every level of a growth halves the rows. -/
theorem grow_depth (depth start : ℕ) {rows : List (Fin n)} (hrows : rows ≠ []) :
    ∀ v ∈ (grow S M hd leafSize depth start rows).nodes.toList,
      2 ^ v.depth * v.length ≤ 2 ^ depth * rows.length := by
  refine grow_induction (P := fun depth _ rows g => ∀ v ∈ g.nodes.toList,
    2 ^ v.depth * v.length ≤ 2 ^ depth * rows.length) hleaf hword ?_ ?_ depth start rows hrows
  · intro depth start rows _ _ v hv
    obtain rfl := List.mem_singleton.1 hv
    exact le_rfl
  · intro depth start rows before point after L R _ _ hrun hlen _ _ hL hR v hv
    have htotal := congrArg List.length hrun
    rw [(S.perm _ _ _).length_eq, List.length_append, List.length_cons] at htotal
    have half {part : List (Fin n)} (hpart : 2 * part.length ≤ rows.length) :
        2 ^ (depth + 1) * part.length ≤ 2 ^ depth * rows.length := by
      rw [pow_succ, mul_assoc]
      exact Nat.mul_le_mul_left _ hpart
    simp only [Growth.join, Array.toList_append, Array.toList_map, List.mem_append,
      List.mem_singleton, List.mem_map] at hv
    rcases hv with (rfl | ⟨u, hu, rfl⟩) | ⟨u, hu, rfl⟩
    · exact le_rfl
    · exact (hL u hu).trans (half (by omega))
    · exact (hR u hu).trans (half (by omega))

end Grow

/-! ## Nodes in their places -/

namespace KdTree

/-- The rows that belong to a node: those in the range of a leaf, and the point of an inner node. -/
def owned (T : KdTree α n d) (v : Node α n d) : List (Fin n) :=
  match v.split with
  | .leaf => T.rowsOf v
  | .inner point _ _ => [point]

theorem owned_shift (T : KdTree α n d) (v : Node α n d) (offset : ℕ) :
    T.owned (v.shift offset) = T.owned v := by
  obtain ⟨dim, depth, start, length, split, box⟩ := v
  cases split <;> rfl

section Placed

variable [Neg α] [Scalar α]

/-- What holds of a node by itself: it splits the dimension of its depth, its range is a part of the
permutation that is not empty, and its box is that of its rows. -/
structure Regular (T : KdTree α n d) (v : Node α n d) : Prop where
  dim : v.dim.val = v.depth % d
  nonempty : 0 < v.length
  range : v.start + v.length ≤ T.indices.size
  leaf : v.split = .leaf → v.length < max (2 * T.leafSize) 3
  box : ∃ rows, rows.Perm (T.rowsOf v) ∧ v.box = Box.ofRows T.data rows

/-- Node `id` splits its range at the lower middle row into the ranges of two later nodes, which are
one level deeper and not empty. The three are what a selection leaves of the rows in the range. -/
structure Halves (T : KdTree α n d) (S : Selection (Fin n) α) (id : ℕ) (v : Node α n d)
    (point : Fin n) (left right : ℕ) (l r : Node α n d) : Prop where
  three_le : 3 ≤ v.length
  leafSize_le : 2 * T.leafSize ≤ v.length
  middle : T.indices[v.start + (v.length - 1) / 2]? = some point
  left_node : T.nodes[left]? = some l
  right_node : T.nodes[right]? = some r
  id_lt_left : id < left
  left_lt_right : left < right
  left_start : l.start = v.start
  left_length : l.length = (v.length - 1) / 2
  left_depth : l.depth = v.depth + 1
  right_start : r.start = v.start + (v.length - 1) / 2 + 1
  right_length : r.length = v.length - (v.length - 1) / 2 - 1
  right_depth : r.depth = v.depth + 1
  arranged : ∃ rows before after, rows.Perm (T.rowsOf v) ∧
    S.run ((v.length - 1) / 2) (T.data.entry · v.dim) rows = before ++ point :: after ∧
    before.length = (v.length - 1) / 2 ∧ before.Perm (T.rowsOf l) ∧ after.Perm (T.rowsOf r)

/-- What holds of node `id` and those that it links to. -/
def Sound (T : KdTree α n d) (S : Selection (Fin n) α) (id : ℕ) (v : Node α n d) : Prop :=
  T.Regular v ∧ ∀ point left right, v.split = .inner point left right →
    ∃ l r, T.Halves S id v point left right l r

/-- A growth over some rows at position `id` of a tree: its root, its permutation, the rows of its
nodes, and its nodes. -/
structure Placed (T : KdTree α n d) (S : Selection (Fin n) α) (hd : 0 < d) (id depth start : ℕ)
    (rows : List (Fin n)) (g : Growth α n d) : Prop where
  root : ∃ split, g.nodes[0]? = some (Node.ofRange T.data hd depth start rows split)
  perm : g.order.Perm rows
  owned : (g.nodes.toList.flatMap T.owned).Perm g.order
  nodes : ∀ k v, g.nodes[k]? = some v → T.Sound S (id + k) (v.shift id)

variable {S : Selection (Fin n) α} {T : KdTree α n d} {hd : 0 < d}

omit [Neg α] [Scalar α] in
/-- The range of a growth lies within the permutation. -/
theorem Contains.range_le {id start : ℕ} {g : Growth α n d} (h : T.Contains id start g)
    (hne : g.order ≠ []) : start + g.order.length ≤ T.indices.size := by
  have hpos := List.length_pos_iff.2 hne
  have hlast := h.order (g.order.length - 1) _ (List.getElem?_eq_getElem (by omega))
  have := (Array.getElem?_eq_some_iff.1 hlast).1
  omega

/-- The root of a growth is regular. -/
theorem Contains.regular {id start : ℕ} {g : Growth α n d} (h : T.Contains id start g)
    {rows : List (Fin n)} (hrows : rows ≠ []) (hperm : g.order.Perm rows) (hd : 0 < d) (depth : ℕ)
    (split : Split n) (hsplit : split = .leaf → rows.length < max (2 * T.leafSize) 3) :
    T.Regular (Node.ofRange T.data hd depth start rows split) where
  dim := rfl
  nonempty := List.length_pos_iff.2 hrows
  range := by
    have hne : g.order ≠ [] := fun hnil => hrows (hnil ▸ hperm).nil_eq.symm
    have := h.range_le hne
    rwa [hperm.length_eq] at this
  leaf := hsplit
  box := by
    refine ⟨rows, ?_, rfl⟩
    rw [h.rowsOf_eq rfl hperm.length_eq.symm]
    exact hperm.symm

theorem Regular.shift {v : Node α n d} (h : T.Regular v) (offset : ℕ) :
    T.Regular (v.shift offset) :=
  ⟨h.dim, h.nonempty, h.range, fun hleaf => h.leaf (Node.leaf_of_shift hleaf), h.box⟩

theorem Placed.size_pos {id depth start : ℕ} {rows : List (Fin n)} {g : Growth α n d}
    (h : T.Placed S hd id depth start rows g) : 0 < g.nodes.size := by
  obtain ⟨split, hroot⟩ := h.root
  exact (Array.getElem?_eq_some_iff.1 hroot).1

section Join

variable {id depth start : ℕ} {rows before after : List (Fin n)} {point : Fin n}
  {L R : Growth α n d}

/-- The root of a join halves its range, where the two parts are in their places. -/
theorem Contains.halves
    (hin : T.Contains id start (.join (fun offset =>
      Node.ofRange T.data hd depth start rows (.inner point 1 offset)) point L R))
    (hthree : 3 ≤ rows.length) (htwo : 2 * T.leafSize ≤ rows.length)
    (hrun : S.run ((rows.length - 1) / 2) (T.data.entry · ⟨depth % d, Nat.mod_lt _ hd⟩) rows =
      before ++ point :: after)
    (hlen : before.length = (rows.length - 1) / 2)
    (placedL : T.Placed S hd (1 + id) (depth + 1) start before L)
    (placedR : T.Placed S hd (1 + L.nodes.size + id) (depth + 1)
      (start + (rows.length - 1) / 2 + 1) after R) :
    ∃ l r, T.Halves S id
      ((Node.ofRange T.data hd depth start rows (.inner point 1 (1 + L.nodes.size))).shift id)
      point (1 + id) (1 + L.nodes.size + id) l r := by
  have hinL := hin.left
  have hinR := hin.right
  have horder : L.order.length = (rows.length - 1) / 2 := placedL.perm.length_eq.trans hlen
  rw [horder] at hinR
  have hperm := Growth.join_perm (v := fun offset => Node.ofRange T.data hd depth start rows
    (.inner point 1 offset)) hrun placedL.perm placedR.perm
  have hafter : after.length = rows.length - (rows.length - 1) / 2 - 1 := by
    have := congrArg List.length hrun
    rw [(S.perm _ _ _).length_eq, List.length_append, List.length_cons] at this
    omega
  have hmiddle : T.indices[start + (rows.length - 1) / 2]? = some point := by
    refine hin.order _ _ ?_
    rw [Growth.join, ← horder, List.getElem?_append_right le_rfl, Nat.sub_self]
    rfl
  have hposL := placedL.size_pos
  obtain ⟨splitL, rootL⟩ := placedL.root
  obtain ⟨splitR, rootR⟩ := placedR.root
  refine ⟨_, _, ⟨hthree, htwo, hmiddle, hinL.nodes 0 _ rootL, hinR.nodes 0 _ rootR, by omega,
    by omega, rfl, hlen, rfl, rfl, hafter, rfl, rows, before, after, ?_, hrun, hlen, ?_, ?_⟩⟩
  · rw [hin.rowsOf_eq rfl hperm.length_eq.symm]
    exact hperm.symm
  · rw [hinL.rowsOf_eq rfl placedL.perm.length_eq.symm]
    exact placedL.perm.symm
  · rw [hinR.rowsOf_eq rfl placedR.perm.length_eq.symm]
    exact placedR.perm.symm

end Join

/-- A growth over some rows is in its place in every tree that contains it. -/
theorem grow_placed (hleaf : 0 < T.leafSize) (hword : 2 * T.leafSize < UInt64.size)
    (depth start : ℕ) {rows : List (Fin n)} (hrows : rows ≠ []) :
    let g := grow S T.data hd T.leafSize depth start rows
    ∀ id, T.Contains id start g → T.Placed S hd id depth start rows g := by
  refine grow_induction (P := fun depth start rows g => ∀ id, T.Contains id start g →
    T.Placed S hd id depth start rows g) hleaf hword ?_ ?_ depth start rows hrows
  · intro depth start rows hne hlen id hin
    have hregular := hin.regular hne (List.Perm.refl rows) hd depth .leaf fun _ => hlen
    refine ⟨⟨.leaf, rfl⟩, List.Perm.refl rows, ?_, fun k v hk => ?_⟩
    · have hrange := hin.rowsOf_eq (v := Node.ofRange T.data hd depth start rows .leaf) rfl rfl
      exact List.Perm.of_eq ((List.flatMap_singleton _ _).trans hrange)
    · obtain rfl : k = 0 := by
        have := (Array.getElem?_eq_some_iff.1 hk).1
        simpa using this
      obtain rfl := Option.some.inj hk
      refine ⟨hregular.shift id, fun _ _ _ h => ?_⟩
      cases h
  · intro depth start rows before point after L R htwo hthree hrun hlen _ _ hL hR id hin
    have placedL := hL _ hin.left
    have hinR := hin.right
    rw [placedL.perm.length_eq, hlen] at hinR
    have placedR := hR _ hinR
    have hperm := Growth.join_perm (v := fun offset => Node.ofRange T.data hd depth start rows
      (.inner point 1 offset)) hrun placedL.perm placedR.perm
    refine ⟨⟨.inner point 1 (1 + L.nodes.size), by simp [Growth.join]⟩, hperm, ?_, fun k v hk => ?_⟩
    · rw [Growth.join_flatMap]
      simp only [owned_shift]
      exact ((placedL.owned.append placedR.owned).cons point).trans List.perm_middle.symm
    · rcases Growth.join_cases hk with ⟨rfl, rfl⟩ | ⟨k, u, rfl, hu, rfl⟩ | ⟨k, u, rfl, hu, rfl⟩
      · have hne : rows ≠ [] := List.length_pos_iff.1 (by omega)
        have hregular := hin.regular hne hperm hd depth (.inner point 1 (1 + L.nodes.size))
          fun h => by cases h
        refine ⟨hregular.shift id, ?_⟩
        rintro p left right h
        obtain ⟨rfl, rfl, rfl⟩ := Split.inner.inj h
        exact hin.halves hthree htwo hrun hlen placedL placedR
      · rw [Node.shift_shift, ← Nat.add_assoc, Nat.add_comm id]
        exact placedL.nodes k u hu
      · rw [Node.shift_shift, ← Nat.add_assoc, Nat.add_comm id]
        exact placedR.nodes k u hu

end Placed

end KdTree

/-! ## Finite numbers -/

/-- Numbers as the finite ones of a number type are: totally ordered, with a largest and a least one,
and with a smaller and a larger one of any two. -/
structure FiniteNumbers [LT α] [Neg α] [Scalar α] (P : α → Prop) : Prop extends TotallyOrdered P where
  largest : P Scalar.largest
  le_largest : ∀ x, P x → ¬ Scalar.largest < x
  smallest : P Scalar.smallest
  smallest_le : ∀ x, P x → ¬ x < Scalar.smallest
  min_choice : ∀ x y : α, P x → P y → Scalar.min x y = x ∨ Scalar.min x y = y
  min_le : ∀ x y : α, P x → P y → ¬ x < Scalar.min x y ∧ ¬ y < Scalar.min x y
  max_choice : ∀ x y : α, P x → P y → Scalar.max x y = x ∨ Scalar.max x y = y
  le_max : ∀ x y : α, P x → P y → ¬ Scalar.max x y < x ∧ ¬ Scalar.max x y < y

/-- A loop that chooses one of two numbers, related to both, ends with a number that is related to all
of them and is one of them. -/
theorem foldl_choice {ι : Type*} {P : α → Prop} {R : α → α → Prop} {op : α → α → α}
    (trans : ∀ x y z, P x → P y → P z → R x y → R y z → R x z) (refl : ∀ x, P x → R x x)
    (choice : ∀ x y, P x → P y → op x y = x ∨ op x y = y)
    (below : ∀ x y, P x → P y → R (op x y) x ∧ R (op x y) y) (key : ι → α) (rows : List ι) (a : α)
    (ha : P a) (hrows : ∀ i ∈ rows, P (key i)) :
    let m := rows.foldl (fun x i => op x (key i)) a
    P m ∧ R m a ∧ (∀ i ∈ rows, R m (key i)) ∧ (m = a ∨ ∃ i ∈ rows, m = key i) := by
  induction rows generalizing a with
  | nil => exact ⟨ha, refl a ha, fun i hi => absurd hi List.not_mem_nil, Or.inl rfl⟩
  | cons k rows ih =>
    have hk := hrows k List.mem_cons_self
    obtain ⟨hopa, hopk⟩ := below a (key k) ha hk
    have hop : P (op a (key k)) := by
      rcases choice a (key k) ha hk with h | h
      · rwa [h]
      · rwa [h]
    obtain ⟨hm, hma, hall, hone⟩ := ih _ hop fun i hi => hrows i (List.mem_cons_of_mem _ hi)
    rw [List.foldl_cons]
    refine ⟨hm, trans _ _ _ hm hop ha hma hopa, fun i hi => ?_, ?_⟩
    · rcases List.mem_cons.1 hi with rfl | hi
      · exact trans _ _ _ hm hop hk hma hopk
      · exact hall i hi
    · rcases hone with heq | ⟨i, hi, heq⟩
      · rcases choice a (key k) ha hk with h | h
        · exact Or.inl (heq.trans h)
        · exact Or.inr ⟨k, List.mem_cons_self, heq.trans h⟩
      · exact Or.inr ⟨i, List.mem_cons_of_mem _ hi, heq⟩

/-- The ends of a box are, in every coordinate, a least and a greatest entry of some rows. -/
structure Box.Exact [LT α] (M : Matrix α n d) (rows : List (Fin n)) (b : Box α d) : Prop where
  low : ∀ j, (∀ i ∈ rows, ¬ M.entry i j < b.low.get j) ∧ ∃ i ∈ rows, ¬ b.low.get j < M.entry i j
  high : ∀ j, (∀ i ∈ rows, ¬ b.high.get j < M.entry i j) ∧ ∃ i ∈ rows, ¬ M.entry i j < b.high.get j

theorem Box.Exact.perm [LT α] {M : Matrix α n d} {rows rows' : List (Fin n)} {b : Box α d}
    (h : b.Exact M rows) (hperm : rows.Perm rows') : b.Exact M rows' := by
  constructor
  · intro j
    simpa only [hperm.mem_iff] using h.low j
  · intro j
    simpa only [hperm.mem_iff] using h.high j

section Boxes

variable [Neg α] [Scalar α]

theorem Box.ofRows_get (M : Matrix α n d) (rows : List (Fin n)) (j : Fin d) :
    (Box.ofRows M rows).low.get j =
        rows.foldl (fun x i => Scalar.min x (M.entry i j)) Scalar.largest ∧
      (Box.ofRows M rows).high.get j =
        rows.foldl (fun x i => Scalar.max x (M.entry i j)) Scalar.smallest := by
  have fold (b : Box α d) :
      (rows.foldl (fun b i => b.extend (M.get i)) b).low.get j =
          rows.foldl (fun x i => Scalar.min x (M.entry i j)) (b.low.get j) ∧
        (rows.foldl (fun b i => b.extend (M.get i)) b).high.get j =
          rows.foldl (fun x i => Scalar.max x (M.entry i j)) (b.high.get j) := by
    induction rows generalizing b with
    | nil => exact ⟨rfl, rfl⟩
    | cons k rows ih =>
      have := ih (b.extend (M.get k))
      simp only [Box.extend, Vector.get_zipWith] at this
      exact this
  have := fold Box.empty
  simpa [Box.empty, Box.ofRows] using this

variable [LT α] {P : α → Prop}

/-- The box of some rows of finite numbers is exact. -/
theorem FiniteNumbers.ofRows_exact (h : FiniteNumbers P) (M : Matrix α n d) {rows : List (Fin n)}
    (hne : rows ≠ []) (hfin : ∀ i j, P (M.entry i j)) : (Box.ofRows M rows).Exact M rows := by
  obtain ⟨k, hk⟩ := List.exists_mem_of_ne_nil rows hne
  constructor
  · intro j
    obtain ⟨hm, -, hall, hone⟩ := foldl_choice (R := fun x y => ¬ y < x) h.trans h.irrefl
      h.min_choice h.min_le (M.entry · j) rows _ h.largest fun i _ => hfin i j
    rw [(Box.ofRows_get M rows j).1]
    refine ⟨hall, ?_⟩
    rcases hone with heq | ⟨i, hi, heq⟩
    · rw [heq]
      exact ⟨k, hk, h.le_largest _ (hfin k j)⟩
    · rw [heq]
      exact ⟨i, hi, h.irrefl _ (hfin i j)⟩
  · intro j
    obtain ⟨hm, -, hall, hone⟩ := foldl_choice (R := fun x y => ¬ x < y)
      (fun x y z hx hy hz hxy hyz => h.trans z y x hz hy hx hyz hxy) h.irrefl
      h.max_choice h.le_max (M.entry · j) rows _ h.smallest fun i _ => hfin i j
    rw [(Box.ofRows_get M rows j).2]
    refine ⟨hall, ?_⟩
    rcases hone with heq | ⟨i, hi, heq⟩
    · rw [heq]
      exact ⟨k, hk, h.smallest_le _ (hfin k j)⟩
    · rw [heq]
      exact ⟨i, hi, h.irrefl _ (hfin i j)⟩

end Boxes

/-- Where the keys are totally ordered, nothing greater stands before the item of the given rank, and
nothing smaller after it. -/
def Selection.Arranges {ι : Type} [LT α] (S : Selection ι α) : Prop :=
  ∀ P : α → Prop, TotallyOrdered P → ∀ rank key xs before point after, (∀ i ∈ xs, P (key i)) →
    S.run rank key xs = before ++ point :: after → before.length = rank →
      (∀ i ∈ before, ¬ key point < key i) ∧ ∀ i ∈ after, ¬ key i < key point

/-! ### Real numbers -/

/-- In exact arithmetic the numbers up to the largest one are finite. -/
theorem finiteNumbers_real [RealFormat] (h : 0 ≤ (Scalar.largest : ℝ)) :
    FiniteNumbers fun x : ℝ => |x| ≤ Scalar.largest where
  asymm _ _ _ _ := lt_asymm
  trans _ _ _ _ _ _ hxy hyz := not_lt.2 ((not_lt.1 hxy).trans (not_lt.1 hyz))
  largest := (abs_of_nonneg h).le
  le_largest _ hx := not_lt.2 ((le_abs_self _).trans hx)
  smallest := ((abs_neg _).trans (abs_of_nonneg h)).le
  smallest_le _ hx := not_lt.2 (neg_le_of_abs_le hx)
  min_choice x y _ _ := min_choice x y
  min_le x y _ _ := ⟨not_lt.2 (min_le_left x y), not_lt.2 (min_le_right x y)⟩
  max_choice x y _ _ := max_choice x y
  le_max x y _ _ := ⟨not_lt.2 (le_max_left x y), not_lt.2 (le_max_right x y)⟩

theorem Selection.bySorting_arranges (ι : Type) : (bySorting ι ℝ).Arranges := by
  intro P _ rank key xs before point after _ hrun hlen
  obtain ⟨hbefore, hafter⟩ := bySorting_partitions ι rank key xs before point after hrun hlen
  exact ⟨fun i hi => not_lt.2 (hbefore i hi), fun i hi => not_lt.2 (hafter i hi)⟩

/-! ## Trees -/

namespace KdTree

/-- Node `id` is linked to from the inner node `p`. -/
def Links (T : KdTree α n d) (p id : ℕ) : Prop := ∃ v, T.nodes[p]? = some v ∧ id ∈ v.split.links

/-- Row `i` lies in the leaf at `id`, or is the point of the inner node there. -/
def Owns (T : KdTree α n d) (id : ℕ) (i : Fin n) : Prop :=
  ∃ v, T.nodes[id]? = some v ∧ i ∈ T.owned v

/-- The rows of the left part of a node are not above its point in its dimension, and those of the
right part not below it. -/
def Ordered [LT α] (T : KdTree α n d) (v : Node α n d) (point : Fin n) (l r : Node α n d) : Prop :=
  (∀ i ∈ T.rowsOf l, ¬ T.data.entry point v.dim < T.data.entry i v.dim) ∧
    ∀ i ∈ T.rowsOf r, ¬ T.data.entry i v.dim < T.data.entry point v.dim

variable [Neg α] [Scalar α]

/-- The shape of a tree that was built with a selection. -/
structure WellFormed (T : KdTree α n d) (S : Selection (Fin n) α) : Prop where
  /-- The permutation has every row once. -/
  indices : T.indices.toList.Perm (List.finRange n)
  root : ∃ v, T.nodes[0]? = some v ∧ v.start = 0 ∧ v.length = n ∧ v.depth = 0
  nodes : ∀ id v, T.nodes[id]? = some v → T.Sound S id v ∧ 2 ^ v.depth ≤ n
  /-- Every node but the root is linked to from one node. -/
  parent : ∀ id, 0 < id → id < T.nodes.size → ∃! p, T.Links p id
  /-- Every row lies in one leaf, or is the point of one inner node. -/
  owner : ∀ i, ∃! id, T.Owns id i

variable {S : Selection (Fin n) α}

theorem exists_wellFormed (hn : 0 < n) (hd : 0 < d) (M : Matrix α n d) {leafSize : ℕ}
    (hleaf : 0 < leafSize) (hword : 2 * leafSize < UInt64.size) :
    ∃ T, buildWith S M leafSize = .ok T ∧ T.data = M ∧ T.leafSize = leafSize ∧ T.WellFormed S := by
  have hrows : List.finRange n ≠ [] := finRange_ne_nil hn
  let g := grow S M hd leafSize 0 0 (List.finRange n)
  let T : KdTree α n d := ofGrowth M leafSize g
  have hbuild : buildWith S M leafSize = .ok T := buildWith_eq S hn hd M hleaf
  have hin : T.Contains 0 0 g := contains_growth M leafSize g
  have placed : T.Placed S hd 0 0 0 (List.finRange n) g :=
    grow_placed (T := T) hleaf hword 0 0 hrows 0 hin
  obtain ⟨-, hnodup, hlinks⟩ := grow_links (S := S) (M := M) hd hleaf hword 0 0 hrows
  have howned := placed.owned.trans placed.perm
  refine ⟨T, hbuild, rfl, rfl, placed.perm, ?_, fun id v hv => ?_, fun id hpos hsize => ?_,
    fun i => ?_⟩
  · obtain ⟨split, hroot⟩ := placed.root
    exact ⟨_, hroot, rfl, List.length_finRange, rfl⟩
  · have hsound := placed.nodes id v hv
    rw [Nat.zero_add, Node.shift_zero] at hsound
    refine ⟨hsound, ?_⟩
    have hdepth := grow_depth (S := S) (M := M) hd hleaf hword 0 0 hrows v
      (Array.mem_toList_iff.2 (Array.mem_of_getElem? hv))
    rw [pow_zero, one_mul, List.length_finRange] at hdepth
    exact (Nat.le_mul_of_pos_right _ hsound.1.nonempty).trans hdepth
  · have h := existsUnique_part hnodup ((hlinks id).2 ⟨hpos, hsize⟩)
    simp only [Array.getElem?_toList] at h
    exact h
  · have h := existsUnique_part (howned.nodup_iff.2 (List.nodup_finRange n))
      (howned.mem_iff.2 (List.mem_finRange i))
    simp only [Array.getElem?_toList] at h
    exact h

theorem WellFormed.box_exact [LT α] {T : KdTree α n d} (h : T.WellFormed S) {P : α → Prop}
    (hP : FiniteNumbers P) (hfin : ∀ i j, P (T.data.entry i j)) {id : ℕ} {v : Node α n d}
    (hv : T.nodes[id]? = some v) : v.box.Exact T.data (T.rowsOf v) := by
  have hregular := (h.nodes id v hv).1.1
  obtain ⟨rows, hperm, hbox⟩ := hregular.box
  have hne : rows ≠ [] := by
    have hpos := hregular.nonempty
    have hrange := hregular.range
    apply List.ne_nil_of_length_pos
    rw [hperm.length_eq, rowsOf, Array.length_toList, Array.size_extract]
    omega
  rw [hbox]
  exact (hP.ofRows_exact T.data hne hfin).perm hperm

omit [Neg α] [Scalar α] in
theorem Halves.ordered [LT α] (hS : S.Arranges) {T : KdTree α n d} {P : α → Prop}
    (hP : TotallyOrdered P) (hfin : ∀ i j, P (T.data.entry i j)) {id left right : ℕ}
    {v l r : Node α n d} {point : Fin n} (h : T.Halves S id v point left right l r) :
    T.Ordered v point l r := by
  obtain ⟨rows, before, after, -, hrun, hlen, hbefore, hafter⟩ := h.arranged
  obtain ⟨hbelow, habove⟩ := hS P hP _ _ _ _ _ _ (fun i _ => hfin i v.dim) hrun hlen
  constructor
  · intro i hi
    exact hbelow i (hbefore.mem_iff.2 hi)
  · intro i hi
    exact habove i (hafter.mem_iff.2 hi)

/-- **Trees are well formed.** A tree is built of every matrix with rows and columns, whatever its
entries are and however a selection arranges them. Where all entries are finite numbers, the boxes of
all nodes are exact; where moreover the selection arranges them in order, the rows of each half lie on
their side of the point. -/
theorem buildWith_wellFormed [LT α] (S : Selection (Fin n) α) (hn : 0 < n) (hd : 0 < d)
    (M : Matrix α n d) {leafSize : ℕ} (hleaf : 0 < leafSize) (hword : 2 * leafSize < UInt64.size) :
    ∃ T, buildWith S M leafSize = .ok T ∧ T.data = M ∧ T.leafSize = leafSize ∧ T.WellFormed S ∧
      ∀ P : α → Prop, FiniteNumbers P → (∀ i j, P (M.entry i j)) →
        (∀ (id : ℕ) v, T.nodes[id]? = some v → v.box.Exact M (T.rowsOf v)) ∧
        (S.Arranges → ∀ id v point left right l r, T.Halves S id v point left right l r →
          T.Ordered v point l r) := by
  obtain ⟨T, hbuild, rfl, hsize, hT⟩ := exists_wellFormed (S := S) hn hd M hleaf hword
  refine ⟨T, hbuild, rfl, hsize, hT, fun P hP hfin => ⟨fun id v hv => ?_, fun hS => ?_⟩⟩
  · exact hT.box_exact hP hfin hv
  · intro id v point left right l r h
    exact h.ordered hS hP.toTotallyOrdered hfin

omit [Neg α] [Scalar α] in
/-- Three real numbers, of which none is beyond the largest: their tree is well formed, with exact
boxes. -/
theorem buildWith_wellFormed_three_rows :
    letI : RealFormat := { RealFormat.plain with largest := 100 }
    let M : Matrix ℝ 3 1 := #v[#v[10], #v[0], #v[1]]
    (2 * 1 < UInt64.size ∧ (Selection.bySorting (Fin 3) ℝ).Arranges ∧
      (FiniteNumbers fun x : ℝ => |x| ≤ Scalar.largest) ∧
      ∀ i j, |M.entry i j| ≤ (Scalar.largest : ℝ)) ∧
    ∃ T, buildWith (.bySorting (Fin 3) ℝ) M 1 = .ok T ∧ T.WellFormed (.bySorting (Fin 3) ℝ) ∧
      ∀ (id : ℕ) v, T.nodes[id]? = some v → v.box.Exact M (T.rowsOf v) := by
  let _ : RealFormat := { RealFormat.plain with largest := 100 }
  intro M
  have hword : 2 * 1 < UInt64.size := by decide
  have hlargest : (Scalar.largest : ℝ) = 100 := rfl
  have hfinite : FiniteNumbers fun x : ℝ => |x| ≤ Scalar.largest :=
    finiteNumbers_real (by norm_num [hlargest])
  have hentry (i : Fin 3) (j : Fin 1) : |M.entry i j| ≤ (Scalar.largest : ℝ) := by
    have hbound : |![(10 : ℝ), 0, 1] i| ≤ 100 := by
      fin_cases i <;> norm_num
    have hM : M.entry i j = ![(10 : ℝ), 0, 1] i := by
      fin_cases i <;> fin_cases j <;> rfl
    rw [hM]
    exact hbound
  refine ⟨⟨hword, Selection.bySorting_arranges _, hfinite, hentry⟩, ?_⟩
  obtain ⟨T, hbuild, -, -, hT, hboxes⟩ :=
    buildWith_wellFormed (.bySorting (Fin 3) ℝ) (by decide) (by decide) M (by decide) hword
  exact ⟨T, hbuild, hT, (hboxes _ hfinite hentry).1⟩

end KdTree

end Proximity
