import Proximity.Proofs.Boxes
import Proximity.Proofs.Smallest

/-!
# The shape of a k-d tree

A range of rows becomes a leaf, or it is split at its middle row into two ranges, which are not empty as
long as the doubled leaf size is a word. `grow_leaf` and `grow_split` say so once; what holds of all grown
trees follows from these two cases.

1. `grow_recursion` for all leaf sizes, `grow_induction` for those whose double is a word, and
   `Growth.join_perm` for the rows of a range that is split.
2. `KdTree.Contains`: where a growth lies in a tree; `buildWith_eq` says what a tree is made of.
3. `Selection.Partitions`: nothing greater stands before the selected item and nothing smaller after it.
4. `Covers`: a part of an array of nodes is a tree over some rows, with boxes and splits that a search
   can rely on. `buildWith_covers` gives it of every tree that is built.
-/

namespace Proximity

variable {n d : ℕ}

/-! ## Growing -/

section Grow

variable {α : Type} [Neg α] [Scalar α]

/-- The node over a range of rows. -/
def Node.ofRange (M : Matrix α n d) (hd : 0 < d) (depth start : ℕ) (rows : List (Fin n))
    (split : Split n) : Node α n d where
  dim := ⟨depth % d, Nat.mod_lt _ hd⟩
  depth := depth
  start := start
  length := rows.length
  split := split
  box := Box.ofRows M rows

omit [Neg α] [Scalar α] in
theorem Node.shift_zero (v : Node α n d) : v.shift 0 = v := by
  obtain ⟨dim, depth, start, length, split, box⟩ := v
  cases split <;> rfl

omit [Neg α] [Scalar α] in
theorem Node.shift_shift (v : Node α n d) (a b : ℕ) : (v.shift a).shift b = v.shift (a + b) := by
  obtain ⟨dim, depth, start, length, split, box⟩ := v
  cases split with
  | leaf => rfl
  | inner point left right => simp [Node.shift, Split.shift, Nat.add_assoc]

omit [Neg α] [Scalar α] in
theorem Node.leaf_of_shift {v : Node α n d} {offset : ℕ} (h : (v.shift offset).split = .leaf) :
    v.split = .leaf := by
  obtain ⟨dim, depth, start, length, split, box⟩ := v
  cases split with
  | leaf => rfl
  | inner point left right => cases h

/-- The two parts of a range and its point between them, in one array of nodes. -/
def Growth.join (v : ℕ → Node α n d) (point : Fin n) (left right : Growth α n d) : Growth α n d where
  order := left.order ++ point :: right.order
  nodes := #[v (1 + left.nodes.size)] ++ left.nodes.map (Node.shift 1)
    ++ right.nodes.map (Node.shift (1 + left.nodes.size))

omit [Neg α] [Scalar α] in
/-- A selection puts the row of middle rank between two parts of the others. -/
theorem Selection.run_split (S : Selection (Fin n) α) (key : Fin n → α) {rows : List (Fin n)}
    (hrows : rows ≠ []) :
    ∃ before point after, S.run ((rows.length - 1) / 2) key rows = before ++ point :: after ∧
      before.length = (rows.length - 1) / 2 ∧
      before.length + after.length + 1 = rows.length := by
  have hpos := List.length_pos_iff.2 hrows
  obtain ⟨arranged, harranged⟩ : ∃ arranged, S.run ((rows.length - 1) / 2) key rows = arranged :=
    ⟨_, rfl⟩
  have hlen : arranged.length = rows.length := harranged ▸ (S.perm _ _ _).length_eq
  have hmid : (rows.length - 1) / 2 < arranged.length := by omega
  refine ⟨arranged.take ((rows.length - 1) / 2), arranged[(rows.length - 1) / 2],
    arranged.drop ((rows.length - 1) / 2 + 1), ?_, ?_, ?_⟩
  · rw [harranged, List.getElem_cons_drop hmid, List.take_append_drop]
  · rw [List.length_take]
    omega
  · rw [List.length_take, List.length_drop]
    omega

omit [Neg α] [Scalar α] in
theorem Growth.join_size (v : ℕ → Node α n d) (point : Fin n) (L R : Growth α n d) :
    (Growth.join v point L R).nodes.size = 1 + L.nodes.size + R.nodes.size := by
  simp [Growth.join, Nat.add_assoc]

variable {S : Selection (Fin n) α} {M : Matrix α n d} {hd : 0 < d} {leafSize : ℕ}

theorem grow_nil (depth start : ℕ) : grow S M hd leafSize depth start [] = ⟨[], #[]⟩ := by
  rw [grow, if_pos rfl]

theorem grow_leaf (depth start : ℕ) {rows : List (Fin n)} (hrows : rows ≠ [])
    (hwhole : keepsWhole leafSize rows.length = true) :
    grow S M hd leafSize depth start rows =
      ⟨rows, #[Node.ofRange M hd depth start rows .leaf]⟩ := by
  rw [grow, if_neg hrows, if_pos hwhole]
  rfl

theorem grow_split {depth : ℕ} (start : ℕ) {rows before after : List (Fin n)} {point : Fin n}
    (hrows : rows ≠ []) (hwhole : keepsWhole leafSize rows.length = false)
    (hrun : S.run ((rows.length - 1) / 2) (M.entry · ⟨depth % d, Nat.mod_lt _ hd⟩) rows =
      before ++ point :: after)
    (hlen : before.length = (rows.length - 1) / 2) :
    grow S M hd leafSize depth start rows = .join (fun offset =>
      Node.ofRange M hd depth start rows (.inner point 1 offset)) point
        (grow S M hd leafSize (depth + 1) start before)
        (grow S M hd leafSize (depth + 1) (start + (rows.length - 1) / 2 + 1) after) := by
  have hdrop : (before ++ point :: after).drop ((rows.length - 1) / 2) = point :: after :=
    List.drop_left' hlen
  have htake : (before ++ point :: after).take ((rows.length - 1) / 2) = before :=
    List.take_left' hlen
  rw [grow, if_neg hrows, if_neg (ne_true_of_eq_false hwhole)]
  dsimp only
  split
  next hnil =>
    rw [hrun, hdrop] at hnil
    cases hnil
  next point' after' hcons =>
    rw [hrun, hdrop] at hcons
    cases hcons
    rw [hrun, htake]
    rfl

/-- What holds of no rows, of all leaves, and of an inner node when it holds of its two parts, holds of
every tree that is grown, whatever the leaf size is. -/
theorem grow_recursion {P : ℕ → ℕ → List (Fin n) → Growth α n d → Prop}
    (nil : ∀ depth start, P depth start [] ⟨[], #[]⟩)
    (leaf : ∀ depth start rows, rows ≠ [] → keepsWhole leafSize rows.length = true →
      P depth start rows ⟨rows, #[Node.ofRange M hd depth start rows .leaf]⟩)
    (inner : ∀ depth start rows before point after left right,
      rows ≠ [] → keepsWhole leafSize rows.length = false →
      S.run ((rows.length - 1) / 2) (M.entry · ⟨depth % d, Nat.mod_lt _ hd⟩) rows =
        before ++ point :: after →
      before.length = (rows.length - 1) / 2 → before.length + after.length + 1 = rows.length →
      P (depth + 1) start before left →
      P (depth + 1) (start + (rows.length - 1) / 2 + 1) after right →
      P depth start rows (.join (fun offset =>
        Node.ofRange M hd depth start rows (.inner point 1 offset)) point left right))
    (depth start : ℕ) (rows : List (Fin n)) :
    P depth start rows (grow S M hd leafSize depth start rows) := by
  induction hlen : rows.length using Nat.strong_induction_on generalizing depth start rows with
  | h m ih =>
    subst hlen
    by_cases hrows : rows = []
    · rw [hrows, grow_nil]
      exact nil depth start
    · cases hwhole : keepsWhole leafSize rows.length with
      | true =>
        rw [grow_leaf depth start hrows hwhole]
        exact leaf depth start rows hrows hwhole
      | false =>
        obtain ⟨before, point, after, hrun, hbefore, htotal⟩ :=
          S.run_split (M.entry · ⟨depth % d, Nat.mod_lt _ hd⟩) hrows
        rw [grow_split start hrows hwhole hrun hbefore]
        exact inner depth start rows before point after _ _ hrows hwhole hrun hbefore htotal
          (ih _ (by omega) _ _ _ rfl) (ih _ (by omega) _ _ _ rfl)

/-- The doubled leaf size loses the highest bit of the leaf size. -/
theorem keepsWhole_mod (leafSize m : ℕ) :
    keepsWhole (leafSize % 2 ^ 63) m = keepsWhole leafSize m := by
  have hdouble : Memory.wrap (2 * (leafSize % 2 ^ 63)) = Memory.wrap (2 * leafSize) := by
    unfold Memory.wrap UInt64.size
    omega
  rw [keepsWhole, hdouble, keepsWhole]

theorem grow_mod (depth start : ℕ) (rows : List (Fin n)) :
    grow S M hd (leafSize % 2 ^ 63) depth start rows = grow S M hd leafSize depth start rows := by
  refine grow_recursion (P := fun depth start rows g =>
    g = grow S M hd leafSize depth start rows) ?_ ?_ ?_ depth start rows
  · intro depth start
    rw [grow_nil]
  · intro depth start rows hrows hwhole
    rw [keepsWhole_mod] at hwhole
    rw [grow_leaf depth start hrows hwhole]
  · intro depth start rows before point after left right hrows hwhole hrun hbefore _ hL hR
    rw [keepsWhole_mod] at hwhole
    rw [grow_split start hrows hwhole hrun hbefore, hL, hR]

theorem keepsWhole_eq_false (hleaf : 0 < leafSize) (hword : 2 * leafSize < UInt64.size) {m : ℕ} :
    keepsWhole leafSize m = false ↔ 2 * leafSize ≤ m ∧ 3 ≤ m := by
  rw [keepsWhole, Memory.wrap_of_lt hword, Bool.or_eq_false_iff, decide_eq_false_iff_not,
    decide_eq_false_iff_not]
  omega

/-- What holds of all leaves, and of an inner node when it holds of its two parts, holds of every tree
that is grown from some rows. With a leaf size whose double is a word both parts have rows. -/
theorem grow_induction (hleaf : 0 < leafSize) (hword : 2 * leafSize < UInt64.size)
    {P : ℕ → ℕ → List (Fin n) → Growth α n d → Prop}
    (leaf : ∀ depth start rows, rows ≠ [] → rows.length < max (2 * leafSize) 3 →
      P depth start rows ⟨rows, #[Node.ofRange M hd depth start rows .leaf]⟩)
    (inner : ∀ depth start rows before point after left right,
      2 * leafSize ≤ rows.length → 3 ≤ rows.length →
      S.run ((rows.length - 1) / 2) (M.entry · ⟨depth % d, Nat.mod_lt _ hd⟩) rows =
        before ++ point :: after →
      before.length = (rows.length - 1) / 2 → before ≠ [] → after ≠ [] →
      P (depth + 1) start before left →
      P (depth + 1) (start + (rows.length - 1) / 2 + 1) after right →
      P depth start rows (.join (fun offset =>
        Node.ofRange M hd depth start rows (.inner point 1 offset)) point left right))
    (depth start : ℕ) (rows : List (Fin n)) (hrows : rows ≠ []) :
    P depth start rows (grow S M hd leafSize depth start rows) := by
  refine grow_recursion (P := fun depth start rows g => rows ≠ [] → P depth start rows g)
    (fun _ _ hnil => absurd rfl hnil) ?_ ?_ depth start rows hrows
  · intro depth start rows hrows hwhole _
    refine leaf depth start rows hrows ?_
    have := mt (keepsWhole_eq_false hleaf hword).2 (ne_false_of_eq_true hwhole)
    omega
  · intro depth start rows before point after left right _ hwhole hrun hbefore htotal hL hR _
    obtain ⟨htwo, hthree⟩ := (keepsWhole_eq_false hleaf hword).1 hwhole
    have hleft : before ≠ [] := List.ne_nil_of_length_pos (by omega)
    have hright : after ≠ [] := List.ne_nil_of_length_pos (by omega)
    exact inner depth start rows before point after left right htwo hthree hrun hbefore hleft hright
      (hL hleft) (hR hright)

omit [Neg α] [Scalar α] in
theorem Growth.join_perm {v : ℕ → Node α n d} {rank : ℕ} {key : Fin n → α}
    {rows before after : List (Fin n)} {point : Fin n} {left right : Growth α n d}
    (hrun : S.run rank key rows = before ++ point :: after) (hleft : left.order.Perm before)
    (hright : right.order.Perm after) : (join v point left right).order.Perm rows := by
  have harranged := S.perm rank key rows
  rw [hrun] at harranged
  exact (hleft.append (hright.cons point)).trans harranged

end Grow

/-! ## Where a growth lies -/

namespace KdTree

variable {α : Type}

/-- A tree has the nodes of a growth from `id` on, and its permutation from `start` on. -/
structure Contains (T : KdTree α n d) (id start : ℕ) (g : Growth α n d) : Prop where
  nodes : ∀ k v, g.nodes[k]? = some v → T.nodes[id + k]? = some (v.shift id)
  order : ∀ k i, g.order[k]? = some i → T.indices[start + k]? = some i

variable {T : KdTree α n d} {id start : ℕ}

theorem Contains.rowsOf_eq {g : Growth α n d} (h : T.Contains id start g) {v : Node α n d}
    (hstart : v.start = start) (hlength : v.length = g.order.length) : T.rowsOf v = g.order := by
  refine List.ext_getElem? fun k => ?_
  rw [KdTree.rowsOf, Array.getElem?_toList, Array.getElem?_extract, hstart, hlength]
  by_cases hk : k < g.order.length
  · have hread := h.order k _ (List.getElem?_eq_getElem hk)
    have hin : start + k < T.indices.size := (Array.getElem?_eq_some_iff.1 hread).1
    rw [if_pos (by omega), hread, List.getElem?_eq_getElem hk]
  · rw [if_neg (by omega), List.getElem?_eq_none (not_lt.1 hk)]

/-- The tree that is made of a growth over all rows. -/
def ofGrowth (M : Matrix α n d) (leafSize : ℕ) (g : Growth α n d) : KdTree α n d where
  data := M
  leafSize := leafSize
  indices := g.order.toArray
  nodes := g.nodes

/-- A tree is made of what grows from all rows, for every matrix with rows and columns. -/
theorem buildWith_eq [Neg α] [Scalar α] (S : Selection (Fin n) α) (hn : 0 < n) (hd : 0 < d)
    (M : Matrix α n d) {leafSize : ℕ} (hleaf : 0 < leafSize) :
    buildWith S M leafSize =
      .ok (ofGrowth M leafSize (grow S M hd leafSize 0 0 (List.finRange n))) := by
  rw [buildWith, dif_neg (by omega), if_neg hleaf.ne']
  rfl

theorem finRange_ne_nil (hn : 0 < n) : List.finRange n ≠ [] := mt List.finRange_eq_nil_iff.1 hn.ne'

/-- The tree that is made of a growth has it from its first node on. -/
theorem contains_growth (M : Matrix α n d) (leafSize : ℕ) (g : Growth α n d) :
    (ofGrowth M leafSize g).Contains 0 0 g where
  nodes k v hk := by rwa [Nat.zero_add, Node.shift_zero]
  order k i hk := by rwa [Nat.zero_add, List.getElem?_toArray]

variable {v : ℕ → Node α n d} {point : Fin n} {L R : Growth α n d}
  (h : T.Contains id start (.join v point L R))

include h

theorem Contains.root : T.nodes[id]? = some ((v (1 + L.nodes.size)).shift id) := by
  refine h.nodes 0 _ ?_
  simp [Growth.join]

theorem Contains.left : T.Contains (1 + id) start L where
  nodes k u hk := by
    have hlt : k < L.nodes.size := (Array.getElem?_eq_some_iff.1 hk).1
    have := h.nodes (1 + k) (u.shift 1) (by
      simp only [Growth.join, Array.getElem?_append, Array.size_append, Array.size_map,
        List.size_toArray, List.length_singleton]
      rw [if_pos (by omega), if_neg (by omega), Array.getElem?_map, Nat.add_sub_cancel_left, hk]
      rfl)
    rwa [Node.shift_shift, ← Nat.add_assoc, Nat.add_comm id] at this
  order k i hk := by
    have hlt : k < L.order.length := (List.getElem?_eq_some_iff.1 hk).1
    refine h.order k i ?_
    rwa [Growth.join, List.getElem?_append_left hlt]

theorem Contains.right :
    T.Contains (1 + L.nodes.size + id) (start + L.order.length + 1) R where
  nodes k u hk := by
    have := h.nodes (1 + L.nodes.size + k) (u.shift (1 + L.nodes.size)) (by
      simp only [Growth.join, Array.getElem?_append, Array.size_append, Array.size_map,
        List.size_toArray, List.length_singleton]
      rw [if_neg (by omega), Array.getElem?_map, Nat.add_sub_cancel_left, hk]
      rfl)
    rwa [Node.shift_shift, ← Nat.add_assoc, Nat.add_comm id] at this
  order k i hk := by
    have := h.order (L.order.length + 1 + k) i (by
      rw [Growth.join, List.getElem?_append_right (by omega),
        show L.order.length + 1 + k - L.order.length = k + 1 by omega]
      exact hk)
    rwa [← Nat.add_assoc, ← Nat.add_assoc] at this

end KdTree

/-! ## Trees that can be searched -/

/-- Nothing greater stands before the item of the given rank, and nothing smaller after it. -/
def Selection.Partitions {ι : Type} (S : Selection ι ℝ) : Prop :=
  ∀ rank key xs before point after, S.run rank key xs = before ++ point :: after →
    before.length = rank → (∀ i ∈ before, key i ≤ key point) ∧ ∀ i ∈ after, key point ≤ key i

theorem Selection.bySorting_partitions (ι : Type) : (bySorting ι ℝ).Partitions := by
  intro rank key xs before point after hrun _
  have hsorted := StableSort.sort_ascending key xs
  rw [show StableSort.sort _ xs = before ++ point :: after from hrun, List.pairwise_append,
    List.pairwise_cons] at hsorted
  obtain ⟨-, ⟨hafter, -⟩, hbefore⟩ := hsorted
  exact ⟨fun i hi => hbefore i hi point List.mem_cons_self, hafter⟩

namespace KdTree

variable [RealFormat]

/-- The `size` nodes reached from position `id` are a tree over some rows: boxes hold the rows below
them, and no row lies on the wrong side of the point that it was split from. -/
inductive Covers (T : KdTree ℝ n d) : (size id : ℕ) → (rows : List (Fin n)) → Prop
  | leaf {id : ℕ} {v : Node ℝ n d} {rows : List (Fin n)} (lookup : T.nodes[id]? = some v)
      (split : v.split = .leaf) (range : T.rowsOf v = rows)
      (box : ∀ i ∈ rows, v.box.Holds (T.data.get i)) (nonempty : rows ≠ []) :
      Covers T 1 id rows
  | inner {id left right sizeLeft sizeRight : ℕ} {v : Node ℝ n d} {point : Fin n}
      {before after : List (Fin n)} (lookup : T.nodes[id]? = some v)
      (split : v.split = .inner point left right)
      (range : T.rowsOf v = before ++ point :: after)
      (box : ∀ i ∈ before ++ point :: after, v.box.Holds (T.data.get i))
      (below : ∀ i ∈ before, T.data.entry i v.dim ≤ T.data.entry point v.dim)
      (above : ∀ i ∈ after, T.data.entry point v.dim ≤ T.data.entry i v.dim)
      (hleft : Covers T sizeLeft left before) (hright : Covers T sizeRight right after) :
      Covers T (1 + sizeLeft + sizeRight) id (before ++ point :: after)

/-- A tree that has the nodes of a growth covers its rows with them. -/
theorem grow_covers {S : Selection (Fin n) ℝ} (hS : S.Partitions) {T : KdTree ℝ n d} {hd : 0 < d}
    {leafSize : ℕ} (hleaf : 0 < leafSize) (hword : 2 * leafSize < UInt64.size) (depth start : ℕ)
    {rows : List (Fin n)} (hrows : rows ≠ []) :
    let g := grow S T.data hd leafSize depth start rows
    ∀ id, T.Contains id start g → g.order.Perm rows ∧ T.Covers g.nodes.size id g.order := by
  refine grow_induction (P := fun _ start rows g => ∀ id, T.Contains id start g →
    g.order.Perm rows ∧ T.Covers g.nodes.size id g.order) hleaf hword ?_ ?_ depth start rows hrows
  · intro depth start rows hne _ id hin
    refine ⟨List.Perm.refl rows, .leaf (hin.nodes 0 _ rfl) rfl (hin.rowsOf_eq rfl rfl) ?_ hne⟩
    intro i hi
    exact Box.ofRows_holds T.data hi
  · intro depth start rows before point after L R _ _ hrun hlen _ _ hleft hright id hin
    obtain ⟨hpermL, hcoverL⟩ := hleft _ hin.left
    have hinR := hin.right
    rw [hpermL.length_eq, hlen] at hinR
    obtain ⟨hpermR, hcoverR⟩ := hright _ hinR
    obtain ⟨hbelow, habove⟩ := hS _ _ _ _ _ _ hrun hlen
    have hperm := Growth.join_perm (v := fun offset => Node.ofRange T.data hd depth start rows
      (.inner point 1 offset)) hrun hpermL hpermR
    refine ⟨hperm, ?_⟩
    rw [Growth.join_size]
    refine .inner hin.root rfl (hin.rowsOf_eq rfl hperm.length_eq.symm) ?_ ?_ ?_ hcoverL hcoverR
    · intro i hi
      exact Box.ofRows_holds T.data (hperm.mem_iff.1 hi)
    · intro i hi
      exact hbelow i (hpermL.mem_iff.1 hi)
    · intro i hi
      exact habove i (hpermR.mem_iff.1 hi)

/-- A tree is built of every matrix with rows and columns, and it covers all rows. -/
theorem buildWith_covers {S : Selection (Fin n) ℝ} (hS : S.Partitions) (hn : 0 < n) (hd : 0 < d)
    (M : Matrix ℝ n d) {leafSize : ℕ} (hleaf : 0 < leafSize) (hword : 2 * leafSize < UInt64.size) :
    ∃ T, buildWith S M leafSize = .ok T ∧ T.data = M ∧
      ∃ rows, rows.Perm (List.finRange n) ∧ T.Covers T.nodes.size 0 rows := by
  exact ⟨_, buildWith_eq S hn hd M hleaf, rfl, _,
    grow_covers hS hleaf hword 0 0 (finRange_ne_nil hn) 0 (contains_growth M leafSize _)⟩

end KdTree

end Proximity
