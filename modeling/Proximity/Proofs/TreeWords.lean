import Proximity.Proofs.FilledRows
import Proximity.Proofs.TreeArena
import Proximity.Proofs.Words

/-!
# Growing in words

Depths, starts and links of a tree are sums of sizes, and none of them is greater than the number of
rows. The leaf size comes from the caller, and it is doubled. A leaf size of half the address space or
more has no word for its double: a machine that checks its arithmetic stops, and one that does not grows
the tree for the low 63 bits of the leaf size. If these are zero also ranges of one row are split, and
their parts have no nodes to link to.

1. `growBy` and `KdTree.buildBy`: a tree as a machine grows it.
2. `Growth.Compact`: the bounds on the nodes of a growth and their links, whatever the leaf size is.
3. `growBy_eq_some` and `growBy_eq_none`, and `grow_leaves` for what is a leaf.
4. `KdTree.buildWith_in_words`, and `KdTree.leafSize_wraps` for half the address space.
-/

namespace Proximity

variable {α : Type} {n d : ℕ}

/-! ## On a machine -/

section Machine

variable (A : SizeArithmetic)

/-- Links moved by the position of the first node of a subtree, as a machine adds. -/
def Split.shiftBy (offset : ℕ) : Split n → Option (Split n)
  | leaf => some leaf
  | inner point left right => do
    let left ← A.add left offset
    let right ← A.add right offset
    return inner point left right

/-- The node with its links moved, as a machine adds. -/
def Node.shiftBy (offset : ℕ) (v : Node α n d) : Option (Node α n d) :=
  (v.split.shiftBy A offset).map fun split => { v with split }

/-- The two parts of a range and its point between them, with the room for the nodes and their links as a
machine computes them. -/
def Growth.joinBy (v : ℕ → Node α n d) (point : Fin n) (left right : Growth α n d) :
    Option (Growth α n d) := do
  let offset ← A.add 1 left.nodes.size
  let _ ← A.add offset right.nodes.size
  let below ← left.nodes.mapM (Node.shiftBy A 1)
  let above ← right.nodes.mapM (Node.shiftBy A offset)
  return ⟨left.order ++ point :: right.order, #[v offset] ++ below ++ above⟩

variable [Neg α] [Scalar α]

/-- The tree over a range of rows as a machine grows it, or nothing where the machine stops. -/
def growBy (S : Selection (Fin n) α) (M : Matrix α n d) (hd : 0 < d) (leafSize depth start : ℕ)
    (rows : List (Fin n)) : Option (Growth α n d) :=
  if rows = [] then some ⟨[], #[]⟩
  else (A.mul 2 leafSize).bind fun double =>
    if rows.length < double ∨ rows.length = 2 then
      some ⟨rows, #[Node.ofRange M hd depth start rows .leaf]⟩
    else
      match _ : A.sub rows.length 1 with
      | none => none
      | some last =>
        let mid := last / 2
        let arranged := S.run mid (M.entry · ⟨depth % d, Nat.mod_lt _ hd⟩) rows
        match _ : arranged.drop mid with
        | [] => some ⟨rows, #[Node.ofRange M hd depth start rows .leaf]⟩
        | point :: after => do
          let deeper ← A.add depth 1
          let middle ← A.add start mid
          let next ← A.add middle 1
          let left ← growBy S M hd leafSize deeper start (arranged.take mid)
          let right ← growBy S M hd leafSize deeper next after
          Growth.joinBy A (fun offset => Node.ofRange M hd depth start rows (.inner point 1 offset))
            point left right
termination_by rows.length
decreasing_by
  all_goals
    have hpos : 0 < rows.length := List.length_pos_iff.mpr ‹_›
    have hlast : rows.length - 1 = last :=
      Option.some.inj ((A.sub_exact hpos).symm.trans ‹A.sub rows.length 1 = some last›)
  · simp only [List.length_take]
    omega
  · have hlen : arranged.length = rows.length := (S.perm _ _ _).length_eq
    have hdrop : (point :: after).length = arranged.length - mid := by
      rw [← ‹arranged.drop mid = point :: after›, List.length_drop]
    simp only [List.length_cons] at hdrop
    omega

/-- A matrix that is not empty has columns. -/
theorem cols_pos (h : ¬ (n = 0 ∨ d = 0)) : 0 < d := by omega

/-- The tree of a matrix as a machine builds it. -/
def KdTree.buildBy (S : Selection (Fin n) α) (M : Matrix α n d) (leafSize : ℕ) :
    Option (Checked (KdTree α n d)) :=
  if h : n = 0 ∨ d = 0 then some (.error (.invalid (.emptyTree n d)))
  else if leafSize = 0 then some (.error (.invalid .leafSize))
  else (growBy A S M (cols_pos h) leafSize 0 0 (List.finRange n)).map fun g =>
    .ok (.ofGrowth M leafSize g)

end Machine

/-! ## Bounds -/

/-- A growth has at most `m` nodes, and its links lead at most one position beyond them. -/
structure Growth.Compact (g : Growth α n d) (m : ℕ) : Prop where
  size_le : g.nodes.size ≤ m
  link_le : ∀ k ∈ g.links, k ≤ g.nodes.size

section Bounds

variable {A : SizeArithmetic} {L R : Growth α n d} {l r : ℕ}

theorem Growth.Compact.join (hL : L.Compact l) (hR : R.Compact r) {v : ℕ → Node α n d}
    {point : Fin n} (hv : ∀ offset, (v offset).split = .inner point 1 offset) :
    (Growth.join v point L R).Compact (l + r + 1) where
  size_le := by
    have := hL.size_le
    have := hR.size_le
    rw [Growth.join_size]
    omega
  link_le k hk := by
    rw [Growth.links, Growth.join_flatMap, Growth.flatMap_links_shift, Growth.flatMap_links_shift,
      hv] at hk
    simp only [Split.links, List.mem_append, List.mem_cons, List.not_mem_nil, or_false,
      List.mem_map] at hk
    rw [Growth.join_size]
    rcases hk with ((rfl | rfl) | ⟨k', hk', rfl⟩) | ⟨k', hk', rfl⟩
    · omega
    · omega
    · have := hL.link_le k' hk'
      omega
    · have := hR.link_le k' hk'
      omega

theorem Node.shiftBy_eq {v : Node α n d} {offset : ℕ}
    (h : ∀ k ∈ v.split.links, k + offset < UInt64.size) :
    v.shiftBy A offset = some (v.shift offset) := by
  obtain ⟨dim, depth, start, length, split, box⟩ := v
  cases split with
  | leaf => rfl
  | inner point left right =>
    have hleft : A.add left offset = some (left + offset) :=
      A.add_exact (h left List.mem_cons_self)
    have hright : A.add right offset = some (right + offset) :=
      A.add_exact (h right (List.mem_cons_of_mem _ List.mem_cons_self))
    simp [Node.shiftBy, Split.shiftBy, Node.shift, Split.shift, hleft, hright]

theorem Growth.mapM_shiftBy {g : Growth α n d} {offset : ℕ}
    (h : ∀ k ∈ g.links, k + offset < UInt64.size) :
    g.nodes.mapM (Node.shiftBy A offset) = some (g.nodes.map (Node.shift offset)) := by
  have hlist (vs : List (Node α n d))
      (hvs : ∀ v ∈ vs, Node.shiftBy A offset v = some (v.shift offset)) :
      vs.mapM (Node.shiftBy A offset) = some (vs.map (Node.shift offset)) := by
    induction vs with
    | nil => rfl
    | cons v vs ih =>
      rw [List.mapM_cons, hvs v List.mem_cons_self,
        ih fun u hu => hvs u (List.mem_cons_of_mem _ hu)]
      rfl
  rw [Array.mapM_eq_mapM_toList, hlist]
  · exact congrArg some (by rw [← Array.toList_map, Array.toArray_toList])
  · intro v hv
    exact Node.shiftBy_eq fun k hk => h k (List.mem_flatMap.2 ⟨v, hv, hk⟩)

theorem Growth.joinBy_eq (hL : L.Compact l) (hR : R.Compact r) (hword : l + r + 1 < UInt64.size)
    (v : ℕ → Node α n d) (point : Fin n) :
    Growth.joinBy A v point L R = some (Growth.join v point L R) := by
  have hsizeL := hL.size_le
  have hsizeR := hR.size_le
  have hbelow : L.nodes.mapM (Node.shiftBy A 1) = some (L.nodes.map (Node.shift 1)) := by
    refine Growth.mapM_shiftBy fun k hk => ?_
    have := hL.link_le k hk
    omega
  have habove : R.nodes.mapM (Node.shiftBy A (1 + L.nodes.size)) =
      some (R.nodes.map (Node.shift (1 + L.nodes.size))) := by
    refine Growth.mapM_shiftBy fun k hk => ?_
    have := hR.link_le k hk
    omega
  have hoffset : A.add 1 L.nodes.size = some (1 + L.nodes.size) := A.add_exact (by omega)
  have hroom : A.add (1 + L.nodes.size) R.nodes.size = some (1 + L.nodes.size + R.nodes.size) :=
    A.add_exact (by omega)
  simp only [Growth.joinBy, hoffset, hroom, hbelow, habove, Option.bind_eq_bind, Option.bind_some]
  rfl

end Bounds

/-! ## The same tree -/

section Grow

variable [Neg α] [Scalar α] {A : SizeArithmetic} {S : Selection (Fin n) α} {M : Matrix α n d}
  {hd : 0 < d} {leafSize : ℕ}

/-- A machine that stops when it doubles the leaf size grows no tree from rows. -/
theorem growBy_eq_none (hdouble : A.mul 2 leafSize = none) (depth start : ℕ) {rows : List (Fin n)}
    (hrows : rows ≠ []) : growBy A S M hd leafSize depth start rows = none := by
  rw [growBy, if_neg hrows, hdouble]
  rfl

section Double

variable (hdouble : A.mul 2 leafSize = some (Memory.wrap (2 * leafSize)))

include hdouble

theorem growBy_leaf (depth start : ℕ) {rows : List (Fin n)} (hrows : rows ≠ [])
    (hwhole : keepsWhole leafSize rows.length = true) :
    growBy A S M hd leafSize depth start rows =
      some ⟨rows, #[Node.ofRange M hd depth start rows .leaf]⟩ := by
  have hkept : rows.length < Memory.wrap (2 * leafSize) ∨ rows.length = 2 := by
    simpa [keepsWhole] using hwhole
  rw [growBy, if_neg hrows, hdouble, Option.bind_some, if_pos hkept]

theorem growBy_split {depth start : ℕ} {rows before after : List (Fin n)} {point : Fin n}
    (hrows : rows ≠ []) (hwhole : keepsWhole leafSize rows.length = false)
    (hrun : S.run ((rows.length - 1) / 2) (M.entry · ⟨depth % d, Nat.mod_lt _ hd⟩) rows =
      before ++ point :: after)
    (hlen : before.length = (rows.length - 1) / 2) (hdepth : depth + rows.length < UInt64.size)
    (hstart : start + rows.length < UInt64.size) :
    growBy A S M hd leafSize depth start rows =
      (growBy A S M hd leafSize (depth + 1) start before).bind fun left =>
        (growBy A S M hd leafSize (depth + 1) (start + (rows.length - 1) / 2 + 1) after).bind
          fun right => Growth.joinBy A (fun offset =>
            Node.ofRange M hd depth start rows (.inner point 1 offset)) point left right := by
  have hpos := List.length_pos_iff.2 hrows
  have hsplit : ¬ (rows.length < Memory.wrap (2 * leafSize) ∨ rows.length = 2) := by
    simpa [keepsWhole] using hwhole
  have hlast : A.sub rows.length 1 = some (rows.length - 1) := A.sub_exact hpos
  have hdeeper : A.add depth 1 = some (depth + 1) := A.add_exact (by omega)
  have hmiddle : A.add start ((rows.length - 1) / 2) = some (start + (rows.length - 1) / 2) :=
    A.add_exact (by omega)
  have hnext : A.add (start + (rows.length - 1) / 2) 1 = some (start + (rows.length - 1) / 2 + 1) :=
    A.add_exact (by omega)
  have hdrop : (before ++ point :: after).drop ((rows.length - 1) / 2) = point :: after :=
    List.drop_left' hlen
  have htake : (before ++ point :: after).take ((rows.length - 1) / 2) = before :=
    List.take_left' hlen
  rw [growBy, if_neg hrows, hdouble, Option.bind_some, if_neg hsplit]
  split
  next hnone =>
    rw [hlast] at hnone
    cases hnone
  next last hsome =>
    rw [hlast] at hsome
    cases hsome
    dsimp only
    split
    next hnil =>
      rw [hrun, hdrop] at hnil
      cases hnil
    next point' after' hcons =>
      rw [hrun, hdrop] at hcons
      cases hcons
      rw [hrun, htake, hdeeper, hmiddle]
      simp only [Option.bind_eq_bind, Option.bind_some, hnext]

/-- A machine grows the tree that `grow` is, unless it stops when it doubles the leaf size. No sum is
greater than the number of rows, since all parts are compact. -/
theorem growBy_eq_some (depth start : ℕ) (rows : List (Fin n))
    (hdepth : depth + rows.length < UInt64.size) (hstart : start + rows.length < UInt64.size) :
    growBy A S M hd leafSize depth start rows = some (grow S M hd leafSize depth start rows) := by
  refine (grow_recursion (P := fun depth start rows g => g.Compact rows.length ∧
    (depth + rows.length < UInt64.size → start + rows.length < UInt64.size →
      growBy A S M hd leafSize depth start rows = some g)) ?_ ?_ ?_ depth start rows).2 hdepth hstart
  · intro depth start
    refine ⟨⟨le_rfl, fun k hk => ?_⟩, fun _ _ => ?_⟩
    · cases hk
    · rw [growBy, if_pos rfl]
  · intro depth start rows hrows hwhole
    refine ⟨⟨List.length_pos_iff.2 hrows, fun k hk => ?_⟩,
      fun _ _ => growBy_leaf hdouble depth start hrows hwhole⟩
    simp [Growth.links, Node.ofRange, Split.links] at hk
  · intro depth start rows before point after L R hrows hwhole hrun hbefore htotal hL hR
    obtain ⟨compactL, hL⟩ := hL
    obtain ⟨compactR, hR⟩ := hR
    refine ⟨htotal ▸ compactL.join compactR fun _ => rfl, fun hdepth hstart => ?_⟩
    rw [growBy_split hdouble hrows hwhole hrun hbefore hdepth hstart, hL (by omega) (by omega),
      hR (by omega) (by omega)]
    exact Growth.joinBy_eq compactL compactR (by omega) _ _

end Double

/-- A leaf is a range that is kept whole. -/
theorem grow_leaves (depth start : ℕ) (rows : List (Fin n)) :
    ∀ v ∈ (grow S M hd leafSize depth start rows).nodes.toList, v.split = .leaf →
      keepsWhole leafSize v.length = true := by
  refine grow_recursion (P := fun _ _ _ g => ∀ v ∈ g.nodes.toList, v.split = .leaf →
    keepsWhole leafSize v.length = true) ?_ ?_ ?_ depth start rows
  · intro depth start v hv
    cases hv
  · intro depth start rows _ hwhole v hv _
    obtain rfl := List.mem_singleton.1 hv
    exact hwhole
  · intro depth start rows before point after L R _ _ _ _ _ hL hR v hv hleaf
    simp only [Growth.join, Array.toList_append, Array.toList_map, List.mem_append,
      List.mem_singleton, List.mem_map] at hv
    rcases hv with (rfl | ⟨u, hu, rfl⟩) | ⟨u, hu, rfl⟩
    · cases hleaf
    · exact hL u hu (Node.leaf_of_shift hleaf)
    · exact hR u hu (Node.leaf_of_shift hleaf)

end Grow

namespace KdTree

section Build

variable [Neg α] [Scalar α]

/-- A machine builds the tree that `buildWith` is, or fails as it does, unless the machine stops when it
doubles the leaf size. -/
theorem buildBy_eq_some {A : SizeArithmetic} {leafSize : ℕ} (hrows : n < UInt64.size)
    (hdouble : A.mul 2 leafSize = some (Memory.wrap (2 * leafSize))) (S : Selection (Fin n) α)
    (M : Matrix α n d) : buildBy A S M leafSize = some (buildWith S M leafSize) := by
  have hfit : 0 + (List.finRange n).length < UInt64.size := by
    rwa [Nat.zero_add, List.length_finRange]
  unfold buildBy buildWith
  split
  · rfl
  · split
    · rfl
    · rw [growBy_eq_some hdouble 0 0 _ hfit hfit]
      rfl

/-- Only below half the address space a leaf size has a double that is a word. -/
theorem buildBy_checked {leafSize : ℕ} (hn : 0 < n) (hrows : n < UInt64.size) (hd : 0 < d)
    (hpos : 0 < leafSize) (S : Selection (Fin n) α) (M : Matrix α n d) :
    buildBy .checked S M leafSize =
      if leafSize < 2 ^ 63 then some (buildWith S M leafSize) else none := by
  split
  next hsmall =>
    have hdouble : 2 * leafSize < UInt64.size := by
      unfold UInt64.size
      omega
    refine buildBy_eq_some hrows ?_ S M
    rw [SizeArithmetic.mul_exact _ hdouble, Memory.wrap_of_lt hdouble]
  next hlarge =>
    have hdouble : SizeArithmetic.checked.mul 2 leafSize = none := by
      apply SizeArithmetic.checked_mul_eq_none
      unfold UInt64.size
      omega
    rw [buildBy, dif_neg (by omega), if_neg hpos.ne', growBy_eq_none hdouble 0 0 (finRange_ne_nil hn)]
    rfl

/-- A tree is built for every number of rows and every leaf size that is a word. A machine that checks its
arithmetic builds it for the leaf sizes below half the address space only. Above that the tree is that of
the leaf size without its highest bit, and at that its leaves have two rows each. -/
theorem buildWith_in_words (S : Selection (Fin n) α) (hn : 0 < n) (hrows : n < UInt64.size)
    (hd : 0 < d) (M : Matrix α n d) {leafSize : ℕ} (hpos : 0 < leafSize)
    (hword : leafSize < UInt64.size) :
    ∃ T, buildWith S M leafSize = .ok T ∧ buildBy .wrapping S M leafSize = some (.ok T) ∧
      buildBy .checked S M leafSize = (if leafSize < 2 ^ 63 then some (.ok T) else none) ∧
      (leafSize ≠ 2 ^ 63 → ∀ p id, T.Links p id → id < T.nodes.size) ∧
      (leafSize < 2 ^ 63 → n < leafSize → ∃ v, T.nodes = #[v] ∧ v.split = .leaf ∧
        T.rowsOf v = List.finRange n) ∧
      (2 ^ 63 < leafSize →
        buildWith S M (leafSize - 2 ^ 63) = .ok { T with leafSize := leafSize - 2 ^ 63 }) ∧
      (leafSize = 2 ^ 63 → ∀ v ∈ T.nodes.toList, v.split = .leaf → v.length = 2) := by
  have hne : List.finRange n ≠ [] := finRange_ne_nil hn
  let g := grow S M hd leafSize 0 0 (List.finRange n)
  let T : KdTree α n d := ofGrowth M leafSize g
  have hbuild : buildWith S M leafSize = .ok T := buildWith_eq S hn hd M hpos
  refine ⟨T, hbuild, ?_, ?_, fun hhalf p id hlink => ?_, fun hsmall hlarge => ?_,
    fun hlarge => ?_, fun hhalf v hv hleaf => ?_⟩
  · rw [buildBy_eq_some hrows rfl, hbuild]
  · rw [buildBy_checked hn hrows hd hpos, hbuild]
  · -- without its highest bit the leaf size has a double that is a word
    have hmod : 0 < leafSize % 2 ^ 63 ∧ 2 * (leafSize % 2 ^ 63) < UInt64.size := by
      unfold UInt64.size at *
      omega
    obtain ⟨-, -, hlinks⟩ := grow_links (S := S) (M := M) hd hmod.1 hmod.2 0 0 hne
    rw [grow_mod] at hlinks
    obtain ⟨v, hv, hid⟩ := hlink
    have hmem : id ∈ g.links :=
      List.mem_flatMap.2 ⟨v, Array.mem_toList_iff.2 (Array.mem_of_getElem? hv), hid⟩
    exact ((hlinks id).1 hmem).2
  · have hdouble : 2 * leafSize < UInt64.size := by
      unfold UInt64.size
      omega
    have hwhole : keepsWhole leafSize (List.finRange n).length = true := by
      rw [keepsWhole, Memory.wrap_of_lt hdouble, List.length_finRange]
      exact Bool.or_eq_true_iff.2 (Or.inl (decide_eq_true (by omega)))
    have hgrow : g = ⟨List.finRange n, #[Node.ofRange M hd 0 0 (List.finRange n) .leaf]⟩ :=
      grow_leaf 0 0 hne hwhole
    have horder : g.order = List.finRange n := congrArg Growth.order hgrow
    refine ⟨_, congrArg Growth.nodes hgrow, rfl, ?_⟩
    rw [(contains_growth M leafSize g).rowsOf_eq rfl (congrArg List.length horder).symm, horder]
  · have hmod : leafSize % 2 ^ 63 = leafSize - 2 ^ 63 := by
      unfold UInt64.size at hword
      omega
    rw [buildWith_eq S hn hd M (by omega), ← hmod, grow_mod]
    rfl
  · have hkept := grow_leaves 0 0 (List.finRange n) v hv hleaf
    have hdouble : Memory.wrap (2 * leafSize) = 0 := by rw [hhalf]; rfl
    simpa [keepsWhole, hdouble] using hkept

end Build

/-- A leaf size that is greater than the number of rows. -/
theorem buildWith_in_words_three_rows :
    let M : Matrix Float 3 1 := #v[#v[0], #v[1], #v[2]]
    (3 < UInt64.size ∧ 5 < UInt64.size) ∧
    ∃ T, buildWith (.bySorting _ _) M 5 = .ok T ∧
      buildBy .checked (.bySorting _ _) M 5 = some (.ok T) ∧
      ∃ v, T.nodes = #[v] ∧ v.split = .leaf ∧ T.rowsOf v = List.finRange 3 := by
  intro M
  have hrows : 3 < UInt64.size := by decide
  have hword : 5 < UInt64.size := by decide
  obtain ⟨T, hbuild, -, hchecked, -, hsingle, -, -⟩ :=
    buildWith_in_words (.bySorting _ _) (by decide) hrows Nat.one_pos M (by decide) hword
  rw [if_pos (by decide)] at hchecked
  exact ⟨⟨hrows, hword⟩, T, hbuild, hchecked, hsingle (by decide) (by decide)⟩

/-- Half the address space as a leaf size. A machine that checks its arithmetic stops. On one that does not
all three rows are split, the last node links to a node that does not exist, and a search that walks
there ends in a breach. -/
theorem leafSize_wraps :
    let M : Matrix Float 3 1 := #v[#v[0], #v[1], #v[2]]
    let Q : Matrix Float 1 1 := #v[#v[2]]
    let leafSize := 2 ^ 63
    0 < leafSize ∧ leafSize < UInt64.size ∧ 3 < leafSize ∧
    buildBy .checked (.bySorting _ _) M leafSize = none ∧
    ∃ T, buildWith (.bySorting _ _) M leafSize = .ok T ∧ T.nodes.size = 3 ∧ T.Links 2 3 ∧
      T.nearestNeighbours (some (.ofMatrix Q)) 3 .euclidean 2 = .error (.breach .range) := by
  intro M Q leafSize
  have hchecked : buildBy .checked (.bySorting _ _) M leafSize = none := by
    rw [buildBy_checked (by decide) (by decide) Nat.one_pos (by decide), if_neg (by decide)]
  let search (T : KdTree Float 3 1) : Outcome (NeighbourTable Float 1 3) :=
    T.nearestNeighbours (some (.ofMatrix Q)) 3 .euclidean 2
  have hrun : ((buildWith (.bySorting _ _) M leafSize).toOption.map fun T =>
      (T.nodes.map (·.split), (search T).map fun _ => ())) =
        some (#[.inner 1 1 2, .inner 0 2 2, .inner 2 3 3], .error (.breach .range)) := by
    decide +kernel
  obtain ⟨T, hT, hrun⟩ := Option.map_eq_some_iff.1 hrun
  obtain ⟨hsplits, hsearch⟩ := Prod.mk.inj hrun
  have hsize : T.nodes.size = 3 := by
    have := congrArg Array.size hsplits
    rwa [Array.size_map] at this
  have hlast : (T.nodes.map (·.split))[2]? = some (.inner 2 3 3) := by
    rw [hsplits]
    rfl
  rw [Array.getElem?_map] at hlast
  obtain ⟨v, hv, hlinks⟩ := Option.map_eq_some_iff.1 hlast
  have hlink : 3 ∈ v.split.links := by
    rw [hlinks]
    exact List.mem_cons_self
  refine ⟨by decide, by decide, by decide, hchecked, T, eq_ok_of_toOption hT, hsize, ⟨v, hv, hlink⟩,
    ?_⟩
  show search T = _
  cases hfound : search T with
  | error e =>
    rw [hfound] at hsearch
    exact congrArg Except.error (Except.error.inj hsearch)
  | ok t =>
    rw [hfound] at hsearch
    cases hsearch

end KdTree

end Proximity
